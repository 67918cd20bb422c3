import Mathlib.Data.List.Basic
import Mathlib.Data.List.Induction

/-!
# Inputs that may be left out

A machine reads inputs and answers some of them.  Two states are alike when no input ever
tells them apart.  An input that leads from a state to one like it, without an answer, may
be left out there: the run without such inputs ends alike and gives the same answers.  The
inputs of a run are flagged, and the ones to leave out carry `false`.
-/

namespace FeedBench.Lib

variable {σ ε ω : Type*}

def kept (es : List (ε × Bool)) : List ε := (es.filter Prod.snd).map Prod.fst

def whole (es : List (ε × Bool)) : List ε := es.map Prod.fst

section Lists

variable {es es' : List (ε × Bool)} {e : ε}

theorem kept_append : kept (es ++ es') = kept es ++ kept es' := by
  rw [kept, List.filter_append, List.map_append, kept, kept]

theorem whole_append : whole (es ++ es') = whole es ++ whole es' := List.map_append

theorem kept_map_true (l : List ε) : kept (l.map fun e => (e, true)) = l := by
  rw [kept, List.filter_eq_self.mpr, List.map_map]
  · exact List.map_id l
  · intro e he
    obtain ⟨a, -, rfl⟩ := List.mem_map.mp he
    rfl

theorem split_snoc {α : Type*} {l p q : List α} {x y : α} (h : l ++ [x] = p ++ y :: q) :
    (l = p ∧ x = y) ∨ ∃ q', l = p ++ y :: q' := by
  induction q using List.reverseRecOn with
  | nil =>
      obtain ⟨hl, hx⟩ := List.append_inj' h rfl
      exact .inl ⟨hl, List.head_eq_of_cons_eq hx⟩
  | append_singleton q z _ =>
      rw [← List.cons_append, ← List.append_assoc] at h
      exact .inr ⟨q, (List.append_inj' h rfl).1⟩

theorem filter_cons_own {own : ε → Bool} {e : ε} (he : own e = true) (b : Bool)
    (es : List (ε × Bool)) : ((e, b) :: es).filter (fun e => own e.1) =
      (e, b) :: es.filter fun e => own e.1 :=
  List.filter_cons_of_pos (p := fun e : ε × Bool => own e.1) he

theorem filter_map_true {own : ε → Bool} {l : List ε} (h : ∀ e ∈ l, ¬own e = true) :
    (l.map fun e => (e, true)).filter (fun e => own e.1) = [] := by
  rw [List.filter_eq_nil_iff]
  intro x hx
  obtain ⟨e, he, rfl⟩ := List.mem_map.mp hx
  exact h e he

theorem flag_map_true {l : List ε} : ∀ x ∈ l.map fun e => (e, true), x.2 = true := by
  intro x hx
  obtain ⟨e, -, rfl⟩ := List.mem_map.mp hx
  rfl

/-- A sequence whose own inputs are what is kept of `o` is itself what is kept of a sequence
whose own inputs are `o`. -/
theorem exists_whole {own : ε → Bool} {o : List (ε × Bool)} {l : List ε}
    (ho : ∀ e ∈ o, own e.1 = true) (h : l.filter own = kept o) :
    ∃ es : List (ε × Bool), es.filter (fun e => own e.1) = o ∧
      (∀ e ∈ es, own e.1 = false → e.2 = true) ∧ kept es = l := by
  induction o generalizing l with
  | nil =>
      have hnil := List.filter_eq_nil_iff.mp h
      exact ⟨l.map fun e => (e, true), filter_map_true hnil, fun x hx _ => flag_map_true x hx,
        kept_map_true l⟩
  | cons x o ih =>
      obtain ⟨e, b⟩ := x
      have ho' := fun e he => ho e (List.mem_cons_of_mem _ he)
      have he : own e = true := ho (e, b) List.mem_cons_self
      cases b with
      | false =>
          obtain ⟨es, hown, hothers, hkept⟩ := ih ho' h
          refine ⟨(e, false) :: es, by rw [filter_cons_own he, hown], ?_, hkept⟩
          intro x hx hx'
          rcases List.mem_cons.mp hx with rfl | hx
          · rw [he] at hx'
            cases hx'
          · exact hothers x hx hx'
      | true =>
          -- the inputs up to the next own one are not left out
          obtain ⟨l₁, l₂, rfl, hl₁, -, hl₂⟩ := List.filter_eq_cons_iff.mp h
          obtain ⟨es, hown, hothers, hkept⟩ := ih ho' hl₂
          refine ⟨l₁.map (fun e => (e, true)) ++ (e, true) :: es, ?_, ?_, ?_⟩
          · rw [List.filter_append, filter_map_true hl₁, List.nil_append, filter_cons_own he, hown]
          · intro x hx hx'
            rcases List.mem_append.mp hx with hx | hx
            · exact flag_map_true x hx
            · rcases List.mem_cons.mp hx with rfl | hx
              · rfl
              · exact hothers x hx hx'
          · rw [kept_append, kept_map_true, ← hkept]
            rfl

theorem exists_prefix {o : List (ε × Bool)} {l : List ε} (h : l <+: kept o) :
    ∃ o', o' <+: o ∧ kept o' = l := by
  induction o generalizing l with
  | nil => exact ⟨[], List.nil_prefix, (List.prefix_nil.mp h).symm⟩
  | cons x o ih =>
      obtain ⟨e, b⟩ := x
      cases b with
      | false =>
          obtain ⟨o', hpre, hkept⟩ := ih h
          exact ⟨(e, false) :: o', List.cons_prefix_cons.mpr ⟨rfl, hpre⟩, hkept⟩
      | true =>
          cases l with
          | nil => exact ⟨[], List.nil_prefix, rfl⟩
          | cons e' l =>
              obtain ⟨rfl, hrest⟩ := List.cons_prefix_cons.mp h
              obtain ⟨o', hpre, hkept⟩ := ih hrest
              refine ⟨(e', true) :: o', List.cons_prefix_cons.mpr ⟨rfl, hpre⟩, ?_⟩
              rw [← hkept]
              rfl

end Lists

/-! ## Machines -/

section Machine

variable (step : σ → ε → σ × Option ω)

def final (s : σ) (es : List ε) : σ := es.foldl (fun s e => (step s e).1) s

def answers : σ → List ε → List ω
  | _, [] => []
  | s, e :: es => (step s e).2.toList ++ answers (step s e).1 es

theorem answers_append (s : σ) (es es' : List ε) :
    answers step s (es ++ es') = answers step s es ++ answers step (final step s es) es' := by
  induction es generalizing s with
  | nil => rfl
  | cons e es ih =>
      rw [List.cons_append, answers, ih, answers, List.append_assoc]
      rfl

theorem final_append (s : σ) (es es' : List ε) :
    final step s (es ++ es') = final step (final step s es) es' := List.foldl_append

/-- No input tells states apart that `R` relates. -/
structure IsAlike (R : σ → σ → Prop) : Prop where
  refl : ∀ s, R s s
  trans : ∀ s s' s'', R s s' → R s' s'' → R s s''
  step : ∀ s s' e, R s s' → R (step s e).1 (step s' e).1 ∧ (step s e).2 = (step s' e).2

/-- The input may be left out in this state. -/
def Skips (R : σ → σ → Prop) (s : σ) (e : ε) : Prop := R (step s e).1 s ∧ (step s e).2 = none

variable {step} {R : σ → σ → Prop}

/-- Leaving out inputs that may be left out changes neither the end nor the answers. -/
theorem IsAlike.kept (hR : IsAlike step R) (s : σ) (es : List (ε × Bool))
    (h : ∀ p e q, es = p ++ (e, false) :: q → Skips step R (final step s (whole p)) e) :
    R (final step s (whole es)) (final step s (Lib.kept es)) ∧
      answers step s (whole es) = answers step s (Lib.kept es) := by
  induction es using List.reverseRecOn with
  | nil => exact ⟨hR.refl s, rfl⟩
  | append_singleton es x ih =>
      obtain ⟨hend, hanswers⟩ := ih fun p e q hes =>
        h p e (q ++ [x]) (by rw [hes, List.append_assoc, List.cons_append])
      obtain ⟨e, b⟩ := x
      rw [whole_append, kept_append, final_append, final_append, answers_append, answers_append,
        hanswers]
      cases b with
      | true =>
          obtain ⟨hnext, heq⟩ := hR.step _ _ e hend
          refine ⟨hnext, ?_⟩
          show _ ++ ((step _ e).2.toList ++ []) = _ ++ ((step _ e).2.toList ++ [])
          rw [heq]
      | false =>
          obtain ⟨hskip, hnone⟩ := h es e [] rfl
          refine ⟨hR.trans _ _ _ hskip hend, ?_⟩
          show _ ++ ((step _ e).2.toList ++ []) = _ ++ []
          rw [hnone]
          rfl

end Machine

end FeedBench.Lib
