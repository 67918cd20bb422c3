import Mathlib.Data.List.Basic
import Mathlib.Data.List.Induction

/-!
# Interleavings

Two lists are interleavings of the same streams when every stream, read off by its index,
is the same in both.  Three kinds of component of a fold are independent of the
interleaving:

* a *view* that one stream alone drives (`foldl_view`);
* a *register* that is only ever overwritten by a reported value and never cleared, when
  all reported values agree (`register_foldl`, `Reported.unique`);
* a *flag* that reports are or-ed into (`flag_foldl`).
-/

namespace FeedBench.Lib

variable {ε ι σ υ α : Type*}

/-! ## Same streams -/

/-- Every stream of `es` is the stream of `es'` with the same index. -/
def SameStreams [DecidableEq ι] (index : ε → ι) (es es' : List ε) : Prop :=
  ∀ i, es.filter (fun e => index e = i) = es'.filter (fun e => index e = i)

namespace SameStreams

variable [DecidableEq ι] {index : ε → ι} {es es' : List ε}

theorem symm (h : SameStreams index es es') : SameStreams index es' es := fun i => (h i).symm

theorem subset (h : SameStreams index es es') {e : ε} (he : e ∈ es) : e ∈ es' := by
  have hmem : e ∈ es.filter (fun e' => index e' = index e) := by simp [he]
  rw [h] at hmem
  exact List.mem_of_mem_filter hmem

theorem mem_iff (h : SameStreams index es es') (e : ε) : e ∈ es ↔ e ∈ es' :=
  ⟨h.subset, h.symm.subset⟩

theorem any_eq (h : SameStreams index es es') (p : ε → Bool) : es.any p = es'.any p := by
  rw [Bool.eq_iff_iff, List.any_eq_true, List.any_eq_true]
  constructor
  · rintro ⟨e, he, hp⟩
    exact ⟨e, h.subset he, hp⟩
  · rintro ⟨e, he, hp⟩
    exact ⟨e, h.symm.subset he, hp⟩

end SameStreams

/-! ## Views -/

/-- A view that only the events of `own` move is the fold over these events. -/
theorem foldl_view {step : σ → ε → σ} (view : σ → υ) {move : υ → ε → υ} {own : ε → Bool}
    (h : ∀ c e, view (step c e) = if own e then move (view c) e else view c)
    (c : σ) (es : List ε) :
    view (es.foldl step c) = (es.filter own).foldl move (view c) := by
  induction es generalizing c with
  | nil => rfl
  | cons e es ih =>
      rw [List.foldl_cons, ih, h, List.filter_cons]
      split <;> rfl

/-! ## Registers -/

structure Reported (P : α → Prop) (o : Option α) : Prop where
  sound : ∀ v, o = some v → P v
  complete : ∀ v, P v → o.isSome

theorem Reported.unique {P P' : α → Prop} {o o' : Option α} (h : Reported P o)
    (h' : Reported P' o') (hP : ∀ v, P v ↔ P' v) (hu : ∀ v w, P v → P w → v = w) : o = o' := by
  cases o with
  | none =>
      cases o' with
      | none => rfl
      | some v => exact absurd (h.complete v ((hP v).mpr (h'.sound v rfl))) (by simp)
  | some v =>
      have hv := h.sound v rfl
      obtain ⟨w, rfl⟩ := Option.isSome_iff_exists.mp (h'.complete v ((hP v).mp hv))
      rw [hu v w hv ((hP w).mpr (h'.sound w rfl))]

/-- While the invariant `I` holds, one event leaves a register alone or writes what it
reports, and a report never finds the register empty afterwards. -/
def IsRegister (I : σ → Prop) (step : σ → ε → σ) (get : σ → Option α)
    (report : ε → Option α) : Prop :=
  ∀ c e, I c → (get (step c e) = get c ∧ ((report e).isSome → (get c).isSome)) ∨
    ((report e).isSome ∧ get (step c e) = report e)

section Folds

variable {I : σ → Prop} {step : σ → ε → σ}

theorem invariant_foldl (hI : ∀ c e, I c → I (step c e)) {c : σ} (hc : I c) (es : List ε) :
    I (es.foldl step c) := by
  induction es generalizing c with
  | nil => exact hc
  | cons e es ih => exact ih (hI c e hc)

theorem isRegister_of_or {get : σ → Option α} {report : ε → Option α}
    (h : ∀ c e, get (step c e) = (get c).or (report e)) : IsRegister I step get report := by
  intro c e _
  rw [h]
  cases hc : get c with
  | some v => exact .inl ⟨by simp, fun _ => rfl⟩
  | none =>
      cases hr : report e with
      | some w => exact .inr ⟨rfl, by simp⟩
      | none => exact .inl ⟨rfl, fun h => h⟩

theorem register_foldl (hI : ∀ c e, I c → I (step c e)) {get : σ → Option α}
    {report : ε → Option α} (h : IsRegister I step get report) {c : σ} (hc : I c)
    (hnone : get c = none) (es : List ε) :
    Reported (fun v => ∃ e ∈ es, report e = some v) (get (es.foldl step c)) := by
  induction es using List.reverseRecOn with
  | nil => exact ⟨fun v hv => by simp [hnone] at hv, fun v hv => by simp at hv⟩
  | append_singleton es e ih =>
      rw [List.foldl_append, List.foldl_cons, List.foldl_nil]
      obtain ⟨heq, hfull⟩ | ⟨hsome, heq⟩ := h (es.foldl step c) e (invariant_foldl hI hc es)
      · rw [heq]
        constructor
        · intro v hv
          obtain ⟨e', he', hr⟩ := ih.sound v hv
          exact ⟨e', List.mem_append_left _ he', hr⟩
        · intro v hv
          obtain ⟨e', he', hr⟩ := hv
          rcases List.mem_append.mp he' with he' | he'
          · exact ih.complete v ⟨e', he', hr⟩
          · rw [List.mem_singleton.mp he'] at hr
            exact hfull (by rw [hr]; rfl)
      · rw [heq]
        exact ⟨fun v hv => ⟨e, by simp, hv⟩, fun _ _ => hsome⟩

/-! ## Flags -/

theorem flag_foldl (hI : ∀ c e, I c → I (step c e)) (get : σ → Bool) {report : ε → Bool}
    (h : ∀ c e, I c → get (step c e) = (get c || report e)) {c : σ} (hc : I c) (es : List ε) :
    get (es.foldl step c) = (get c || es.any report) := by
  induction es generalizing c with
  | nil => simp
  | cons e es ih => rw [List.foldl_cons, ih (hI c e hc), h c e hc, List.any_cons, Bool.or_assoc]

end Folds

end FeedBench.Lib
