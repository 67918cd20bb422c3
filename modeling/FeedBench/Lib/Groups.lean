import FeedBench.Lib.Interleave
import Mathlib.Data.List.AList
import Mathlib.Algebra.BigOperators.Fin

/-!
# Grouping by a key

A hash map that is filled by one pass over a list, each element updating the entry of its
own key.  What the map ends up holding under a key is the fold over the elements of that
key, and a measure that every update raises by one adds up to the length of the list.
-/

namespace FeedBench.Lib

universe u v

variable {κ : Type u} [DecidableEq κ] {β : Type v} {ε : Type*}

/-- Update the value of `k` in place, after putting in `init` if there is none. -/
def upsert (k : κ) (init : β) (f : β → β) (m : AList fun _ : κ => β) :
    AList fun _ : κ => β :=
  m.insert k (f ((m.lookup k).getD init))

theorem lookup_upsert (k k' : κ) (init : β) (f : β → β) (m : AList fun _ : κ => β) :
    (upsert k init f m).lookup k' =
      if k = k' then some (f ((m.lookup k').getD init)) else m.lookup k' := by
  unfold upsert
  by_cases h : k = k'
  · subst h
    rw [if_pos rfl, AList.lookup_insert]
  · rw [if_neg h, AList.lookup_insert_ne (Ne.symm h)]

def group (key : ε → κ) (init : β) (f : ε → β → β) (es : List ε) : AList fun _ : κ => β :=
  es.foldl (fun m e => upsert (key e) init (f e) m) ∅

section Group

variable (key : ε → κ) (init : β) (f : ε → β → β) (es : List ε)

theorem group_snoc (e : ε) : group key init f (es ++ [e]) =
    upsert (key e) init (f e) (group key init f es) := by
  unfold group
  rw [List.foldl_append, List.foldl_cons, List.foldl_nil]

/-- The entry of a key folds the elements of that key. -/
theorem lookup_group (k : κ) : (group key init f es).lookup k =
    if es.any (fun e => key e = k) then
      some ((es.filter fun e => key e = k).foldl (fun b e => f e b) init)
    else none := by
  induction es using List.reverseRecOn with
  | nil => rfl
  | append_singleton es e ih =>
      rw [group_snoc, lookup_upsert, ih, List.filter_append, List.any_append]
      by_cases he : key e = k
      · rw [if_pos he, List.foldl_append]
        by_cases hany : es.any (fun e => key e = k)
        · simp [he, hany]
        · have hnil : es.filter (fun e => key e = k) = [] := by
            simpa using hany
          simp [he, hany, hnil]
      · simp [he]

/-- Updates that commute may come in any order. -/
theorem lookup_group_perm {es' : List ε} (hcomm : ∀ e e' b, f e (f e' b) = f e' (f e b))
    (h : es.Perm es') (k : κ) :
    (group key init f es).lookup k = (group key init f es').lookup k := by
  have hany : es.any (fun e => key e = k) = es'.any fun e => key e = k := by
    rw [Bool.eq_iff_iff, List.any_eq_true, List.any_eq_true]
    simp only [h.mem_iff]
  have hfold := (h.filter fun e => key e = k).foldl_eq' (f := fun b e => f e b)
    (fun e _ e' _ b => hcomm e' e b) init
  rw [lookup_group, lookup_group, hany, hfold]

theorem lookup_group_collect {α : Type v} (g : ε → α) (k : κ) :
    (group key [] (fun e v => v ++ [g e]) es).lookup k =
      if es.any (fun e => key e = k) then some ((es.filter fun e => key e = k).map g)
      else none := by
  have hfold : ∀ (l : List ε) (before : List α),
      l.foldl (fun v e => v ++ [g e]) before = before ++ l.map g := by
    intro l
    induction l with
    | nil => simp
    | cons e l ih => simp [ih]
  rw [lookup_group, hfold, List.nil_append]

end Group

/-- Tables that hold the same have the same entries, in some order. -/
theorem entries_perm_of_lookup {m m' : AList fun _ : κ => β}
    (h : ∀ k, m.lookup k = m'.lookup k) : m.entries.Perm m'.entries := by
  apply List.lookup_ext m.nodupKeys m'.nodupKeys
  intro k v
  show v ∈ m.lookup k ↔ v ∈ m'.lookup k
  rw [h]

/-- What the entries of a table show, when it follows from their keys. -/
theorem entries_map_perm {γ : Type*} (view : κ → β → γ) {m : AList fun _ : κ => β}
    {ks : List κ} (hks : ks.Nodup) (hmem : ∀ k, k ∈ m ↔ k ∈ ks) {f : κ → γ}
    (hview : ∀ k v, m.lookup k = some v → view k v = f k) :
    (m.entries.map fun e => view e.1 e.2).Perm (ks.map f) := by
  have hkeys : m.keys.Perm ks := (List.perm_ext_iff_of_nodup m.keys_nodup hks).mpr hmem
  have hentries : (m.entries.map fun e => view e.1 e.2) = m.keys.map f := by
    show _ = (m.entries.map Sigma.fst).map f
    rw [List.map_map]
    apply List.map_congr_left
    intro e he
    exact hview e.1 e.2 (AList.mem_lookup_iff.mpr he)
  rw [hentries]
  exact hkeys.map f

/-! ## Adding up a measure -/

theorem foldl_count {σ : Type*} (view : σ → Nat) {step : σ → ε → σ} {p : ε → Bool}
    (h : ∀ c e, view (step c e) = view c + (p e).toNat) (c : σ) (es : List ε) :
    view (es.foldl step c) = view c + es.countP p := by
  induction es generalizing c with
  | nil => rfl
  | cons e es ih =>
      rw [List.foldl_cons, ih, h, List.countP_cons, Nat.add_assoc]
      cases p e <;> simp [Nat.add_comm]

theorem foldl_appends {σ α : Type*} (view : σ → List α) {step : σ → ε → σ} {f : ε → List α}
    (h : ∀ c e, view (step c e) = view c ++ f e) (c : σ) (es : List ε) :
    view (es.foldl step c) = view c ++ es.flatMap f := by
  induction es generalizing c with
  | nil => simp
  | cons e es ih => rw [List.foldl_cons, ih, h, List.flatMap_cons, List.append_assoc]

theorem sum_kerase (μ : β → Nat) {init : β} (hinit : μ init = 0) (k : κ)
    (l : List (Sigma fun _ : κ => β)) :
    (l.map fun e => μ e.2).sum =
      μ ((l.dlookup k).getD init) + ((l.kerase k).map fun e => μ e.2).sum := by
  induction l with
  | nil => simp [hinit]
  | cons e l ih =>
      obtain ⟨k', b⟩ := e
      by_cases hk : k = k'
      · subst hk
        simp
      · rw [List.dlookup_cons_ne _ _ hk, List.kerase_cons_ne hk, List.map_cons, List.map_cons,
          List.sum_cons, List.sum_cons, ih]
        omega

theorem sum_upsert (μ : β → Nat) {init : β} (hinit : μ init = 0) {f : β → β}
    (hf : ∀ b, μ (f b) = μ b + 1) (k : κ) (m : AList fun _ : κ => β) :
    ((upsert k init f m).entries.map fun e => μ e.2).sum =
      (m.entries.map fun e => μ e.2).sum + 1 := by
  rw [upsert, AList.entries_insert, List.map_cons, List.sum_cons, hf,
    sum_kerase μ hinit k m.entries]
  show μ ((m.entries.dlookup k).getD init) + 1 + _ = _
  omega

theorem sum_group (μ : β → Nat) {init : β} (hinit : μ init = 0) {f : ε → β → β}
    (hf : ∀ e b, μ (f e b) = μ b + 1) (key : ε → κ) (es : List ε) :
    ((group key init f es).entries.map fun e => μ e.2).sum = es.length := by
  induction es using List.reverseRecOn with
  | nil => rfl
  | append_singleton es e ih =>
      rw [group_snoc, sum_upsert μ hinit (hf e), ih, List.length_append, List.length_singleton]

/-! ## Classes -/

section Classes

variable {α : Type*} {cls : α → Option Nat} {m : Nat}

theorem sum_range_list (f : Nat → Nat) : ((List.range m).map f).sum = ∑ b ∈ Finset.range m, f b :=
  rfl

/-- The members of the classes below `m` are all that have a class. -/
theorem sum_class_length (hlt : ∀ x b, cls x = some b → b < m) (l : List α) :
    ((List.range m).map fun b => (l.filter fun x => cls x = some b).length).sum =
      (l.filter fun x => (cls x).isSome).length := by
  rw [sum_range_list]
  induction l with
  | nil => simp
  | cons x l ih =>
      have hone : ∑ b ∈ Finset.range m, (decide (cls x = some b)).toNat =
          (cls x).isSome.toNat := by
        cases hx : cls x with
        | none => simp
        | some b₀ =>
            rw [Finset.sum_eq_single b₀]
            · simp
            · intro b _ hne
              simp [hne.symm]
            · intro hb
              exact absurd (Finset.mem_range.mpr (hlt x b₀ hx)) hb
      have hcons : ∀ p : α → Bool, ((x :: l).filter p).length =
          (l.filter p).length + (p x).toNat := by
        intro p
        rw [List.filter_cons]
        cases p x <;> simp
      simp only [hcons, Finset.sum_add_distrib, ih, hone]

/-- Where a key has one class, the keys of the classes are all keys, each counted once. -/
theorem sum_class_keys {key : α → Option κ} {l : List α}
    (hlt : ∀ x b, cls x = some b → b < m)
    (hone : ∀ x ∈ l, ∀ y ∈ l, ∀ k b b', key x = some k → key y = some k → cls x = some b →
      cls y = some b' → b = b') :
    ((List.range m).map fun b =>
      ((l.filter fun x => cls x = some b).filterMap key).dedup.length).sum =
      ((l.filter fun x => (cls x).isSome).filterMap key).dedup.length := by
  have hmem : ∀ b k, k ∈ ((l.filter fun x => cls x = some b).filterMap key).toFinset ↔
      ∃ x ∈ l, cls x = some b ∧ key x = some k := by
    intro b k
    simp only [List.mem_toFinset, List.mem_filterMap, List.mem_filter, decide_eq_true_eq,
      and_assoc]
  have hunion : ((l.filter fun x => (cls x).isSome).filterMap key).toFinset =
      (Finset.range m).biUnion fun b =>
        ((l.filter fun x => cls x = some b).filterMap key).toFinset := by
    ext k
    simp only [Finset.mem_biUnion, hmem, List.mem_toFinset, List.mem_filterMap, List.mem_filter]
    constructor
    · rintro ⟨x, ⟨hx, hcls⟩, hk⟩
      obtain ⟨b, hb⟩ := Option.isSome_iff_exists.mp hcls
      exact ⟨b, Finset.mem_range.mpr (hlt x b hb), x, hx, hb, hk⟩
    · rintro ⟨b, -, x, hx, hb, hk⟩
      exact ⟨x, ⟨hx, by rw [hb]; rfl⟩, hk⟩
  rw [sum_range_list, ← List.card_toFinset, hunion, Finset.card_biUnion]
  · simp only [List.card_toFinset]
  · intro b _ b' _ hne
    apply Finset.disjoint_left.mpr
    intro k hk hk'
    obtain ⟨x, hx, hb, hkx⟩ := (hmem b k).mp hk
    obtain ⟨y, hy, hb', hky⟩ := (hmem b' k).mp hk'
    exact hne (hone x hx y hy k b b' hkx hky hb hb')

end Classes

end FeedBench.Lib
