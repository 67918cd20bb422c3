import Mathlib.Algebra.BigOperators.Fin
import Mathlib.Algebra.Order.BigOperators.Group.Finset
import Mathlib.Order.Bounds.Basic
import Mathlib.Order.MinMax
import Mathlib.Tactic.Order

/-!
# First arrivals

A table of `n` slots, each filled at most once, together with the number of filled slots
and the least value in them.  `Tally` is the law that ties the three together; filling an
empty slot keeps it.  `firstOf` reads the value such a slot ends up with off the sequence
that filled the table: the stamp of the first entry that belongs to the slot.
-/

namespace FeedBench.Lib

variable {T : Type*} {n : Nat}

/-! ## The first entry of a kind -/

/-- The stamp of the first entry that satisfies `p`. -/
def firstOf {E : Type*} (p : E → Bool) (stamp : E → T) (es : List E) : Option T :=
  (es.find? p).map stamp

section FirstOf

variable {E : Type*} {p : E → Bool} {stamp : E → T} {es es' : List E} {e : E} {t : T}

@[simp] theorem firstOf_nil : firstOf p stamp [] = none := rfl

theorem firstOf_singleton : firstOf p stamp [e] = if p e then some (stamp e) else none := by
  unfold firstOf
  rw [List.find?_singleton]
  split <;> rfl

theorem firstOf_append : firstOf p stamp (es ++ es') =
    (firstOf p stamp es).or (firstOf p stamp es') := by
  unfold firstOf
  rw [List.find?_append]
  cases es.find? p <;> rfl

theorem firstOf_snoc_of_neg (he : p e = false) :
    firstOf p stamp (es ++ [e]) = firstOf p stamp es := by
  rw [firstOf_append]
  simp [firstOf, he]

theorem firstOf_snoc_of_pos (he : p e = true) :
    firstOf p stamp (es ++ [e]) = (firstOf p stamp es).or (some (stamp e)) := by
  rw [firstOf_append]
  simp [firstOf, he]

theorem firstOf_isSome : (firstOf p stamp es).isSome ↔ ∃ e ∈ es, p e = true := by
  unfold firstOf
  rw [Option.isSome_map, List.find?_isSome]

theorem firstOf_eq_none (h : ∀ e ∈ es, p e = false) : firstOf p stamp es = none := by
  unfold firstOf
  rw [List.find?_eq_none.mpr, Option.map_none]
  intro e he
  rw [h e he]
  exact Bool.false_ne_true

theorem firstOf_of_prefix (h : es <+: es') (ht : firstOf p stamp es = some t) :
    firstOf p stamp es' = some t := by
  obtain ⟨after, rfl⟩ := h
  rw [firstOf_append, ht, Option.some_or]

/-- When stamps do not decrease, the first stamp is the least. -/
theorem firstOf_le [LE T] (hsorted : es.Pairwise fun e e' => stamp e ≤ stamp e')
    (hrefl : ∀ t : T, t ≤ t) (he : e ∈ es) (hp : p e = true)
    (ht : firstOf p stamp es = some t) : t ≤ stamp e := by
  obtain ⟨e', he', rfl⟩ := Option.map_eq_some_iff.mp ht
  obtain ⟨-, l, l', rfl, hl⟩ := List.find?_eq_some_iff_append.mp he'
  rcases List.mem_append.mp he with he | he
  · have := hl e he
    simp [hp] at this
  · rcases List.mem_cons.mp he with rfl | he
    · exact hrefl _
    · exact (List.pairwise_cons.mp (List.pairwise_append.mp hsorted).2.1).1 e he

theorem firstOf_filter {q : E → Bool} (h : ∀ e, p e = true → q e = true) :
    firstOf p stamp (es.filter q) = firstOf p stamp es := by
  unfold firstOf
  rw [List.find?_filter]
  congr 2
  funext e
  cases hp : p e with
  | false => simp
  | true => simp [h e hp]

theorem firstOf_congr {q : E → Bool} (h : ∀ e ∈ es, p e = q e) :
    firstOf p stamp es = firstOf q stamp es := by
  induction es with
  | nil => rfl
  | cons e es ih =>
      have hrest := ih fun e' he' => h e' (List.mem_cons_of_mem e he')
      unfold firstOf at hrest ⊢
      rw [List.find?_cons, List.find?_cons, h e List.mem_cons_self]
      split
      · rfl
      · exact hrest

theorem firstOf_of_unique (he : e ∈ es) (hp : p e = true)
    (h : ∀ e' ∈ es, p e' = true → e' = e) : firstOf p stamp es = some (stamp e) := by
  unfold firstOf
  obtain ⟨e', he'⟩ := Option.isSome_iff_exists.mp (List.find?_isSome.mpr ⟨e, he, hp⟩)
  have heq := h e' (List.mem_of_find?_eq_some he') (List.find?_some he')
  rw [he', heq, Option.map_some]

theorem firstOf_of_stamp (h : ∀ e ∈ es, stamp e = t) :
    firstOf p stamp es = if es.any p then some t else none := by
  induction es with
  | nil => rfl
  | cons e es ih =>
      have hrest := ih fun e' he' => h e' (List.mem_cons_of_mem e he')
      have he := h e List.mem_cons_self
      unfold firstOf at hrest ⊢
      rw [List.find?_cons, List.any_cons]
      cases hp : p e with
      | false => simpa using hrest
      | true => simp [he]

theorem firstOf_flatMap {F M : Type*} {q : F → Bool} {stamp' : F → T} {f : M → List E}
    {g : M → List F} {ms : List M}
    (h : ∀ m ∈ ms, firstOf p stamp (f m) = firstOf q stamp' (g m)) :
    firstOf p stamp (ms.flatMap f) = firstOf q stamp' (ms.flatMap g) := by
  induction ms with
  | nil => rfl
  | cons m ms ih =>
      rw [List.flatMap_cons, List.flatMap_cons, firstOf_append, firstOf_append,
        h m List.mem_cons_self, ih fun m' hm' => h m' (List.mem_cons_of_mem m hm')]

end FirstOf

/-! ## The table -/

def Present (arr : Vector (Option T) n) (t : T) : Prop := ∃ s : Fin n, arr.get s = some t

/-- `seen` counts the filled slots and `first` is the least value in them. -/
structure Tally [LE T] (arr : Vector (Option T) n) (seen : Nat) (first : T) : Prop where
  seen_eq : seen = arr.countP Option.isSome
  first_le : ∀ s : Fin n, ∀ t, arr.get s = some t → first ≤ t
  first_present : Present arr first

@[simp] theorem get_replicate {α : Type*} (a : α) (s : Fin n) :
    (Vector.replicate n a).get s = a := by
  show (Vector.replicate n a)[(s : Nat)] = a
  exact Vector.getElem_replicate s.isLt

theorem get_set {α : Type*} (v : Vector α n) (s s' : Fin n) (a : α) :
    (v.set s a s.isLt).get s' = if s = s' then a else v.get s' := by
  show (v.set s a s.isLt)[(s' : Nat)] = if s = s' then a else v[(s' : Nat)]
  rw [Vector.getElem_set]
  simp only [Fin.ext_iff]

@[simp] theorem get_ofFn {α : Type*} (f : Fin n → α) (s : Fin n) : (Vector.ofFn f).get s = f s := by
  show (Vector.ofFn f)[(s : Nat)] = f s
  rw [Vector.getElem_ofFn]

theorem ext_get {α : Type*} {v w : Vector α n} (h : ∀ s : Fin n, v.get s = w.get s) : v = w := by
  ext i hi
  exact h ⟨i, hi⟩

theorem rows_alike {R : Type*} {slots : R → Vector (Option T) n} {o o' : Option R}
    (hfilled : ∀ r, o = some r ∨ o' = some r → ∃ t, Present (slots r) t)
    (h : ∀ s, (o.bind fun r => (slots r).get s) = o'.bind fun r => (slots r).get s) :
    (o = none ∧ o' = none) ∨ ∃ r r', o = some r ∧ o' = some r' ∧ slots r = slots r' := by
  cases o with
  | none =>
      cases o' with
      | none => exact .inl ⟨rfl, rfl⟩
      | some r' =>
          obtain ⟨t, s, hs⟩ := hfilled r' (.inr rfl)
          have := (h s).trans hs
          cases this
  | some r =>
      cases o' with
      | none =>
          obtain ⟨t, s, hs⟩ := hfilled r (.inl rfl)
          have := (h s).symm.trans hs
          cases this
      | some r' => exact .inr ⟨r, r', rfl, rfl, ext_get h⟩

theorem countP_set_some {arr : Vector (Option T) n} {s : Fin n} (hs : arr.get s = none) (t : T) :
    (arr.set s (some t) s.isLt).countP Option.isSome = arr.countP Option.isSome + 1 := by
  have hs' : arr[(s : Nat)] = none := hs
  rw [Vector.countP_set s.isLt, hs']
  simp

theorem toList_eq_map {α : Type*} (v : Vector α n) : v.toList = (List.finRange n).map v.get := by
  have hofFn : Vector.ofFn v.get = v := ext_get fun s => get_ofFn v.get s
  rw [← List.ofFn_eq_map, ← Vector.toList_ofFn, hofFn]

theorem mem_values_iff {arr : Vector (Option T) n} {t : T} :
    t ∈ arr.toList.filterMap id ↔ Present arr t := by
  simp only [List.mem_filterMap, id, exists_eq_right, Present, Vector.mem_toList_iff,
    Vector.mem_iff_getElem]
  exact ⟨fun ⟨i, hi, h⟩ => ⟨⟨i, hi⟩, h⟩, fun ⟨s, h⟩ => ⟨s, s.isLt, h⟩⟩

/-- A table whose slots are the stamps of entries with different slots holds these stamps. -/
theorem perm_values {E : Type*} {arr : Vector (Option T) n}
    {slot : E → Fin n} {stamp : E → T} {es : List E} (hnodup : (es.map slot).Nodup)
    (h : ∀ s, arr.get s = firstOf (fun e => slot e = s) stamp es) :
    (es.map stamp).Perm (arr.toList.filterMap id) := by
  have hget : ∀ e ∈ es, arr.get (slot e) = some (stamp e) := by
    intro e he
    rw [h]
    apply firstOf_of_unique he (by simp)
    intro e' he' heq
    exact List.inj_on_of_nodup_map hnodup he' he (of_decide_eq_true heq)
  have hslots : (es.map slot).Perm ((List.finRange n).filter fun s => (arr.get s).isSome) := by
    apply (List.perm_ext_iff_of_nodup hnodup ((List.nodup_finRange n).filter _)).mpr
    intro s
    rw [List.mem_map, List.mem_filter, h, firstOf_isSome]
    simp
  have hleft : (es.map slot).filterMap arr.get = es.map stamp := by
    rw [List.filterMap_map, ← List.filterMap_eq_map]
    exact List.filterMap_congr hget
  have hright : ((List.finRange n).filter fun s => (arr.get s).isSome).filterMap arr.get =
      arr.toList.filterMap id := by
    rw [toList_eq_map, List.filterMap_map, List.filterMap_filter]
    apply List.filterMap_congr
    intro s _
    cases h : arr.get s <;> simp [h]
  rw [← hleft, ← hright]
  exact hslots.filterMap _

/-! ## Counting slots -/

theorem sum_toNat {α : Type*} (p : α → Bool) (l : List α) :
    (l.map fun x => (p x).toNat).sum = l.countP p := by
  induction l with
  | nil => rfl
  | cons x l ih =>
      rw [List.map_cons, List.sum_cons, ih, List.countP_cons]
      cases p x <;> simp [Nat.add_comm]

theorem countP_eq_sum {α : Type*} (p : α → Bool) (v : Vector α n) :
    v.countP p = ∑ s, (p (v.get s)).toNat := by
  calc v.countP p = v.toList.countP p := by rw [Vector.countP_toList]
    _ = ((List.finRange n).map fun s => (p (v.get s)).toNat).sum := by
        rw [toList_eq_map, List.countP_map, ← sum_toNat]
        rfl
    _ = ∑ s, (p (v.get s)).toNat := (Fin.sum_univ_def _).symm

theorem sum_toNat_le_one {p : Fin n → Bool} (h : ∀ s s', p s = true → p s' = true → s = s') :
    ∑ s, (p s).toNat ≤ 1 := by
  have hcard : ∑ s, (p s).toNat = (Finset.univ.filter fun s => p s = true).card := by
    rw [Finset.card_filter]
    refine Finset.sum_congr rfl fun s _ => ?_
    cases p s <;> rfl
  rw [hcard, Finset.card_le_one]
  intro s hs s' hs'
  exact h s s' (Finset.mem_filter.mp hs).2 (Finset.mem_filter.mp hs').2

theorem Tally.seen_eq_sum [LE T] {arr : Vector (Option T) n} {seen : Nat} {first : T}
    (h : Tally arr seen first) : seen = ∑ s, (arr.get s).isSome.toNat := by
  rw [h.seen_eq, countP_eq_sum]

theorem Tally.one_le_sum [LE T] [DecidableEq T] {arr : Vector (Option T) n} {seen : Nat}
    {first : T} (h : Tally arr seen first) :
    1 ≤ ∑ s, (decide (arr.get s = some first)).toNat := by
  obtain ⟨s, hs⟩ := h.first_present
  calc 1 = (decide (arr.get s = some first)).toNat := by simp [hs]
    _ ≤ ∑ s, (decide (arr.get s = some first)).toNat :=
        Finset.single_le_sum (f := fun s => (decide (arr.get s = some first)).toNat)
          (fun _ _ => Nat.zero_le _) (Finset.mem_univ s)

variable [LinearOrder T]

theorem Tally.start (s : Fin n) (t : T) :
    Tally ((Vector.replicate n none).set s (some t) s.isLt) 1 t where
  seen_eq := by
    rw [countP_set_some (by simp)]
    simp [Vector.countP_replicate]
  first_le s' t' h := by
    rw [get_set] at h
    split at h
    · exact (Option.some.inj h).le
    · simp at h
  first_present := ⟨s, by rw [get_set, if_pos rfl]⟩

theorem Tally.fill {arr : Vector (Option T) n} {seen : Nat} {first : T}
    (h : Tally arr seen first) {s : Fin n} (hs : arr.get s = none) (t : T) :
    Tally (arr.set s (some t) s.isLt) (seen + 1) (if t < first then t else first) where
  seen_eq := by rw [countP_set_some hs, ← h.seen_eq]
  first_le s' t' h' := by
    rw [get_set] at h'
    split at h'
    · have : t = t' := Option.some.inj h'
      split <;> order
    · have := h.first_le s' t' h'
      split <;> order
  first_present := by
    by_cases hlt : t < first
    · exact ⟨s, by rw [get_set, if_pos rfl, if_pos hlt]⟩
    · obtain ⟨s', hs'⟩ := h.first_present
      refine ⟨s', ?_⟩
      have hne : s ≠ s' := by
        rintro rfl
        simp [hs] at hs'
      rw [get_set, if_neg hne, if_neg hlt, hs']

theorem Tally.unique {arr : Vector (Option T) n} {seen seen' : Nat} {first first' : T}
    (h : Tally arr seen first) (h' : Tally arr seen' first') :
    seen = seen' ∧ first = first' := by
  refine ⟨h.seen_eq.trans h'.seen_eq.symm, le_antisymm ?_ ?_⟩
  · obtain ⟨s, hs⟩ := h'.first_present
    exact h.first_le s _ hs
  · obtain ⟨s, hs⟩ := h.first_present
    exact h'.first_le s _ hs

/-- The least value, as it is read off the slots. -/
theorem Tally.first_eq {arr : Vector (Option T) n} {seen : Nat} {first t₀ : T}
    (h : Tally arr seen first) : first = ((arr.toList.filterMap id).min?).getD t₀ := by
  have : Std.LawfulOrderMin T :=
    { min_eq_or := min_choice, le_min_iff := fun _ _ _ => le_min_iff }
  have hmin : (arr.toList.filterMap id).min? = some first := by
    apply List.min?_eq_some_iff.mpr
    refine ⟨mem_values_iff.mpr h.first_present, fun t ht => ?_⟩
    obtain ⟨s, hs⟩ := mem_values_iff.mp ht
    exact h.first_le s t hs
  rw [hmin, Option.getD_some]

theorem isGreatest_max? {arr : Vector (Option T) n} {t₀ : T} (h : ∃ t, Present arr t) :
    IsGreatest {t | Present arr t} (((arr.toList.filterMap id).max?).getD t₀) := by
  have : Std.LawfulOrderMax T := { max_eq_or := max_choice, max_le_iff := fun _ _ _ => max_le_iff }
  obtain ⟨t, ht⟩ := h
  cases hm : (arr.toList.filterMap id).max? with
  | none =>
      rw [List.max?_eq_none_iff] at hm
      exact absurd (mem_values_iff.mpr ht) (by rw [hm]; exact List.not_mem_nil)
  | some m =>
      obtain ⟨hm₁, hm₂⟩ := List.max?_eq_some_iff.mp hm
      exact ⟨mem_values_iff.mp hm₁, fun t' ht' => hm₂ t' (mem_values_iff.mpr ht')⟩

end FeedBench.Lib
