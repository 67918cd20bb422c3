import Mathlib.Algebra.GroupWithZero.Nat
import Mathlib.Data.Finset.Card
import Mathlib.Order.Bounds.Basic
import Mathlib.Order.Interval.Finset.Nat

/-!
# Stretches of a level

A Boolean level is read before each of a sequence of stamped steps and after the last one.
`rises` lists the steps that raise it, `fall` is the step that ends the stretch begun at a
rise, and `stretches` lists the maximal stretches with the level up by the stamps of these
two steps.

The first part says how the list grows with one more step, the second what it covers when
the stamps do not decrease, and the last adds up the lengths of disjoint intervals.
-/

namespace FeedBench.Lib

/-! ## One more step -/

section Level

variable {T : Type*} (up : Nat → Bool)

def rises (m : Nat) : List Nat := (List.range m).filter fun i => !up i && up (i + 1)

def fall (m i : Nat) : Option Nat :=
  (List.range m).find? fun j => decide (i < j) && !up (j + 1)

/-- The maximal stretches within the first `m` steps, oldest first.  A stretch without an
end is still going on. -/
def stretches (stamp : Nat → T) (m : Nat) : List (T × Option T) :=
  (rises up m).map fun i => (stamp i, (fall up m i).map stamp)

variable {up} {stamp : Nat → T} {m i j : Nat}

theorem mem_rises : i ∈ rises up m ↔ i < m ∧ up i = false ∧ up (i + 1) = true := by
  simp [rises]

theorem rises_sorted : (rises up m).Pairwise (· < ·) :=
  List.pairwise_lt_range.filter _

theorem rises_succ :
    rises up (m + 1) = rises up m ++ if !up m && up (m + 1) then [m] else [] := by
  unfold rises
  rw [List.range_succ, List.filter_append, List.filter_cons, List.filter_nil]

theorem fall_succ :
    fall up (m + 1) i =
      (fall up m i).or (if decide (i < m) && !up (m + 1) then some m else none) := by
  unfold fall
  rw [List.range_succ, List.find?_append, List.find?_singleton]

theorem fall_eq_none : fall up m i = none ↔ ∀ j, i < j → j < m → up (j + 1) = true := by
  unfold fall
  rw [List.find?_eq_none]
  constructor
  · intro h j hij hjm
    have := h j (List.mem_range.mpr hjm)
    simpa [hij] using this
  · intro h j hj
    have hjm := List.mem_range.mp hj
    by_cases hij : i < j
    · simp [h j hij hjm]
    · simp [hij]

theorem fall_eq_some (h : fall up m i = some j) : i < j ∧ j < m ∧ up (j + 1) = false := by
  have hmem := List.mem_range.mp (List.mem_of_find?_eq_some h)
  have hp := List.find?_some h
  simp only [Bool.and_eq_true, decide_eq_true_eq, Bool.not_eq_true'] at hp
  exact ⟨hp.1, hmem, hp.2⟩

theorem up_of_lt_fall (hi : up (i + 1) = true) (h : ∀ k, fall up m i = some k → j ≤ k)
    (hij : i < j) (hjm : j ≤ m) : up j = true := by
  by_cases heq : j = i + 1
  · rw [heq, hi]
  · cases hf : fall up m i with
    | none =>
        have := fall_eq_none.mp hf (j - 1) (by omega) (by omega)
        rwa [Nat.sub_add_cancel (by omega)] at this
    | some k =>
        have hk := h k hf
        have hfirst := (List.find?_range_eq_some.mp hf).2.2 (j - 1) (by omega)
        have hlt : i < j - 1 := by omega
        simpa [hlt, Nat.sub_add_cancel (show 1 ≤ j by omega)] using hfirst

theorem fall_isSome (hm : up m = false) (hi : i ∈ rises up m) : (fall up m i).isSome := by
  obtain ⟨him, -, hi⟩ := mem_rises.mp hi
  cases hf : fall up m i with
  | some j => rfl
  | none =>
      have := up_of_lt_fall hi (fun k hk => by simp [hf] at hk) him le_rfl
      rw [hm] at this
      cases this

theorem last_rise (h₀ : up 0 = false) (hm : up m = true) :
    ∃ l i, rises up m = l ++ [i] ∧ fall up m i = none ∧ ∀ k ∈ l, (fall up m k).isSome := by
  induction m with
  | zero => rw [h₀] at hm; cases hm
  | succ m ih =>
      cases hup : up m with
      | false =>
          refine ⟨rises up m, m, ?_, ?_, ?_⟩
          · rw [rises_succ, hup, hm]
            rfl
          · exact fall_eq_none.mpr fun j hj hj' => by omega
          · intro k hk
            rw [fall_succ, Option.isSome_or, fall_isSome hup hk]
            rfl
      | true =>
          obtain ⟨l, i, hl, hi, hclosed⟩ := ih hup
          refine ⟨l, i, ?_, ?_, ?_⟩
          · rw [rises_succ, hup, hl]
            simp
          · rw [fall_succ, hi, hm]
            simp
          · intro k hk
            rw [fall_succ, Option.isSome_or, hclosed k hk]
            rfl

theorem stretches_rise (hm : up m = false) (hm' : up (m + 1) = true) :
    stretches up stamp (m + 1) = stretches up stamp m ++ [(stamp m, none)] := by
  have hlast : fall up (m + 1) m = none := fall_eq_none.mpr fun j hj hj' => by omega
  have hrises : rises up (m + 1) = rises up m ++ [m] := by
    rw [rises_succ, hm, hm']
    rfl
  -- the stretches before it are over, and stay as they are
  have hold : ∀ k ∈ rises up m, fall up (m + 1) k = fall up m k := by
    intro k hk
    obtain ⟨j, hj⟩ := Option.isSome_iff_exists.mp (fall_isSome hm hk)
    rw [fall_succ, hj, Option.some_or]
  unfold stretches
  rw [hrises, List.map_append, List.map_singleton, hlast, Option.map_none]
  congr 1
  apply List.map_congr_left
  intro k hk
  rw [hold k hk]

theorem stretches_fall (h₀ : up 0 = false) (hm : up m = true) (hm' : up (m + 1) = false) :
    ∃ l a, stretches up stamp m = l ++ [(a, none)] ∧
      stretches up stamp (m + 1) = l ++ [(a, some (stamp m))] := by
  obtain ⟨l, i, hl, hi, hclosed⟩ := last_rise h₀ hm
  refine ⟨l.map fun k => (stamp k, (fall up m k).map stamp), stamp i, ?_, ?_⟩
  · unfold stretches
    rw [hl, List.map_append, List.map_singleton, hi, Option.map_none]
  · unfold stretches
    have him : i < m := (mem_rises.mp (by rw [hl]; simp)).1
    have hlast : fall up (m + 1) i = some m := by
      rw [fall_succ, hi, hm']
      simp [him]
    rw [rises_succ, hm, hl]
    simp only [Bool.not_true, Bool.false_and, Bool.false_eq_true, if_false, List.append_nil,
      List.map_append, List.map_singleton, hlast, Option.map_some]
    congr 1
    apply List.map_congr_left
    intro k hk
    obtain ⟨j, hj⟩ := Option.isSome_iff_exists.mp (hclosed k hk)
    rw [fall_succ, hj, Option.some_or]

theorem stretches_same (h : up (m + 1) = up m) :
    stretches up stamp (m + 1) = stretches up stamp m := by
  unfold stretches
  have hrises : rises up (m + 1) = rises up m := by
    rw [rises_succ, h]
    cases up m <;> simp
  rw [hrises]
  apply List.map_congr_left
  intro k hk
  cases hup : up m with
  | true =>
      rw [fall_succ, h, hup]
      simp
  | false =>
      obtain ⟨j, hj⟩ := Option.isSome_iff_exists.mp (fall_isSome hup hk)
      rw [fall_succ, hj, Option.some_or]

theorem stretches_open (h₀ : up 0 = false) (hm : up m = true) :
    ∃ l a, stretches up stamp m = l ++ [(a, none)] ∧ ∀ p ∈ l, p.2.isSome := by
  obtain ⟨l, i, hl, hi, hclosed⟩ := last_rise h₀ hm
  refine ⟨l.map fun k => (stamp k, (fall up m k).map stamp), stamp i, ?_, ?_⟩
  · unfold stretches
    rw [hl, List.map_append, List.map_singleton, hi, Option.map_none]
  · intro p hp
    obtain ⟨k, hk, rfl⟩ := List.mem_map.mp hp
    rw [Option.isSome_map]
    exact hclosed k hk

theorem stretches_closed (hm : up m = false) :
    ∀ p ∈ stretches up stamp m, p.2.isSome := by
  intro p hp
  unfold stretches at hp
  obtain ⟨i, hi, rfl⟩ := List.mem_map.mp hp
  rw [Option.isSome_map]
  exact fall_isSome hm hi

end Level

/-! ## What the stretches cover -/

section Cover

variable {up : Nat → Bool} {stamp : Nat → Nat} {m k t w : Nat}

/-- With stamps in order, each stretch ends before the next one begins. -/
theorem stretches_pairwise (hstamp : ∀ i j, i ≤ j → j < m → stamp i ≤ stamp j) :
    (stretches up stamp m).Pairwise fun p q => ∃ b, p.2 = some b ∧ b ≤ q.1 := by
  unfold stretches
  rw [List.pairwise_map]
  apply rises_sorted.imp_of_mem
  intro i i' hi hi' hlt
  obtain ⟨him, -, hi⟩ := mem_rises.mp hi
  obtain ⟨him', hi', -⟩ := mem_rises.mp hi'
  cases hf : fall up m i with
  | none =>
      have := up_of_lt_fall hi (fun k hk => by simp [hf] at hk) hlt him'.le
      rw [hi'] at this
      cases this
  | some j =>
      refine ⟨stamp j, rfl, ?_⟩
      have hji : j < i' := by
        by_contra hle
        have := up_of_lt_fall hi (j := i') (fun k hk => by
          rw [hf] at hk
          cases hk
          omega) hlt him'.le
        rw [hi'] at this
        cases this
      exact hstamp j i' hji.le him'

/-- An instant is covered, `w` after the start of a stretch, exactly when the level is up
after the steps stamped by then and the last of them to raise it lies `w` back. -/
theorem stretches_cover (h₀ : up 0 = false) (hkm : k ≤ m)
    (hk : ∀ i, i < m → (stamp i ≤ t ↔ i < k)) :
    (∃ p ∈ stretches up stamp m, p.1 + w ≤ t ∧ ∀ b, p.2 = some b → t < b) ↔
      up k = true ∧ ∃ i, IsGreatest {i | i ∈ rises up k} i ∧ stamp i + w ≤ t := by
  constructor
  · intro h
    obtain ⟨p, hp, hw, hb⟩ := h
    unfold stretches at hp
    obtain ⟨i, hi, rfl⟩ := List.mem_map.mp hp
    obtain ⟨him, hdown, hup⟩ := mem_rises.mp hi
    dsimp only at hw hb
    have hik : i < k := (hk i him).mp (by omega)
    have hend : ∀ j, fall up m i = some j → k ≤ j := by
      intro j hj
      have hlt := hb (stamp j) (by rw [hj]; rfl)
      have hjm := (fall_eq_some hj).2.1
      have := hk j hjm
      omega
    refine ⟨up_of_lt_fall hup hend hik hkm, i, ⟨?_, ?_⟩, hw⟩
    · exact mem_rises.mpr ⟨hik, hdown, hup⟩
    · intro i' hi'
      obtain ⟨hik', hdown', -⟩ := mem_rises.mp hi'
      by_contra hlt
      have := up_of_lt_fall hup (fun j hj => hik'.le.trans (hend j hj)) (by omega)
        (hik'.le.trans hkm)
      rw [hdown'] at this
      cases this
  · intro h
    obtain ⟨hup, i, hi, hw⟩ := h
    obtain ⟨l, i₀, hl, hf, -⟩ := last_rise h₀ hup
    have hi₀ : i₀ ∈ rises up k := by rw [hl]; simp
    have hlast : i = i₀ := by
      have hle : i₀ ≤ i := hi.2 hi₀
      have hmem : i ∈ l ++ [i₀] := by rw [← hl]; exact hi.1
      rcases List.mem_append.mp hmem with hmem | hmem
      · have hsorted : (l ++ [i₀]).Pairwise (· < ·) := by rw [← hl]; exact rises_sorted
        have := (List.pairwise_append.mp hsorted).2.2 i hmem i₀ (by simp)
        omega
      · exact List.mem_singleton.mp hmem
    rw [← hlast] at hf
    obtain ⟨hik, hdown, hrise⟩ := mem_rises.mp hi.1
    refine ⟨(stamp i, (fall up m i).map stamp), ?_, hw, ?_⟩
    · exact List.mem_map.mpr ⟨i, mem_rises.mpr ⟨by omega, hdown, hrise⟩, rfl⟩
    · intro b hb
      obtain ⟨j, hj, rfl⟩ := Option.map_eq_some_iff.mp hb
      obtain ⟨hij, hjm, hfall⟩ := fall_eq_some hj
      have hjk : ¬j < k := by
        intro hjk
        rw [fall_eq_none.mp hf j hij hjk] at hfall
        cases hfall
      have := hk j hjm
      omega

end Cover

/-! ## Lengths -/

/-- Disjoint intervals cover as many instants as their lengths add up to. -/
theorem card_intervals (l : List (Nat × Nat)) (N : Nat)
    (hdisj : l.Pairwise fun p q => p.2 ≤ q.1) (hN : ∀ p ∈ l, p.2 ≤ N) :
    ((Finset.range N).filter fun t => ∃ p ∈ l, p.1 ≤ t ∧ t < p.2).card =
      (l.map fun p => p.2 - p.1).sum := by
  induction l with
  | nil => simp
  | cons p l ih =>
      obtain ⟨hhead, htail⟩ := List.pairwise_cons.mp hdisj
      have hsplit : ((Finset.range N).filter fun t => ∃ q ∈ p :: l, q.1 ≤ t ∧ t < q.2) =
          Finset.Ico p.1 p.2 ∪
            (Finset.range N).filter fun t => ∃ q ∈ l, q.1 ≤ t ∧ t < q.2 := by
        ext t
        have hp := hN p (by simp)
        simp only [Finset.mem_filter, Finset.mem_range, List.mem_cons, exists_eq_or_imp,
          Finset.mem_union, Finset.mem_Ico]
        constructor
        · rintro ⟨ht, h | h⟩
          · exact .inl h
          · exact .inr ⟨ht, h⟩
        · rintro (h | h)
          · exact ⟨by omega, .inl h⟩
          · exact ⟨h.1, .inr h.2⟩
      have hdisjoint : Disjoint (Finset.Ico p.1 p.2)
          ((Finset.range N).filter fun t => ∃ q ∈ l, q.1 ≤ t ∧ t < q.2) := by
        rw [Finset.disjoint_left]
        intro t ht ht'
        obtain ⟨q, hq, hqt, -⟩ := (Finset.mem_filter.mp ht').2
        have := hhead q hq
        have := (Finset.mem_Ico.mp ht).2
        omega
      rw [hsplit, Finset.card_union_of_disjoint hdisjoint, Nat.card_Ico,
        ih htail fun q hq => hN q (by simp [hq]), List.map_cons, List.sum_cons]

end FeedBench.Lib
