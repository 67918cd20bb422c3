import Mathlib.Data.List.Sort
import Mathlib.Order.Bounds.Basic

/-!
# The k-th smallest entry

The entry at a place of the sorted list, found by counting: fewer than `k` entries lie below
it, and at least `k` do not lie above it.  The latest of the first `k` entries of a list is
its `k`-th smallest exactly when none of them has `k` entries below it.
-/

namespace FeedBench.Lib

variable {T : Type*} [LinearOrder T] {l l' : List T} {k : Nat} {t d : T}

/-- The `k`-th smallest entry, counted from one. -/
def kthSmallest (k : Nat) (l : List T) : Option T := (l.mergeSort (· ≤ ·))[k - 1]?

theorem countP_of_sorted (h : l.Pairwise (· ≤ ·)) {i : Nat} (hi : i < l.length) :
    l.countP (· < l[i]) ≤ i ∧ i + 1 ≤ l.countP (· ≤ l[i]) := by
  have hle : ∀ j (hj : j < l.length), j ≤ i → l[j] ≤ l[i] := by
    intro j hj hji
    rcases Nat.lt_or_eq_of_le hji with hlt | heq
    · exact List.pairwise_iff_getElem.mp h j i hj hi hlt
    · subst heq
      exact le_rfl
  have hge : ∀ j (hj : j < l.length), i ≤ j → l[i] ≤ l[j] := by
    intro j hj hij
    rcases Nat.lt_or_eq_of_le hij with hlt | heq
    · exact List.pairwise_iff_getElem.mp h i j hi hj hlt
    · subst heq
      exact le_rfl
  constructor
  · have hdrop : (l.drop i).countP (· < l[i]) = 0 := by
      apply List.countP_eq_zero.mpr
      intro t ht
      obtain ⟨j, hj, rfl⟩ := List.mem_iff_getElem.mp ht
      rw [List.getElem_drop]
      rw [List.length_drop] at hj
      simpa using hge (i + j) (by omega) (Nat.le_add_right i j)
    calc l.countP (· < l[i])
        = (l.take i).countP (· < l[i]) + (l.drop i).countP (· < l[i]) := by
          rw [← List.countP_append, List.take_append_drop]
      _ = (l.take i).countP (· < l[i]) := by rw [hdrop, Nat.add_zero]
      _ ≤ (l.take i).length := List.countP_le_length
      _ ≤ i := by rw [List.length_take]; exact Nat.min_le_left _ _
  · have htake : (l.take (i + 1)).countP (· ≤ l[i]) = (l.take (i + 1)).length := by
      apply List.countP_eq_length.mpr
      intro t ht
      obtain ⟨j, hj, rfl⟩ := List.mem_iff_getElem.mp ht
      rw [List.getElem_take]
      rw [List.length_take] at hj
      simpa using hle j (by omega) (by omega)
    have hsub := (List.take_sublist (i + 1) l).countP_le (p := fun t => decide (t ≤ l[i]))
    rw [htake, List.length_take] at hsub
    omega

theorem mergeSort_eq_of_perm (h : l.Perm l') : l.mergeSort (· ≤ ·) = l'.mergeSort (· ≤ ·) := by
  apply List.Perm.eq_of_pairwise' (r := (· ≤ ·))
    (List.pairwise_mergeSort' _ l) (List.pairwise_mergeSort' _ l')
  exact (List.mergeSort_perm _ _).trans (h.trans (List.mergeSort_perm _ _).symm)

/-- Sorting by a key that no two entries share. -/
theorem mergeSort_key_eq_of_perm {α : Type*} (key : α → T) {v v' : List α} (h : v.Perm v')
    (hinj : ∀ a ∈ v, ∀ b ∈ v, key a = key b → a = b) :
    v.mergeSort (key · ≤ key ·) = v'.mergeSort (key · ≤ key ·) := by
  have hsorted : ∀ v : List α,
      (v.mergeSort (key · ≤ key ·)).Pairwise fun a b => decide (key a ≤ key b) = true := by
    intro v
    apply List.pairwise_mergeSort
    · intro a b c hab hbc
      simp only [decide_eq_true_eq] at hab hbc ⊢
      exact hab.trans hbc
    · intro a b
      simpa using le_total (key a) (key b)
  apply List.Perm.eq_of_pairwise ?_ (hsorted v) (hsorted v')
  · exact (List.mergeSort_perm _ _).trans (h.trans (List.mergeSort_perm _ _).symm)
  · intro a b ha hb hab hba
    have ha' := (List.mergeSort_perm _ _).mem_iff.mp ha
    have hb' := h.mem_iff.mpr ((List.mergeSort_perm _ _).mem_iff.mp hb)
    exact hinj a ha' b hb' (le_antisymm (of_decide_eq_true hab) (of_decide_eq_true hba))

theorem kthSmallest_perm (h : l.Perm l') : kthSmallest k l = kthSmallest k l' := by
  rw [kthSmallest, kthSmallest, mergeSort_eq_of_perm h]

/-- The two counts determine the entry. -/
theorem kthSmallest_eq_some_iff (hk : 1 ≤ k) : kthSmallest k l = some t ↔
    t ∈ l ∧ l.countP (· < t) < k ∧ k ≤ l.countP (· ≤ t) := by
  have hsorted := List.pairwise_mergeSort' (· ≤ ·) l
  have hperm := List.mergeSort_perm l (· ≤ ·)
  have hspec : ∀ d, kthSmallest k l = some d →
      d ∈ l ∧ l.countP (· < d) < k ∧ k ≤ l.countP (· ≤ d) := by
    intro d hd
    obtain ⟨hlt, rfl⟩ := List.getElem?_eq_some_iff.mp hd
    obtain ⟨hbelow, habove⟩ := countP_of_sorted hsorted hlt
    rw [hperm.countP_eq] at hbelow habove
    exact ⟨hperm.mem_iff.mp (List.getElem_mem hlt), by omega, by omega⟩
  constructor
  · exact hspec t
  · rintro ⟨-, hbelow, habove⟩
    have hlen : k - 1 < (l.mergeSort (· ≤ ·)).length := by
      have := List.countP_le_length (p := (· ≤ t)) (l := l)
      rw [List.length_mergeSort]
      omega
    obtain ⟨-, hbelow', habove'⟩ := hspec _ (List.getElem?_eq_getElem hlen)
    rw [kthSmallest, List.getElem?_eq_getElem hlen]
    generalize (l.mergeSort (· ≤ ·))[k - 1] = d at hbelow' habove' ⊢
    -- two entries with these counts cannot lie apart
    have hmono : ∀ a b, a < b → l.countP (· ≤ a) ≤ l.countP (· < b) := by
      intro a b hab
      apply List.countP_mono_left
      intro x _ hx
      simp only [decide_eq_true_eq] at hx ⊢
      exact lt_of_le_of_lt hx hab
    rcases lt_trichotomy d t with hlt | heq | hgt
    · have := hmono d t hlt
      omega
    · rw [heq]
    · have := hmono t d hgt
      omega

theorem kthSmallest_isLeast (hk : 1 ≤ k) (h : kthSmallest k l = some t) :
    IsLeast {v | v ∈ l ∧ k ≤ l.countP (· ≤ v)} t := by
  obtain ⟨hmem, hbelow, habove⟩ := (kthSmallest_eq_some_iff hk).mp h
  refine ⟨⟨hmem, habove⟩, ?_⟩
  rintro v ⟨-, hv⟩
  by_contra hlt
  have hmono : l.countP (· ≤ v) ≤ l.countP (· < t) := by
    apply List.countP_mono_left
    intro x _ hx
    simp only [decide_eq_true_eq] at hx ⊢
    exact lt_of_le_of_lt hx (not_le.mp hlt)
  omega

/-- The latest of the first `k` entries is the `k`-th smallest of all exactly when none of
the first `k` has `k` entries below it. -/
theorem kthSmallest_eq_latest_iff (hk : 1 ≤ k) (hlen : k ≤ l.length)
    (hd : IsGreatest {t | t ∈ l.take k} d) :
    kthSmallest k l = some d ↔ ∀ t ∈ l.take k, l.countP (· < t) < k := by
  rw [kthSmallest_eq_some_iff hk]
  have habove : k ≤ l.countP (· ≤ d) := by
    have hall : (l.take k).countP (· ≤ d) = (l.take k).length :=
      List.countP_eq_length.mpr fun t ht => by simpa using hd.2 ht
    calc k = (l.take k).length := by rw [List.length_take]; omega
      _ = (l.take k).countP (· ≤ d) := hall.symm
      _ ≤ l.countP (· ≤ d) := (List.take_sublist _ _).countP_le
  constructor
  · rintro ⟨-, hbelow, -⟩ t ht
    apply Nat.lt_of_le_of_lt _ hbelow
    apply List.countP_mono_left
    intro x _ hx
    simp only [decide_eq_true_eq] at hx ⊢
    exact lt_of_lt_of_le hx (hd.2 ht)
  · intro h
    exact ⟨List.mem_of_mem_take hd.1, h d hd.1, habove⟩

end FeedBench.Lib
