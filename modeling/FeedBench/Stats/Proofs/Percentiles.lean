import FeedBench.Lib.OrderStat
import FeedBench.Stats.Summary

/-!
# Percentiles

The nearest rank of the sorted samples is the least sample that enough of the samples do not
exceed, over any linear order.  The rank is a ceiling, clamped into the list, so a permille of the
samples and a count of them are compared exactly.
-/

namespace FeedBench.Stats

open Lib

variable {T : Type*} {n permille permille' count : Nat}

def rank (permille n : Nat) : Nat := max 1 (min ((permille * n + 999) / 1000) n)

theorem one_le_rank (permille n : Nat) : 1 ≤ rank permille n := Nat.le_max_left 1 _

theorem rank_le (permille : Nat) (hn : 0 < n) : rank permille n ≤ n := by
  unfold rank
  omega

theorem ceil_le_iff : (permille * n + 999) / 1000 ≤ count ↔ permille * n ≤ 1000 * count := by
  constructor
  · intro h
    omega
  · intro h
    omega

theorem rank_le_iff (hpermille : permille ≤ 1000) (hcount : 1 ≤ count) :
    rank permille n ≤ count ↔ permille * n ≤ 1000 * count := by
  have hceil : (permille * n + 999) / 1000 ≤ n :=
    ceil_le_iff.mpr (Nat.mul_le_mul_right n hpermille)
  unfold rank
  rw [Nat.min_eq_left hceil, Nat.max_le, ceil_le_iff]
  exact and_iff_right hcount

theorem nearestRank_eq [Zero T] {s : List T} (permille : Nat)
    (hlt : rank permille s.length - 1 < s.length) :
    nearestRank s permille = s[rank permille s.length - 1] := by
  have hne : s.isEmpty = false := by
    apply List.isEmpty_eq_false_iff.mpr
    rintro rfl
    exact Nat.not_lt_zero _ hlt
  unfold nearestRank
  rw [hne, if_neg Bool.false_ne_true]
  calc s.getD (rank permille s.length - 1) 0
      = s[rank permille s.length - 1]?.getD 0 := List.getD_eq_getElem?_getD
    _ = s[rank permille s.length - 1] := by rw [List.getElem?_eq_getElem hlt, Option.getD_some]

section Samples

variable [LinearOrder T] {samples : List T}

@[simp] theorem sorted_nil : sorted ([] : List T) = [] := List.mergeSort_nil

theorem rank_lt_length (permille : Nat) (hne : samples ≠ []) :
    rank permille (sorted samples).length - 1 < (sorted samples).length := by
  have hpos := List.length_pos_of_ne_nil hne
  rw [sorted_length]
  have hone := one_le_rank permille samples.length
  have hrank := rank_le permille hpos
  omega

variable [Zero T]

theorem kthSmallest_nearestRank (permille : Nat) (hne : samples ≠ []) :
    kthSmallest (rank permille samples.length) samples =
      some (nearestRank (sorted samples) permille) := by
  have hlt := rank_lt_length permille hne
  rw [nearestRank_eq permille hlt, ← List.getElem?_eq_getElem hlt, sorted_length]
  rfl

theorem nearestRank_isLeast (hpermille : permille ≤ 1000) (hne : samples ≠ []) :
    IsLeast {v | v ∈ samples ∧ permille * samples.length ≤ 1000 * samples.countP (· ≤ v)}
      (nearestRank (sorted samples) permille) := by
  have hleast := kthSmallest_isLeast (one_le_rank permille samples.length)
    (kthSmallest_nearestRank permille hne)
  have hset : {v | v ∈ samples ∧ rank permille samples.length ≤ samples.countP (· ≤ v)} =
      {v | v ∈ samples ∧ permille * samples.length ≤ 1000 * samples.countP (· ≤ v)} := by
    ext v
    apply and_congr_right
    intro hv
    apply rank_le_iff hpermille
    exact List.countP_pos_iff.mpr ⟨v, hv, decide_eq_true le_rfl⟩
  rwa [hset] at hleast

theorem nearestRank_mono (hle : permille ≤ permille') (hpermille : permille' ≤ 1000) :
    nearestRank (sorted samples) permille ≤ nearestRank (sorted samples) permille' := by
  by_cases hne : samples = []
  · rw [hne, sorted_nil]
    exact le_refl (0 : T)
  · have hleast := nearestRank_isLeast (hle.trans hpermille) hne
    have hmem := (nearestRank_isLeast hpermille hne).1
    apply hleast.2
    exact ⟨hmem.1, (Nat.mul_le_mul_right _ hle).trans hmem.2⟩

theorem max_eq (samples : List T) :
    (Percentiles.of samples).max = nearestRank (sorted samples) 1000 := by
  by_cases hne : samples = []
  · subst hne
    change (sorted ([] : List T)).getLast?.getD 0 = _
    rw [sorted_nil]
    rfl
  · have hlt := rank_lt_length 1000 hne
    have hrank : rank 1000 (sorted samples).length = (sorted samples).length := by
      have hone := one_le_rank 1000 (sorted samples).length
      unfold rank at hone hlt ⊢
      omega
    rw [nearestRank_eq 1000 hlt]
    change (sorted samples).getLast?.getD 0 = _
    rw [List.getLast?_eq_getElem?]
    simp only [hrank] at hlt ⊢
    rw [List.getElem?_eq_getElem hlt, Option.getD_some]

/-- The fields are the statistics they are named after. -/
structure Percentiles.IsOf (p : Percentiles T) (samples : List T) : Prop where
  n : p.n = samples.length
  p10 : p.p10 = nearestRank (sorted samples) 100
  p50 : p.p50 = nearestRank (sorted samples) 500
  p75 : p.p75 = nearestRank (sorted samples) 750
  p90 : p.p90 = nearestRank (sorted samples) 900
  p95 : p.p95 = nearestRank (sorted samples) 950
  p99 : p.p99 = nearestRank (sorted samples) 990
  p999 : p.p999 = nearestRank (sorted samples) 999
  max : ∀ h : sorted samples ≠ [], p.max = (sorted samples).getLast h

theorem isOf_of (samples : List T) : (Percentiles.of samples).IsOf samples := by
  refine ⟨sorted_length samples, rfl, rfl, rfl, rfl, rfl, rfl, rfl, ?_⟩
  intro h
  change (sorted samples).getLast?.getD 0 = _
  rw [List.getLast?_eq_some_getLast h, Option.getD_some]

/-- **Percentiles.** They depend on the samples alone and not on their order, each is the least
sample that its permille of the samples does not exceed, the index is one of the list, and they
ascend. -/
theorem percentiles_exact (samples : List T) :
    (∀ samples', samples.Perm samples' → Percentiles.of samples' = Percentiles.of samples) ∧
      (samples ≠ [] → ∀ permille ≤ 1000,
        (∃ h : rank permille (sorted samples).length - 1 < (sorted samples).length,
          nearestRank (sorted samples) permille =
            (sorted samples)[rank permille (sorted samples).length - 1]) ∧
        IsLeast {v | v ∈ samples ∧ permille * samples.length ≤ 1000 * samples.countP (· ≤ v)}
          (nearestRank (sorted samples) permille)) ∧
      (let p := Percentiles.of samples;
        p.IsOf samples ∧
        (p.p10 ≤ p.p50 ∧ p.p50 ≤ p.p75 ∧ p.p75 ≤ p.p90 ∧ p.p90 ≤ p.p95 ∧ p.p95 ≤ p.p99 ∧
          p.p99 ≤ p.p999 ∧ p.p999 ≤ p.max) ∧
        (samples ≠ [] →
          ∀ v ∈ [p.p10, p.p50, p.p75, p.p90, p.p95, p.p99, p.p999, p.max], v ∈ samples)) := by
  refine ⟨?_, ?_, isOf_of samples, ?_, ?_⟩
  · intro samples' hperm
    have hsorted : sorted samples' = sorted samples := mergeSort_eq_of_perm hperm.symm
    unfold Percentiles.of
    rw [hsorted]
  · intro hne permille hpermille
    have hlt := rank_lt_length permille hne
    exact ⟨⟨hlt, nearestRank_eq permille hlt⟩, nearestRank_isLeast hpermille hne⟩
  · rw [max_eq]
    refine ⟨?_, ?_, ?_, ?_, ?_, ?_, ?_⟩
    all_goals
      apply nearestRank_mono
      · decide
      · decide
  · intro hne
    have hmem : ∀ permille ≤ 1000, nearestRank (sorted samples) permille ∈ samples :=
      fun permille hpermille => (nearestRank_isLeast hpermille hne).1.1
    rw [max_eq]
    simp only [List.forall_mem_cons]
    refine ⟨?_, ?_, ?_, ?_, ?_, ?_, ?_, ?_, List.forall_mem_nil _⟩
    all_goals
      apply hmem
      decide

end Samples

end FeedBench.Stats
