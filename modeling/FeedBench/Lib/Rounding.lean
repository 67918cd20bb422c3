import Mathlib.Algebra.Order.Round
import Mathlib.Algebra.Ring.Int.Parity
import Mathlib.Tactic.Linarith

/-!
# Rounding to the nearest integer, half to even

A number half-way between two integers goes to the even one.  `RoundsTo` says which integer that
is, and there is only one (`RoundsTo.unique`), so that rounding keeps integers, commutes with the
sign and is monotone.
-/

namespace FeedBench.Lib

variable {F : Type*} [Field F] [LinearOrder F]

/-- No integer is nearer to `x` than `k`, and `k` is even if one is as near. -/
structure RoundsTo (x : F) (k : ℤ) : Prop where
  near : |x - k| ≤ 1 / 2
  even : |x - k| = 1 / 2 → Even k

/-- The nearest integer, of two as near the even one. -/
def roundEven [FloorRing F] (x : F) : ℤ :=
  if Int.fract x = 1 / 2 ∧ Even ⌊x⌋ then ⌊x⌋ else round x

variable {x y : F} {k l : ℤ}

theorem RoundsTo.neg [IsOrderedAddMonoid F] (h : RoundsTo x k) : RoundsTo (-x) (-k) := by
  have habs : |-x - ((-k : ℤ) : F)| = |x - k| := by
    rw [Int.cast_neg, ← abs_neg, sub_neg_eq_add, neg_add, neg_neg, ← sub_eq_add_neg]
  refine ⟨?_, fun hhalf => ?_⟩
  · rw [habs]
    exact h.near
  · rw [habs] at hhalf
    exact (h.even hhalf).neg

variable [IsStrictOrderedRing F]

namespace RoundsTo

theorem intCast (k : ℤ) : RoundsTo (k : F) k := by
  refine ⟨?_, fun hhalf => ?_⟩
  · rw [sub_self, abs_zero]
    exact one_half_pos.le
  · rw [sub_self, abs_zero] at hhalf
    exact absurd hhalf one_half_pos.ne

theorem mono (h : RoundsTo x k) (h' : RoundsTo y l) (hle : x ≤ y) : k ≤ l := by
  by_contra hlt
  have hcast : (l : F) + 1 ≤ k := by
    have : l + 1 ≤ k := by omega
    exact_mod_cast this
  have hk := abs_le.mp h.near
  have hl := abs_le.mp h'.near
  -- both numbers are half-way between `l` and `k`
  have hx : x - k = -(1 / 2) := by linarith
  have hy : y - l = 1 / 2 := by linarith
  have hkl : k = l + 1 := by
    have : (k : F) = ((l + 1 : ℤ) : F) := by
      push_cast
      linarith
    exact_mod_cast this
  have hk_even : Even k := h.even (by rw [hx, abs_neg, abs_of_pos one_half_pos])
  have hl_even : Even l := h'.even (by rw [hy, abs_of_pos one_half_pos])
  rw [hkl] at hk_even
  exact Int.even_add_one.mp hk_even hl_even

theorem unique (h : RoundsTo x k) (h' : RoundsTo x l) : k = l :=
  le_antisymm (h.mono h' le_rfl) (h'.mono h le_rfl)

end RoundsTo

section Round

variable [FloorRing F]

theorem roundsTo_roundEven (x : F) : RoundsTo x (roundEven x) := by
  unfold roundEven
  by_cases hdown : Int.fract x = 1 / 2 ∧ Even ⌊x⌋
  · rw [if_pos hdown]
    refine ⟨?_, fun _ => hdown.2⟩
    rw [Int.self_sub_floor, hdown.1]
    exact (abs_of_pos one_half_pos).le
  · rw [if_neg hdown]
    refine ⟨abs_sub_round x, fun hhalf => ?_⟩
    have hfract : Int.fract x = 1 / 2 := by
      rw [abs_sub_round_eq_min] at hhalf
      have hle := min_le_left (Int.fract x) (1 - Int.fract x)
      have hle' := min_le_right (Int.fract x) (1 - Int.fract x)
      linarith
    have hodd : ¬Even ⌊x⌋ := fun heven => hdown ⟨hfract, heven⟩
    have hup : round x = ⌊x⌋ + 1 := by
      rw [round_eq, Int.floor_eq_iff]
      have hsplit := Int.floor_add_fract x
      push_cast
      constructor
      all_goals linarith
    rw [hup]
    exact Int.even_add_one.mpr hodd

theorem roundEven_neg (x : F) : roundEven (-x) = -roundEven x :=
  (roundsTo_roundEven (-x)).unique (roundsTo_roundEven x).neg

@[simp] theorem roundEven_intCast (k : ℤ) : roundEven (k : F) = k :=
  (roundsTo_roundEven (k : F)).unique (.intCast k)

theorem roundEven_mono (h : x ≤ y) : roundEven x ≤ roundEven y :=
  (roundsTo_roundEven x).mono (roundsTo_roundEven y) h

theorem roundEven_nonneg (h : 0 ≤ x) : 0 ≤ roundEven x := by
  calc (0 : ℤ) = roundEven ((0 : ℤ) : F) := (roundEven_intCast 0).symm
    _ ≤ roundEven x := roundEven_mono (by exact_mod_cast h)

def toDecimals (d : ℕ) (x : F) : F := roundEven (x * 10 ^ d) / 10 ^ d

theorem toDecimals_neg (d : ℕ) (x : F) : toDecimals d (-x) = -toDecimals d x := by
  rw [toDecimals, neg_mul, roundEven_neg, Int.cast_neg, neg_div]
  rfl

end Round

end FeedBench.Lib
