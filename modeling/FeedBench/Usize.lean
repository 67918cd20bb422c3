import Mathlib.Algebra.GroupWithZero.Nat

/-!
# Machine indices

`usize` on a 64-bit target.  Additions are not checked in the release profile; in the debug
profile one that overflows stops the program.  A slice out of range stops it in both.
-/

namespace FeedBench.Usize

/-- Addition in the release profile. -/
def wrappingAdd (a b : Nat) : Id Nat := (a + b) % 2 ^ 64

/-- Addition in the debug profile, `none` when it overflows. -/
def checkedAdd (a b : Nat) : Option Nat := if a + b < 2 ^ 64 then some (a + b) else none

def slice (b : List UInt8) (lo hi : Nat) : Option (List UInt8) :=
  if lo ≤ hi ∧ hi ≤ b.length then some ((b.take hi).drop lo) else none

theorem checkedAdd_of_lt {a b : Nat} (h : a + b < 2 ^ 64) : checkedAdd a b = some (a + b) :=
  if_pos h

theorem wrappingAdd_of_lt {a b : Nat} (h : a + b < 2 ^ 64) : wrappingAdd a b = pure (a + b) :=
  Nat.mod_eq_of_lt h

theorem slice_of_le {b : List UInt8} {lo hi : Nat} (hlo : lo ≤ hi) (hhi : hi ≤ b.length) :
    slice b lo hi = some ((b.drop lo).take (hi - lo)) := by
  rw [slice, if_pos ⟨hlo, hhi⟩, List.drop_take]

theorem slice_eq_none {b : List UInt8} {lo hi : Nat} (h : b.length < hi) :
    slice b lo hi = none := by
  rw [slice, if_neg (by omega)]

/-- The bytes of a `&[u8]`: no slice is longer than `isize::MAX`. -/
structure Slice where
  bytes : List UInt8
  length_lt : bytes.length < 2 ^ 63

end FeedBench.Usize
