import FeedBench.Lib.Rounding
import Mathlib.Data.Int.Log
import Mathlib.Data.Rat.Floor

/-!
# Rounding to a double

The nearest number of 53 binary digits, and of two that are as near the one whose last digit is
even.  This is what becomes of an exact sum, product or quotient of doubles that is not close to
either end of the range of exponents.
-/

namespace FeedBench.Lib

/-- The nearest double. -/
def toDouble (x : ℚ) : ℚ :=
  let unit : ℚ := 2 ^ (Int.log 2 |x| - 52)
  roundEven (x / unit) * unit

-- a tenth, and the first integer that is not a double
example : toDouble (1 / 10) = 3602879701896397 / 2 ^ 55 ∧ toDouble (2 ^ 53 + 1) = 2 ^ 53 := by
  decide +kernel

end FeedBench.Lib
