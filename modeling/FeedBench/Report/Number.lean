import FeedBench.Lib.Rounding
import FeedBench.Report
import Mathlib.Data.Rat.Floor

/-!
# Numbers

The number formats of `report.rs`, and the readers of what they print.  A number, which is the
exact value of a double, is rounded to the nearest one with so many decimals, half to even, and a
negative number keeps its sign when it is rounded to zero.
-/

namespace FeedBench.Report

/-- A whole number of units, of which there are `10 ^ d` in one. -/
def unsigned (d units : Nat) : List Char :=
  Nat.toDigits 10 (units / 10 ^ d) ++
    if d = 0 then [] else '.' :: zeroPad d (units % 10 ^ d : Nat)

/-- `{x:.d}`. -/
def fixed (d : Nat) (x : ℚ) : List Char :=
  (if x < 0 then ['-'] else []) ++ unsigned d (Lib.roundEven (|x| * 10 ^ d)).toNat

def f2 (x : ℚ) : List Char := fixed 2 x

def signed2 (x : ℚ) : List Char := (if x < 0 then [] else ['+']) ++ fixed 2 x

def pc (x : ℚ) : List Char := fixed 1 x ++ ['%']

example : f2 (1 / 8) = "0.12".toList ∧ signed2 (-1 / 1000) = "-0.00".toList ∧
    pc (1999 / 20) = "100.0%".toList := by decide +kernel

/-! ## Readers -/

def readNat (s : List Char) : Option Nat :=
  if s ≠ [] ∧ s.all Char.isDigit then some (Text.decimalValue s) else none

def readUnsigned (s : List Char) : Option ℚ :=
  match Text.splitOnce ['.'] s with
  | none => (readNat s).map fun whole => (whole : ℚ)
  | some (whole, fraction) => do
      let whole ← readNat whole
      let decimals ← readNat fraction
      return whole + decimals / 10 ^ fraction.length

def readDecimal : List Char → Option ℚ
  | '-' :: s => (readUnsigned s).map fun x => -x
  | '+' :: s => readUnsigned s
  | s => readUnsigned s

def readPercent (s : List Char) : Option ℚ := (Text.stripSuffix ['%'] s).bind readDecimal

end FeedBench.Report
