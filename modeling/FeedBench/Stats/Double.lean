import FeedBench.Lib.Double
import FeedBench.Stats.Tables

/-!
# The figures in doubles

`stats.rs` computes in `f64`: each operation is followed by a rounding, and what is printed are the
decimals of the result.  A double stands for its exact value.
-/

namespace FeedBench.Stats.Double

open Lib

/-- `as_secs_f64` -/
def secs (d : Nat) : ℚ :=
  toDouble (toDouble (d / 10 ^ 9 : Nat) + toDouble ((d % 10 ^ 9 : Nat) / 10 ^ 9))

def ms (d : Nat) : ℚ := toDouble (secs d * 1000)

def signedMs (a b : Nat) : ℚ := if b ≤ a then ms (a - b) else -ms (b - a)

/-- What the program has where the exact difference is `x`. -/
def sample (x : ℚ) : ℚ := if x < 0 then -ms ⌊-x * 10 ^ 6⌋.toNat else ms ⌊x * 10 ^ 6⌋.toNat

theorem floor_ms (d : Nat) : ⌊Stats.ms d * 10 ^ 6⌋.toNat = d := by
  have hms : Stats.ms d * 10 ^ 6 = (d : ℤ) := by
    unfold Stats.ms Stats.secs
    push_cast
    ring
  rw [hms, Int.floor_intCast, Int.toNat_natCast]

/-- The exact difference of two instants stands for what `signed_ms` makes of them. -/
theorem sample_signedMs (a b : Nat) : sample (Stats.signedMs a b) = signedMs a b := by
  unfold Stats.signedMs signedMs
  split
  · have hnonneg : 0 ≤ Stats.ms (a - b) := by
      unfold Stats.ms Stats.secs
      positivity
    rw [sample, if_neg (not_lt.mpr hnonneg), floor_ms]
  · next hlt =>
    have hpos : 0 < Stats.ms (b - a) := by
      unfold Stats.ms Stats.secs
      have hsub : 0 < b - a := by omega
      positivity
    rw [sample, if_pos (neg_neg_of_pos hpos), neg_neg, floor_ms]

def median (sorted : List ℚ) : ℚ :=
  let n := sorted.length
  if n = 0 then 0
  else if n % 2 = 1 then sorted.getD (n / 2) 0
  else toDouble (toDouble (sorted.getD (n / 2 - 1) 0 + sorted.getD (n / 2) 0) / 2)

def pct (part whole : Nat) : ℚ :=
  if whole = 0 then 0 else toDouble (toDouble (toDouble part * 100) / toDouble whole)

def arith : Arith where
  secs := secs
  sum xs := xs.foldl (fun sum x => toDouble (sum + x)) 0
  sample := sample
  pct := pct
  median := median
  intervalOf elapsed interval := ⌊toDouble (secs elapsed / secs interval)⌋.toNat
  intervalStart idx interval := toDouble (toDouble idx * secs interval)

end FeedBench.Stats.Double
