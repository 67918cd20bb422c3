import FeedBench.Text

/-!
# The clock of the report

`utc_string` of `report.rs`.  The source computes in `i64`; an addition, a subtraction or a
multiplication that overflows stops the program in the debug profile and wraps in the release
profile.  Its `/` rounds toward zero, and `div_euclid` by a positive number rounds down.
-/

namespace FeedBench.I64

/-- The result of an operation in the debug profile, `none` when it overflows. -/
def checked (x : Int) : Option Int :=
  if -9223372036854775808 ≤ x ∧ x < 9223372036854775808 then some x else none

def ofU64 (n : Nat) : Int :=
  if n < 9223372036854775808 then n else n - 18446744073709551616

theorem checked_bind {R : Type} {x : Int} {f : Int → Option R} (hmin : -9223372036854775808 ≤ x)
    (hmax : x < 9223372036854775808) : (checked x >>= f) = f x := by
  rw [checked, if_pos ⟨hmin, hmax⟩]
  rfl

theorem ofU64_of_lt {n : Nat} (h : n < 9223372036854775808) : ofU64 n = n := if_pos h

end FeedBench.I64

namespace FeedBench.Report

open I64

/-- `{x:0width}`: the sign first, then zeros up to the width. -/
def zeroPad (width : Nat) (x : Int) : List Char :=
  let sign := if x < 0 then ['-'] else []
  let digits := Nat.toDigits 10 x.natAbs
  sign ++ List.replicate (width - sign.length - digits.length) '0' ++ digits

/-- Howard Hinnant's civil-from-days: the year, the month and the day. -/
def civilFromDays (days : Int) : Option (Int × Int × Int) := do
  let z ← checked (days + 719468)
  let era := z / 146097
  let doe ← checked (z - (← checked (era * 146097)))
  let yoe := (← checked ((← checked ((← checked (doe - doe.tdiv 1460)) + doe.tdiv 36524)) -
    doe.tdiv 146096)).tdiv 365
  let y ← checked (yoe + (← checked (era * 400)))
  let doy ← checked (doe - (← checked ((← checked ((← checked (365 * yoe)) + yoe.tdiv 4)) -
    yoe.tdiv 100)))
  let mp := (← checked ((← checked (5 * doy)) + 2)).tdiv 153
  let d ← checked ((← checked (doy - (← checked ((← checked (153 * mp)) + 2)).tdiv 5)) + 1)
  let m ← if mp < 10 then checked (mp + 3) else checked (mp - 9)
  let y ← if m ≤ 2 then checked (y + 1) else some y
  return (y, m, d)

def render (y m d hour minute second : Int) : List Char :=
  zeroPad 4 y ++ ['-'] ++ zeroPad 2 m ++ ['-'] ++ zeroPad 2 d ++ [' '] ++
    zeroPad 2 hour ++ [':'] ++ zeroPad 2 minute ++ [':'] ++ zeroPad 2 second ++
    [' ', 'U', 'T', 'C']

/-- `utc_string`, of the nanoseconds since the epoch; a time before it is taken for it. -/
def utcString (t : Int) : Option (List Char) := do
  let secs := if t < 0 then 0 else ofU64 (t / 1000000000).toNat
  let days := secs / 86400
  let sod := secs % 86400
  let (y, m, d) ← civilFromDays days
  return render y m d (sod.tdiv 3600) ((sod.tdiv 60).tmod 60) (sod.tmod 60)

example : utcString 0 = some "1970-01-01 00:00:00 UTC".toList ∧
    utcString (1789819200 * 1000000000) = some "2026-09-19 12:00:00 UTC".toList := by decide

end FeedBench.Report
