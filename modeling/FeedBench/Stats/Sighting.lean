import FeedBench.Stats.Tables

/-!
# What the tables are to say

The report in terms of what was measured and nothing else: for each block and for each
transaction the instants at which the sources delivered it.  How these come to be on record, in
which order and by which events, does not enter.
-/

namespace FeedBench.Stats

variable {n : Nat}

/-- When each source delivered one block or one transaction. -/
abbrev Sighting (n : Nat) := Vector (Option Nat) n

namespace Sighting

variable (v : Sighting n) (i j : Fin n)

def first : Nat := ((v.toList.filterMap id).min?).getD 0

def seen : Nat := v.countP Option.isSome

/-- How far source `i` was behind the first delivery in milliseconds, if it delivered. -/
def delay : Option ℚ := (v.get i).map fun a : Nat => ((a : ℚ) - v.first) / 10 ^ 6

def IsFirst : Prop := v.get i = some v.first

instance : Decidable (v.IsFirst i) := inferInstanceAs (Decidable (_ = _))

def IsSoleFirst : Prop := v.IsFirst i ∧ ∀ j, v.IsFirst j → j = i

instance : Decidable (v.IsSoleFirst i) :=
  inferInstanceAs (Decidable (v.IsFirst i ∧ ∀ j, v.IsFirst j → j = i))

/-- Another source delivered, and none before a millisecond after source `i`. -/
def IsAhead : Prop :=
  ∃ a ∈ v.get i, (∃ j, j ≠ i ∧ (v.get j).isSome) ∧ ∀ j, j ≠ i → ∀ b ∈ v.get j, a + 10 ^ 6 ≤ b

instance : Decidable (v.IsAhead i) :=
  inferInstanceAs (Decidable (∃ a ∈ v.get i, (∃ j, j ≠ i ∧ (v.get j).isSome) ∧
    ∀ j, j ≠ i → ∀ b ∈ v.get j, a + 10 ^ 6 ≤ b))

def behind : Option ℚ :=
  match v.get i, v.get j with
  | some a, some b => some (((b : ℚ) - a) / 10 ^ 6)
  | _, _ => none

end Sighting

/-! ## Figures -/

def share (part whole : Nat) : ℚ := 100 * part / whole

/-- Half-way between the two samples in the middle, which are one sample if their number is odd. -/
def middle (samples : List ℚ) : ℚ :=
  ((sorted samples).getD ((samples.length - 1) / 2) 0 +
    (sorted samples).getD (samples.length / 2) 0) / 2

def countAbove (bound : ℚ) (samples : List ℚ) : Nat := samples.countP (bound < ·)

/-! ## Pairs -/

/-- What was measured of one transaction: when the sources delivered it, whether one of them took
it for a swap, and the block it belongs to with the size of that block. -/
structure TxSight (n : Nat) where
  arrivals : Sighting n
  swap : Bool
  block : Option String
  size : Option UInt32

def intervalLine (start interval : Nat) (rows : List Row) (k : Nat) : IntervalStats :=
  let diffs := (rows.filter fun x => (x.first - start) / interval = k).map Row.diff
  { index := k + 1
    startS := k * interval / 10 ^ 9
    n := diffs.length
    medianMs := middle diffs
    refFirstPct := share (countAbove 0 diffs) diffs.length }

def intervalLines (start interval : Nat) (rows : List Row) : List IntervalStats :=
  ((rows.map fun x => (x.first - start) / interval).dedup.mergeSort (· ≤ ·)).map
    (intervalLine start interval rows)

def sizes : List (String × Nat × Nat) :=
  [("1-5 txs", 1, 5), ("6-20 txs", 6, 20), ("21-50 txs", 21, 50), (">50 txs", 51, 2 ^ 32 - 1)]

def ofSize (rows : List Row) (lo hi : Nat) : List Row :=
  rows.filter fun x => x.size.any fun size => lo ≤ size.toNat && size.toNat ≤ hi

def blockCount (rows : List Row) : Nat := (rows.filterMap Row.block).toFinset.card

/-- The line of a bucket.  The blocks of all buckets are added up: one that has rows in two of
them is counted in both. -/
def bucketLine (rows : List Row) : String × Nat × Nat → BucketStats
  | (label, lo, hi) =>
      let inside := ofSize rows lo hi
      let diffs := inside.map Row.diff
      { label := label
        blocks := blockCount inside
        blocksPct := share (blockCount inside)
          (sizes.map fun (_, lo, hi) => blockCount (ofSize rows lo hi)).sum
        txs := inside.length
        txsPct := share inside.length (rows.countP fun x => x.size.any (0 < ·))
        medianMs := middle diffs
        p10Ms := nearestRank (sorted diffs) 100
        p90Ms := nearestRank (sorted diffs) 900
        refFirstPct := share (countAbove 0 diffs) diffs.length }

def pairTable (reference other sizeSource : String) (start interval : Nat) (rows : List Row) :
    PairSummary :=
  let diffs := rows.map Row.diff
  { reference := reference
    other := other
    n := diffs.length
    medianMs := middle diffs
    p10Ms := nearestRank (sorted diffs) 100
    p90Ms := nearestRank (sorted diffs) 900
    refFirstPct := share (countAbove 0 diffs) diffs.length
    within1msPct := share (diffs.countP fun d => |d| ≤ 1) diffs.length
    refEarlier5msPct := share (countAbove 5 diffs) diffs.length
    otherEarlier5msPct := share (diffs.countP (· < -5)) diffs.length
    intervals := intervalLines start interval rows
    sizeSource := sizeSource
    buckets := sizes.map (bucketLine rows) }

/-- What a report counts. -/
structure Scope where
  window : Nat → Bool
  minSources : Nat

namespace Scope

variable (scope : Scope) (vs : List (Sighting n))

def inside : List (Sighting n) := vs.filter fun v => scope.window v.first

def matched : List (Sighting n) := (scope.inside vs).filter fun v => scope.minSources ≤ v.seen

def delays (i : Fin n) : List ℚ := (scope.matched vs).filterMap fun v => v.delay i

def txLine (name : String) (i : Fin n) : TxSourceStats :=
  let inside := scope.inside vs
  let matched := scope.matched vs
  let lags := sorted (scope.delays vs i)
  { name := name
    seen := inside.countP fun v => (v.get i).isSome
    coveragePct := share (inside.countP fun v => (v.get i).isSome) inside.length
    firstPct := share (matched.countP fun v => v.IsFirst i) matched.length
    firstBy1msPct := share (matched.countP fun v => v.IsAhead i) matched.length
    lagP50 := nearestRank lags 500
    lagP90 := nearestRank lags 900
    lagP95 := nearestRank lags 950
    lagP99 := nearestRank lags 990
    lagMax := lags.getLast?.getD 0 }

variable (txs : List (TxSight n))

def swaps : Nat :=
  txs.countP fun x =>
    x.swap && scope.window x.arrivals.first && scope.minSources ≤ x.arrivals.seen

def txTable (names : Fin n → String) : TxSummary where
  total := (scope.inside (txs.map TxSight.arrivals)).length
  matched := (scope.matched (txs.map TxSight.arrivals)).length
  syntheticSwaps := scope.swaps txs
  perSource := (List.finRange n).map fun i =>
    scope.txLine (txs.map TxSight.arrivals) (names i) i

/-- How far source `j` was behind source `i`, over all that both delivered. -/
def pairRows (i j : Fin n) : List Row :=
  (txs.filter fun x => scope.window x.arrivals.first).filterMap fun x =>
    (x.arrivals.behind i j).map fun d =>
      { diff := d, first := x.arrivals.first, block := x.block, size := x.size }

end Scope

end FeedBench.Stats
