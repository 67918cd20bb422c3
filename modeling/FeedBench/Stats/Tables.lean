import FeedBench.Stats.Summary
import Mathlib.Data.List.Dedup

/-!
# The transaction table and the pair tables

`tx_summary` and `pair_summary` of `stats.rs`.  As in the block table, the counts a loop
accumulates are kept apart from the percentages made of them.  Rows hold exact differences, and
an `Arith` says what the figures are that are computed from them.
-/

namespace FeedBench.Stats

open Lib

variable {n : Nat}

def signedMs (a b : Nat) : ℚ := if b ≤ a then ms (a - b) else -ms (b - a)

/-! ## Transactions -/

structure TxSourceStats where
  name : String
  seen : Nat
  coveragePct : ℚ
  firstPct : ℚ
  firstBy1msPct : ℚ
  lagP50 : ℚ
  lagP90 : ℚ
  lagP95 : ℚ
  lagP99 : ℚ
  lagMax : ℚ

structure TxSummary where
  /-- Distinct transactions seen by any source inside the window. -/
  total : Nat
  /-- Seen by every source (or by `minSources`). -/
  matched : Nat
  syntheticSwaps : Nat
  perSource : List TxSourceStats

/-- `Duration::from_millis(1)`. -/
def oneMs : Nat := 10 ^ 6

namespace TxRec

def others (r : TxRec n) (i : Fin n) : Option Nat :=
  (((List.finRange n).filter (· ≠ i)).filterMap r.arrivals.get).min?

/-- Source `i` was first by a millisecond or more. -/
def leads (r : TxRec n) (i : Fin n) : Bool :=
  match r.arrivals.get i, r.others i with
  | some a, some o => a + oneMs ≤ o
  | _, _ => false

end TxRec

structure TxTable (n : Nat) where
  total : Nat
  matched : Nat
  seen : Vector Nat n
  first : Vector Nat n
  first1ms : Vector Nat n
  lags : Vector (List ℚ) n
  swaps : Nat

namespace TxTable

def empty : TxTable n where
  total := 0
  matched := 0
  seen := .replicate n 0
  first := .replicate n 0
  first1ms := .replicate n 0
  lags := .replicate n []
  swaps := 0

def addSeen (table : TxTable n) (r : TxRec n) : TxTable n :=
  { table with
    total := table.total + 1
    seen := .ofFn fun i => table.seen.get i + (r.arrivals.get i).isSome.toNat }

def addMatched (table : TxTable n) (r : TxRec n) : TxTable n :=
  { table with
    matched := table.matched + 1
    swaps := table.swaps + r.syntheticSwap.toNat
    lags := .ofFn fun i =>
      table.lags.get i ++ ((r.arrivals.get i).map fun a => ms (a - r.first)).toList
    first := .ofFn fun i =>
      table.first.get i + (decide (r.arrivals.get i = some r.first)).toNat
    first1ms := .ofFn fun i => table.first1ms.get i + (r.leads i).toNat }

end TxTable

/-! ## Pairs -/

structure IntervalStats where
  index : Nat
  startS : ℚ
  n : Nat
  medianMs : ℚ
  refFirstPct : ℚ

structure BucketStats where
  label : String
  blocks : Nat
  blocksPct : ℚ
  txs : Nat
  txsPct : ℚ
  medianMs : ℚ
  p10Ms : ℚ
  p90Ms : ℚ
  refFirstPct : ℚ

structure PairSummary where
  reference : String
  other : String
  n : Nat
  /-- Median of (other - reference); positive when the reference was earlier. -/
  medianMs : ℚ
  p10Ms : ℚ
  p90Ms : ℚ
  refFirstPct : ℚ
  within1msPct : ℚ
  refEarlier5msPct : ℚ
  otherEarlier5msPct : ℚ
  intervals : List IntervalStats
  sizeSource : String
  buckets : List BucketStats

/-- One transaction both sources of a pair delivered. -/
structure Row where
  diff : ℚ
  first : Nat
  block : Option String
  size : Option UInt32

/-- The block-size buckets: label, smallest and largest size. -/
def buckets : List (String × UInt32 × UInt32) :=
  [("1-5", 1, 5), ("6-20", 6, 20), ("21-50", 21, 50), (">50", 51, 0xFFFF_FFFF)]

def bucketOf (size : UInt32) : Option Nat :=
  buckets.findIdx? fun (_, lo, hi) => lo ≤ size && size ≤ hi

def bucketRows (rows : List Row) (b : Nat) : List Row :=
  rows.filter fun x => x.size.bind bucketOf = some b

def blocksOf (rows : List Row) : Nat := (rows.filterMap (·.block)).dedup.length

/-- The differences of the rows by interval, counted from `start`. -/
def byInterval (A : Arith) (start interval : Nat) (rows : List Row) :
    AList fun _ : Nat => List ℚ :=
  group (fun x => A.intervalOf (x.first - start) interval) [] (fun x v => v ++ [x.diff]) rows

def IntervalStats.of (A : Arith) (interval : Nat) (idx : Nat) (v : List ℚ) : IntervalStats :=
  let s := sorted v
  { index := idx + 1
    startS := A.intervalStart idx interval
    n := s.length
    medianMs := A.median s
    refFirstPct := A.pct (s.countP (0 < ·)) s.length }

def BucketStats.of (A : Arith) (label : String) (blocks sizedBlocks sizedTxs : Nat)
    (rows : List Row) : BucketStats :=
  let s := sorted (rows.map (·.diff))
  { label := label ++ " txs"
    blocks := blocks
    blocksPct := A.pct blocks sizedBlocks
    txs := s.length
    txsPct := A.pct s.length sizedTxs
    medianMs := A.median s
    p10Ms := nearestRank s 100
    p90Ms := nearestRank s 900
    refFirstPct := A.pct (s.countP (0 < ·)) s.length }

namespace Collector

def txTable (c : Collector n) : TxTable n :=
  c.txs.entries.foldl
    (fun table entry =>
      if !c.inWindow entry.2.first then table
      else if entry.2.seen < c.minSources then table.addSeen entry.2
      else (table.addSeen entry.2).addMatched entry.2)
    TxTable.empty

def txSummaryIn (A : Arith) (c : Collector n) : TxSummary :=
  let table := c.txTable
  { total := table.total
    matched := table.matched
    syntheticSwaps := table.swaps
    perSource := (List.finRange n).map fun i =>
      let s := sorted ((table.lags.get i).map A.sample)
      { name := (c.sources.get i).name
        seen := table.seen.get i
        coveragePct := A.pct (table.seen.get i) table.total
        firstPct := A.pct (table.first.get i) table.matched
        firstBy1msPct := A.pct (table.first1ms.get i) table.matched
        lagP50 := nearestRank s 500
        lagP90 := nearestRank s 900
        lagP95 := nearestRank s 950
        lagP99 := nearestRank s 990
        lagMax := s.getLast?.getD 0 } }

def txSummary (c : Collector n) : TxSummary := c.txSummaryIn .exact

theorem txSummaryIn_exact (c : Collector n) : c.txSummaryIn .exact = c.txSummary := rfl

/-- The key under which the reference source counts a transaction. -/
def refKey (c : Collector n) (r : TxRec n) : Option String :=
  if (r.arrivals.get c.reference).isSome then r.blockKey else none

/-- Per-block transaction counts from the reference source, used when no Nitro source
carried the count. -/
def refCounts (c : Collector n) : AList fun _ : String => UInt32 :=
  if c.nitroPresent then ∅
  else group id 0 (fun _ count => count + 1) (c.txs.entries.filterMap fun e => c.refKey e.2)

/-- The row of a transaction, if both sources delivered it inside the window. -/
def row (c : Collector n) (counts : AList fun _ : String => UInt32) (other : Fin n)
    (r : TxRec n) : Option Row :=
  match r.arrivals.get c.reference, r.arrivals.get other with
  | some tr, some tt =>
      if !c.inWindow r.first then none
      else
        let size :=
          if c.nitroPresent then r.txCount.filter fun _ => r.blockFromNitro
          else r.blockKey.bind fun k => counts.lookup k
        some { diff := signedMs tt tr, first := r.first, block := r.blockKey, size := size }
  | _, _ => none

def rows (c : Collector n) (other : Fin n) : List Row :=
  c.txs.entries.filterMap fun e => c.row c.refCounts other e.2

def pairSummaryOf (A : Arith) (c : Collector n) (other : Fin n) (interval : Nat)
    (rows : List Row) : PairSummary :=
  let n := rows.length
  let diffs := sorted (rows.map (·.diff))
  let count := fun (f : ℚ → Bool) => rows.countP fun x => f x.diff
  let bucketRows := fun b => Stats.bucketRows rows b
  let indices := List.range Stats.buckets.length
  let sizedTxs := (indices.map fun b => (bucketRows b).length).sum
  let sizedBlocks := (indices.map fun b => blocksOf (bucketRows b)).sum
  { reference := (c.sources.get c.reference).name
    other := (c.sources.get other).name
    n := n
    medianMs := A.median diffs
    p10Ms := nearestRank diffs 100
    p90Ms := nearestRank diffs 900
    refFirstPct := A.pct (count (0 < ·)) n
    within1msPct := A.pct (count fun d => |d| ≤ 1) n
    refEarlier5msPct := A.pct (count (5 < ·)) n
    otherEarlier5msPct := A.pct (count (· < -5)) n
    intervals := ((byInterval A c.start interval rows).entries.map fun e =>
      IntervalStats.of A interval e.1 e.2).mergeSort fun a b => a.index ≤ b.index
    sizeSource :=
      if c.nitroPresent then "nitro frame"
      else (c.sources.get c.reference).name ++ " per-block count"
    buckets := Stats.buckets.zipIdx.map fun ((label, _, _), b) =>
      BucketStats.of A label (blocksOf (bucketRows b)) sizedBlocks sizedTxs (bucketRows b) }

/-- Reference source against `other`, over transactions both delivered.  The interval is at
least a second. -/
def pairSummaryIn (A : Arith) (c : Collector n) (other : Fin n) (interval : Nat) : PairSummary :=
  c.pairSummaryOf A other interval
    ((c.rows other).map fun x => { x with diff := A.sample x.diff })

def pairSummary (c : Collector n) (other : Fin n) (interval : Nat) : PairSummary :=
  c.pairSummaryIn .exact other interval

theorem pairSummaryIn_exact (c : Collector n) (other : Fin n) (interval : Nat) :
    c.pairSummaryIn .exact other interval = c.pairSummary other interval := rfl

theorem pairSummary_rows (c : Collector n) (other : Fin n) (interval : Nat) :
    c.pairSummary other interval = c.pairSummaryOf .exact other interval (c.rows other) :=
  congrArg (c.pairSummaryOf .exact other interval) (List.map_id (c.rows other))

end Collector

end FeedBench.Stats
