import FeedBench.Lib.Groups
import FeedBench.Stats.Collector
import Mathlib.Algebra.Order.Field.Rat
import Mathlib.Tactic.Positivity

/-!
# The measurement window and the block table

`in_window`, `window_seconds` and `block_summary` of `stats.rs`, with the percentiles the
table is made of.  Where the source has floating-point numbers the tables are computed by an
`Arith`: `Arith.exact` does not round.  The percentiles need no more than the order of the samples.
-/

namespace FeedBench.Stats

open Lib

variable {T : Type*}

def secs (d : Nat) : ℚ := d / 10 ^ 9

@[simp] theorem secs_zero : secs 0 = 0 := by simp [secs]

theorem secs_add (d d' : Nat) : secs (d + d') = secs d + secs d' := by
  unfold secs
  rw [Nat.cast_add, add_div]

theorem secs_nonneg (d : Nat) : 0 ≤ secs d := by
  unfold secs
  positivity

def ms (d : Nat) : ℚ := secs d * 1000

/-- Nearest-rank percentile on sorted samples. -/
def nearestRank [Zero T] (sorted : List T) (permille : Nat) : T :=
  if sorted.isEmpty then 0
  else
    let n := sorted.length
    let rank := max 1 (min ((permille * n + 999) / 1000) n)
    sorted.getD (rank - 1) 0

def sorted [LinearOrder T] (v : List T) : List T := v.mergeSort fun a b => decide (a ≤ b)

@[simp] theorem sorted_length [LinearOrder T] (v : List T) : (sorted v).length = v.length :=
  List.length_mergeSort v

def pct (part whole : Nat) : ℚ := if whole = 0 then 0 else part * 100 / whole

def median (sorted : List ℚ) : ℚ :=
  let n := sorted.length
  if n = 0 then 0
  else if n % 2 = 1 then sorted.getD (n / 2) 0
  else (sorted.getD (n / 2 - 1) 0 + sorted.getD (n / 2) 0) / 2

/-- How the figures of a report are computed from durations and counts. -/
structure Arith where
  secs : Nat → ℚ
  sum : List ℚ → ℚ
  /-- The value of an exact difference in milliseconds. -/
  sample : ℚ → ℚ
  pct : Nat → Nat → ℚ
  median : List ℚ → ℚ
  /-- The interval that an instant is in, so long after the start. -/
  intervalOf : Nat → Nat → Nat
  intervalStart : Nat → Nat → ℚ

def Arith.exact : Arith where
  secs := Stats.secs
  sum := List.sum
  sample x := x
  pct := Stats.pct
  median := Stats.median
  intervalOf elapsed interval := elapsed / interval
  intervalStart idx interval := idx * Stats.secs interval

@[simp] theorem map_exact (v : List ℚ) : v.map Arith.exact.sample = v := List.map_id v

structure Percentiles (T : Type*) where
  n : Nat
  p10 : T
  p50 : T
  p75 : T
  p90 : T
  p95 : T
  p99 : T
  p999 : T
  max : T

def Percentiles.of [LinearOrder T] [Zero T] (samples : List T) : Percentiles T :=
  let s := sorted samples
  { n := s.length
    p10 := nearestRank s 100
    p50 := nearestRank s 500
    p75 := nearestRank s 750
    p90 := nearestRank s 900
    p95 := nearestRank s 950
    p99 := nearestRank s 990
    p999 := nearestRank s 999
    max := s.getLast?.getD 0 }

structure BlockSourceStats where
  name : String
  wins : Nat
  winPct : ℚ
  delay : Percentiles ℚ

structure BlockSummary where
  label : String
  completed : Nat
  perSource : List BlockSourceStats

variable {n : Nat}

structure BlockTable (n : Nat) where
  wins : Vector Nat n
  samples : Vector (List ℚ) n
  completed : Nat

def BlockTable.empty : BlockTable n where
  wins := .replicate n 0
  samples := .replicate n []
  completed := 0

def BlockTable.add (table : BlockTable n) (r : BlockRec n) : BlockTable n where
  wins := table.wins.set r.firstSrc (table.wins.get r.firstSrc + 1) r.firstSrc.isLt
  samples := .ofFn fun i =>
    match r.arrivals.get i with
    | some a => table.samples.get i ++ [ms (a - r.first)]
    | none => table.samples.get i
  completed := table.completed + 1

namespace Collector

/-- Is `t` inside a stretch where every source was connected, past the warm-up? -/
def inWindow (c : Collector n) (t : Nat) : Bool :=
  c.allUp.any fun (a, b) => a + c.warmup ≤ t && b.all (t < ·)

def windowSecondsIn (A : Arith) (c : Collector n) (now : Nat) : ℚ :=
  max (A.sum (c.allUp.map fun (a, b) =>
    let stop := b.getD now
    let start := a + c.warmup
    if start < stop then A.secs (stop - start) else 0)) 0

def windowSeconds (c : Collector n) (now : Nat) : ℚ := c.windowSecondsIn .exact now

theorem windowSecondsIn_exact (c : Collector n) (now : Nat) :
    c.windowSecondsIn .exact now = c.windowSeconds now := rfl

/-- Whether `blockSummary` over `(since, til]` counts the block. -/
def counts (c : Collector n) (since : Option Nat) (til : Nat) (r : BlockRec n) : Bool :=
  match r.completedAt with
  | none => false
  | some done => !(til < done || since.any (done ≤ ·) || !c.inWindow r.first)

def blockTable (c : Collector n) (since : Option Nat) (til : Nat) : BlockTable n :=
  c.blocks.entries.foldl
    (fun table entry => if c.counts since til entry.2 then table.add entry.2 else table)
    BlockTable.empty

/-- Block-level summary over completed blocks whose completion falls in `(since, til]`
(`none`: the whole run), restricted to the all-connected window. -/
def blockSummaryIn (A : Arith) (c : Collector n) (label : String) (since : Option Nat)
    (til : Nat) : BlockSummary :=
  let table := c.blockTable since til
  { label := label
    completed := table.completed
    perSource := (List.finRange n).map fun i =>
      { name := (c.sources.get i).name
        wins := table.wins.get i
        winPct := A.pct (table.wins.get i) table.completed
        delay := Percentiles.of ((table.samples.get i).map A.sample) } }

def blockSummary (c : Collector n) (label : String) (since : Option Nat) (til : Nat) :
    BlockSummary := c.blockSummaryIn .exact label since til

theorem blockSummaryIn_exact (c : Collector n) (label : String) (since : Option Nat) (til : Nat) :
    c.blockSummaryIn .exact label since til = c.blockSummary label since til := rfl

theorem blockSummary_completed (c : Collector n) (label : String) (since : Option Nat)
    (til : Nat) : (c.blockSummary label since til).completed =
      c.blocks.entries.countP fun entry => c.counts since til entry.2 := by
  have hstep : ∀ (table : BlockTable n) (entry : Sigma fun _ : String => BlockRec n),
      (if c.counts since til entry.2 then table.add entry.2 else table).completed =
        table.completed + (c.counts since til entry.2).toNat := by
    intro table entry
    cases c.counts since til entry.2 <;> rfl
  calc (c.blockSummary label since til).completed
      = 0 + c.blocks.entries.countP fun entry => c.counts since til entry.2 :=
        foldl_count BlockTable.completed hstep BlockTable.empty c.blocks.entries
    _ = c.blocks.entries.countP fun entry => c.counts since til entry.2 := Nat.zero_add _

end Collector

end FeedBench.Stats
