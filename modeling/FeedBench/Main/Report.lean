import FeedBench.Main.Loop
import FeedBench.Stats.Tables

/-!
# The report

What `main` of `main.rs` hands to the printer after its loop: the tables of `stats.rs` and the
counters of the collector.  The names of the tool and the host and the wall clock are left to
the printer.
-/

namespace FeedBench.Main

open Stats

variable {n : Nat}

structure SourceReport where
  info : SourceInfo
  detail : String
  reconnects : UInt32
  blockEvents : UInt64
  txEvents : UInt64
  wireBytes : UInt64
  rawTxBytes : UInt64

structure Header where
  durationS : ℚ
  warmupS : ℚ
  minSources : Nat
  summaryIntervalS : Nat
  interrupted : Bool
  sources : List SourceReport
  windowS : ℚ
  matchedBlocks : Nat
  matchedTxs : Nat

structure Report where
  header : Header
  block : BlockSummary
  blockIntervals : List BlockSummary
  tx : TxSummary
  pairs : List PairSummary

def sourceReport (c : Collector n) (i : Fin n) : SourceReport where
  info := c.sources.get i
  detail := c.details.get i
  reconnects := c.reconnects.get i
  blockEvents := c.blockEvents.get i
  txEvents := c.txEvents.get i
  wireBytes := c.wireBytes.get i
  rawTxBytes := c.rawTxBytes.get i

def reportIn (A : Arith) (c : Collector n) (blockIntervals : List BlockSummary)
    (minSources interval stop : Nat) (interrupted : Bool) : Report :=
  let block := c.blockSummaryIn A "whole run" none stop
  let tx := c.txSummaryIn A
  { header :=
      { durationS := A.secs (stop - c.start)
        warmupS := A.secs c.warmup
        minSources := minSources
        summaryIntervalS := interval / 10 ^ 9
        interrupted := interrupted
        sources := (List.finRange n).map (sourceReport c)
        windowS := c.windowSecondsIn A stop
        matchedBlocks := block.completed
        matchedTxs := tx.matched }
    block := block
    blockIntervals := blockIntervals
    tx := tx
    pairs := ((List.finRange n).filter (· ≠ c.reference)).map fun i =>
      c.pairSummaryIn A i interval }

/-- The report with exact figures. -/
def report (m : Main n) (minSources interval stop : Nat) (interrupted : Bool) : Report :=
  reportIn .exact m.col m.blockIntervals minSources interval stop interrupted

def summariesIn (A : Arith) (m : Main n) : List (Turn n) → List BlockSummary
  | [] => []
  | .recv now ev :: turns => (m.step (.recv now ev)).summariesIn A turns
  | .tick now :: turns =>
      m.col.blockSummaryIn A (m.label now) (some m.lastSummary) now ::
        (m.step (.tick now)).summariesIn A turns

theorem summariesIn_exact (m : Main n) (turns : List (Turn n)) :
    (m.run turns).blockIntervals = m.blockIntervals ++ m.summariesIn .exact turns := by
  induction turns generalizing m with
  | nil => exact (List.append_nil _).symm
  | cons turn turns ih =>
      have hrun : m.run (turn :: turns) = (m.step turn).run turns := rfl
      rw [hrun, ih]
      cases turn with
      | recv now ev => rfl
      | tick now => exact List.append_assoc _ _ _

def event : Turn n → Option (Event n)
  | .recv _ ev => some ev
  | .tick _ => none

def received (turns : List (Turn n)) : List (Event n) := turns.filterMap event

theorem col_run (m : Main n) (turns : List (Turn n)) :
    (m.run turns).col = m.col.run (received turns) := by
  induction turns using List.reverseRecOn with
  | nil => rfl
  | append_singleton turns turn ih =>
      rw [run_snoc, received, List.filterMap_append, Collector.run_append]
      cases turn with
      | recv now ev =>
          show ((m.run turns).col.onEvent ev).1 = _
          rw [ih]
          rfl
      | tick now => exact ih

end FeedBench.Main
