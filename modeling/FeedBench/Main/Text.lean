import FeedBench.Main.Program
import FeedBench.Report.Render

/-!
# What is printed

The header `main` of `main.rs` puts on the report, and the text it prints at the end: there is
none if the clock of the machine is out of range.
-/

namespace FeedBench.Main

open FeedBench.Report

def chainId : Nat := 4663

def fairnessNote : String :=
  "Timestamps are taken at message arrival, " ++
    "before decoding, for every source. " ++
    "Eira's already-decoded events are therefore " ++
    "compared on equal terms with raw feeds " ++
    "whose consumer still has to decode them."

def stampText : Stamp → String
  | .arrival => "arrival (message in memory, before inflating and parsing)"
  | .decoded => "decoded (after inflating, before parsing; the Go tool's instant)"

/-- The target and the level of a source. -/
def Job.place : Job → Place
  | .nitro src _ _ => ⟨src.url, []⟩
  | .eira addr level => ⟨addr, level.name.toList⟩
  | .wsjson src _ => ⟨src.url, []⟩
  | .wsraw src _ => ⟨src.url, []⟩

structure Host where
  /-- The label given for it, or its name. -/
  name : List Char
  /-- The wall clock before and after the run, in nanoseconds since the epoch. -/
  startWall : Int
  endWall : Int

namespace Program

variable (p : Program)

def printedSummaries (start : Nat) (turns : List (Turn p.n)) : List Stats.BlockSummary :=
  (init (p.collector start)).summariesIn Stats.Double.arith turns

/-- The report that is printed at the end of a run. -/
def printedReport (start stop : Nat) (interrupted : Bool) (turns : List (Turn p.n)) : Report :=
  reportIn Stats.Double.arith ((init (p.collector start)).run turns).col
    (p.printedSummaries start turns) p.minSources p.interval stop interrupted

def cover (stamp : Stamp) (host : Host) (startUtc endUtc : List Char) : Cover where
  tool := "feedbench".toList
  version := "0.1.2".toList
  chainId := chainId
  startUtc := startUtc
  endUtc := endUtc
  hostname := host.name
  stamp := (stampText stamp).toList
  places := p.jobs.toList.map Job.place
  fairnessNote := fairnessNote.toList

def text (stamp : Stamp) (host : Host) (r : Main.Report) : Option (List Char) := do
  let startUtc ← utcString host.startWall
  let endUtc ← utcString host.endWall
  return r.render (p.cover stamp host startUtc endUtc)

end Program

end FeedBench.Main
