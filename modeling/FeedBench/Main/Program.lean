import FeedBench.Main.Setup

/-!
# Programs

What a command line that is accepted stands for: one job for each source.  The infos of the
collector and the tasks are two readings of the list of jobs.
-/

namespace FeedBench.Main

open Stats

namespace Job

def info : Job → SourceInfo
  | .nitro src _ _ => nitroInfo src
  | .eira _ _ => eiraInfo
  | .wsjson src _ => wsjsonInfo src
  | .wsraw src _ => wsrawInfo src

def isEira : Job → Bool
  | .eira _ _ => true
  | _ => false

end Job

/-- The jobs of a program and its settings, as no start-up but a good one leaves them. -/
structure Program where
  n : Nat
  jobs : Vector Job n
  reference : Fin n
  minSources : Nat
  warmup : Nat
  interval : Nat
  names_nodup : (jobs.toList.map fun job => job.info.name).Nodup
  one_le_minSources : 1 ≤ minSources
  minSources_le : minSources ≤ n
  second_le_interval : 10 ^ 9 ≤ interval

namespace Program

variable (p : Program)

def sources : Vector SourceInfo p.n := p.jobs.map Job.info

def collector (start : Nat) : Collector p.n :=
  .new p.sources p.reference p.minSources p.warmup start

@[simp] theorem sources_get (i : Fin p.n) : p.sources.get i = (p.jobs.get i).info := by
  show (p.jobs.map Job.info)[(i : Nat)] = (p.jobs[(i : Nat)]).info
  exact Vector.getElem_map _ i.isLt

end Program

end FeedBench.Main
