import FeedBench.Lib.OrderStat
import FeedBench.Main.Program

/-!
# What the command line starts

Each spec stands for one job.  The infos of the collector and the tasks are two readings of the
list of these jobs, so the index a task stamps its events with is the index of its own source.
-/

namespace FeedBench

open Stats

namespace Main

/-! ## Jobs -/

def jobsOf (args : Args) (nitro : List Nitro.NitroSource) (wsjson : List WsJson.WsJsonSource)
    (wsraw : List WsRaw.WsRawSource) : List Job :=
  (nitro.map fun src => .nitro src args.compression args.stamp) ++
    ((args.eira.toList.map fun addr => .eira addr args.eiraLevel) ++
      ((wsjson.map fun src => .wsjson src args.stamp) ++ wsraw.map fun src => .wsraw src args.stamp))

def requested (args : Args) : Except StartError (List Job) := do
  let nitro ← args.sources.mapM parseNitro
  let wsjson ← args.wsjson.mapM parseWsjson
  let wsraw ← args.wsraw.mapM parseWsraw
  return jobsOf args nitro wsjson wsraw

structure Reads (args : Args) (p : Parsed) (jobs : List Job) : Prop where
  infos : p.infos = jobs.map Job.info
  tasks : tasks args p = jobs.zipIdx.map Prod.swap
  eiraIndex : p.eiraIndex = jobs.findIdx? Job.isEira

/-- What a program has to do with the command line it was started with. -/
structure Follows (args : Args) (p : Program) : Prop where
  jobs : requested args = .ok p.jobs.toList
  /-- The Eira source is the reference, if there is one, and else the first source. -/
  reference : if args.eira.isSome then (p.jobs.get p.reference).isEira = true
    else (p.reference : Nat) = 0
  minSources : ∀ m, args.minSources.getD p.n = m → 1 ≤ m → m ≤ p.n → p.minSources = m
  warmup : ∃ s, args.warmup.maxZero = .finite s ∧ |(p.warmup : ℚ) - s * 10 ^ 9| ≤ 1 / 2 ∧
    p.warmup < 2 ^ 64 * 10 ^ 9
  interval : p.interval = max args.summaryInterval 1 * 10 ^ 9

def F64.TooLong (w : F64) : Prop :=
  w.maxZero = .infinite false ∨
    ∃ s, w.maxZero = .finite s ∧ 2 ^ 64 * 10 ^ 9 ≤ Lib.roundEven (s * 10 ^ 9)

/-- Why nothing is started: a spec is wrong, there is none, two bear the same name, or the
warm-up is no duration.  The first of these is told. -/
def Refuses (args : Args) (e : StartError) : Prop :=
  match requested args with
  | .error e' => e = e'
  | .ok [] => e = .noSources
  | .ok jobs =>
      (¬(jobs.map fun job => job.info.name).Nodup ∧ e = .namesNotUnique) ∨
        ((jobs.map fun job => job.info.name).Nodup ∧ args.warmup.TooLong ∧ e = .warmup)

def Setup.of (args : Args) (jobs : List Job) (warmup : Nat) : Setup where
  infos := jobs.map Job.info
  tasks := jobs.zipIdx.map Prod.swap
  reference := (jobs.findIdx? Job.isEira).getD 0
  minSources := max 1 (min (args.minSources.getD jobs.length) jobs.length)
  warmup := warmup
  interval := max args.summaryInterval 1 * 10 ^ 9

end Main

end FeedBench
