import FeedBench.Eira.Session
import FeedBench.Lib.Rounding
import FeedBench.Spec
import FeedBench.Stats.Collector
import Mathlib.Data.Rat.Floor
import Mathlib.Data.String.Basic

/-!
# Start-up

`main` of `main.rs` up to the first task: the specs of the command line become the sources of
the collector and the tasks that feed it.  The two are built in two passes, and a task is told
the index of its source by a counter of its own.
-/

namespace FeedBench

open Stats

namespace Nitro

inductive SpecError where
  | expectedUrl
  | expectedWsUrl (spec : List Char)
  deriving DecidableEq

/-- The text of an error, by how a string is debug formatted. -/
def SpecError.message (debug : List Char → String) : SpecError → String
  | .expectedUrl => "expected name=url"
  | .expectedWsUrl spec => "expected name=ws(s)://url, got " ++ debug spec

/-- `NitroSource::parse`: `name=wss://host/path` -/
def NitroSource.parse (spec : List Char) : Except SpecError NitroSource :=
  match Text.splitOnce ['='] spec with
  | none => .error .expectedUrl
  | some (name, url) =>
      if name.isEmpty || !Text.contains "://".toList url then .error (.expectedWsUrl spec)
      else .ok { name, url }

end Nitro

namespace Main

inductive F64 where
  | nan
  | infinite (negative : Bool)
  | finite (x : ℚ)

def F64.maxZero : F64 → F64
  | .nan => .finite 0
  | .infinite negative => if negative then .finite 0 else .infinite false
  | .finite x => .finite (max x 0)

structure Args where
  sources : List (List Char)
  eira : Option (List Char)
  eiraLevel : Eira.Level
  wsjson : List (List Char)
  wsraw : List (List Char)
  minSources : Option Nat
  /-- Seconds. -/
  warmup : F64
  /-- Seconds. -/
  summaryInterval : Nat
  stamp : Stamp
  compression : Ws.Offer

inductive StartError where
  | nitro (e : Nitro.SpecError)
  | spec (e : Spec.Error)
  | noSources
  | namesNotUnique
  /-- `Duration::from_secs_f64` panics. -/
  | warmup
  deriving DecidableEq

/-- The text of what `main` returns, which it does not on a panic. -/
def StartError.message (debug : List Char → String) : StartError → Option String
  | .nitro e => some (e.message debug)
  | .spec e => some (e.message debug)
  | .noSources => some
      "no sources: pass --source NAME=wss://..., --eira HOST:PORT, --wsjson SPEC and/or --wsraw SPEC"
  | .namesNotUnique => some "source names must be unique"
  | .warmup => none

/-! ## The sources -/

def nitroInfo (src : Nitro.NitroSource) : SourceInfo := ⟨String.ofList src.name, "nitro"⟩

def eiraInfo : SourceInfo := ⟨"eira", "eira"⟩

def wsjsonInfo (src : WsJson.WsJsonSource) : SourceInfo := ⟨String.ofList src.name, "wsjson"⟩

def wsrawInfo (src : WsRaw.WsRawSource) : SourceInfo := ⟨String.ofList src.name, "wsraw"⟩

def parseOne {Source : Type} (parse : List Char → Except StartError Source)
    (info : Source → SourceInfo) (acc : List SourceInfo × List Source) (s : List Char) :
    Except StartError (List SourceInfo × List Source) := do
  let src ← parse s
  return (acc.1 ++ [info src], acc.2 ++ [src])

def parseEach {Source : Type} (parse : List Char → Except StartError Source)
    (info : Source → SourceInfo) (specs : List (List Char)) (infos : List SourceInfo) :
    Except StartError (List SourceInfo × List Source) :=
  specs.foldlM (parseOne parse info) (infos, [])

structure Parsed where
  infos : List SourceInfo
  nitro : List Nitro.NitroSource
  eiraIndex : Option Nat
  wsjson : List WsJson.WsJsonSource
  wsraw : List WsRaw.WsRawSource

def parseNitro (s : List Char) : Except StartError Nitro.NitroSource :=
  (Nitro.NitroSource.parse s).mapError .nitro

def parseWsjson (s : List Char) : Except StartError WsJson.WsJsonSource :=
  (WsJson.WsJsonSource.parse s).mapError .spec

def parseWsraw (s : List Char) : Except StartError WsRaw.WsRawSource :=
  (WsRaw.WsRawSource.parse s).mapError .spec

def parse (args : Args) : Except StartError Parsed := do
  let (infos, nitro) ← parseEach parseNitro nitroInfo args.sources []
  let eiraIndex := args.eira.map fun _ => infos.length
  let infos := infos ++ (args.eira.map fun _ => eiraInfo).toList
  let (infos, wsjson) ← parseEach parseWsjson wsjsonInfo args.wsjson infos
  let (infos, wsraw) ← parseEach parseWsraw wsrawInfo args.wsraw infos
  return { infos, nitro, eiraIndex, wsjson, wsraw }

inductive Job where
  | nitro (src : Nitro.NitroSource) (offer : Ws.Offer) (stamp : Stamp)
  | eira (addr : List Char) (level : Eira.Level)
  | wsjson (src : WsJson.WsJsonSource) (stamp : Stamp)
  | wsraw (src : WsRaw.WsRawSource) (stamp : Stamp)

def spawn (state : List (Nat × Job) × Nat) (job : Job) : List (Nat × Job) × Nat :=
  (state.1 ++ [(state.2, job)], state.2 + 1)

def tasks (args : Args) (p : Parsed) : List (Nat × Job) :=
  let state := (p.nitro.map fun src => .nitro src args.compression args.stamp).foldl spawn ([], 0)
  let state := (args.eira.toList.map fun addr => .eira addr args.eiraLevel).foldl spawn state
  let state := (p.wsjson.map fun src => .wsjson src args.stamp).foldl spawn state
  ((p.wsraw.map fun src => .wsraw src args.stamp).foldl spawn state).1

/-! ## The settings -/

structure Setup where
  infos : List SourceInfo
  /-- Each task with the index it stamps its events with. -/
  tasks : List (Nat × Job)
  reference : Nat
  minSources : Nat
  warmup : Nat
  interval : Nat

end Main

end FeedBench
