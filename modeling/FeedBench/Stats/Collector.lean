import FeedBench.Event
import Mathlib.Data.List.AList

/-!
# The collector

`Collector` and `Collector::on_event` of `stats.rs`.  The two hash maps are association
lists with distinct keys, and the per-source vectors carry their length in their type, so
that an index of an event is in range by construction.  Counters wrap at their width, as
they do in the release profile.
-/

namespace FeedBench.Stats

structure SourceInfo where
  name : String
  /-- `nitro`, `eira`, `wsjson` or `wsraw`. -/
  kind : String
  deriving DecidableEq

structure BlockRec (n : Nat) where
  seq : Option UInt64
  hash : Option String
  txCount : Option UInt32
  arrivals : Vector (Option Nat) n
  first : Nat
  firstSrc : Fin n
  seen : Nat
  /-- Arrival of the delivery that made the block complete. -/
  completedAt : Option Nat
  deriving DecidableEq

structure TxRec (n : Nat) where
  arrivals : Vector (Option Nat) n
  first : Nat
  seen : Nat
  blockKey : Option String
  blockFromNitro : Bool
  txCount : Option UInt32
  syntheticSwap : Bool
  deriving DecidableEq

structure Collector (n : Nat) where
  sources : Vector SourceInfo n
  nitroPresent : Bool
  /-- Index of the reference source for pairwise tables. -/
  reference : Fin n
  minSources : Nat
  warmup : Nat
  start : Nat
  blocks : AList fun _ : String => BlockRec n
  txs : AList fun _ : Hash => TxRec n
  connected : Vector Bool n
  everConnected : Vector Bool n
  reconnects : Vector UInt32 n
  details : Vector String n
  txEvents : Vector UInt64 n
  blockEvents : Vector UInt64 n
  wireBytes : Vector UInt64 n
  rawTxBytes : Vector UInt64 n
  /-- Intervals during which every source was connected. -/
  allUp : List (Nat × Option Nat)

/-- One tab-separated column of a block line.  The two-decimal rendering of a delay in
milliseconds is left to the printer. -/
inductive Column where
  | text (s : String)
  | delay (d : Nat)
  deriving DecidableEq

/-- What `onEvent` reports back to the caller for printing. -/
inductive Notice (n : Nat) where
  | connected (source : Fin n) (detail : String) (reconnect : Bool)
  | disconnected (source : Fin n) (reason : String)
  /-- A block just completed. -/
  | blockLine (cols : List Column)
  deriving DecidableEq

variable {n : Nat}

namespace BlockRec

/-- What `or_insert_with` puts in for a key delivered for the first time. -/
def fresh (seq : Option UInt64) (s : Fin n) (t : Nat) : BlockRec n where
  seq := seq
  hash := none
  txCount := none
  arrivals := .replicate n none
  first := t
  firstSrc := s
  seen := 0
  completedAt := none

/-- The three fields that keep the first value reported for them. -/
def fill (r : BlockRec n) (seq : Option UInt64) (hash : Option String)
    (txCount : Option UInt32) : BlockRec n :=
  { r with
    seq := if r.seq.isNone then seq else r.seq
    hash := if r.hash.isNone then hash else r.hash
    txCount := if r.txCount.isNone then txCount else r.txCount }

def record (r : BlockRec n) (s : Fin n) (t : Nat) : BlockRec n :=
  { r with
    arrivals := r.arrivals.set s (some t) s.isLt
    seen := r.seen + 1
    first := if t < r.first then t else r.first
    firstSrc := if t < r.first then s else r.firstSrc }

def lastArrival (r : BlockRec n) (t : Nat) : Nat :=
  ((r.arrivals.toList.filterMap id).max?).getD t

/-- A delivery of the block by source `s`, and whether it completed the block. -/
def deliver (r : BlockRec n) (minSources : Nat) (s : Fin n) (t : Nat) :
    BlockRec n × Bool :=
  if (r.arrivals.get s).isSome then
    (r, false) -- duplicate delivery (backlog replay after a reconnect)
  else
    let r := r.record s t
    if r.seen = minSources then
      ({ r with completedAt := some (r.lastArrival t) }, true)
    else
      (r, false)

def line (r : BlockRec n) (sources : Vector SourceInfo n) (key : String) : List Column :=
  [.text "[block]", .text (r.seq.elim "-" toString), .text (r.hash.getD key)] ++
    r.arrivals.toList.map (fun a => a.elim (.text "NA") fun a => .delay (a - r.first)) ++
    [.text (sources.get r.firstSrc).name]

end BlockRec

namespace TxRec

def fresh (t : Nat) : TxRec n where
  arrivals := .replicate n none
  first := t
  seen := 0
  blockKey := none
  blockFromNitro := false
  txCount := none
  syntheticSwap := false

/-- The block attribution, the transaction count of the block and the swap flag. -/
def fill (r : TxRec n) (fromNitro : Bool) (blockKey : Option String)
    (txCount : Option UInt32) (syntheticSwap : Bool) : TxRec n :=
  let takesKey := blockKey.isSome &&
    (r.blockKey.isNone || (fromNitro && !r.blockFromNitro))
  { r with
    blockKey := if takesKey then blockKey else r.blockKey
    blockFromNitro := if takesKey then fromNitro else r.blockFromNitro
    txCount := if fromNitro && txCount.isSome then txCount else r.txCount
    syntheticSwap := r.syntheticSwap || syntheticSwap }

def deliver (r : TxRec n) (s : Fin n) (t : Nat) : TxRec n :=
  if (r.arrivals.get s).isSome then
    r
  else
    { r with
      arrivals := r.arrivals.set s (some t) s.isLt
      seen := r.seen + 1
      first := if t < r.first then t else r.first }

end TxRec

namespace Collector

def new (sources : Vector SourceInfo n) (reference : Fin n) (minSources : Nat)
    (warmup : Nat) (start : Nat) : Collector n where
  sources := sources
  nitroPresent := sources.toList.any (·.kind == "nitro")
  reference := reference
  minSources := max 1 (min minSources (max n 1))
  warmup := warmup
  start := start
  blocks := ∅
  txs := ∅
  connected := .replicate n false
  everConnected := .replicate n false
  reconnects := .replicate n 0
  details := .replicate n ""
  txEvents := .replicate n 0
  blockEvents := .replicate n 0
  wireBytes := .replicate n 0
  rawTxBytes := .replicate n 0
  allUp := []

def twoSources : Vector SourceInfo 2 := #v[⟨"official", "nitro"⟩, ⟨"eira", "eira"⟩]

abbrev official : Fin 2 := 0
abbrev eira : Fin 2 := 1

def allConnected (c : Collector n) : Bool := c.connected.toList.all id

def lastOpen (allUp : List (Nat × Option Nat)) : Bool :=
  match allUp.getLast? with
  | some (_, none) => true
  | _ => false

def closeLast (allUp : List (Nat × Option Nat)) (t : Nat) :
    List (Nat × Option Nat) :=
  match allUp.getLast? with
  | some (a, none) => allUp.dropLast ++ [(a, some t)]
  | _ => allUp

def onConnected (c : Collector n) (s : Fin n) (t : Nat) (detail : String) :
    Collector n × Option (Notice n) :=
  if c.connected.get s then
    ({ c with details := c.details.set s detail s.isLt }, none)
  else
    let reconnect := c.everConnected.get s
    let c := { c with
      reconnects :=
        if reconnect then c.reconnects.set s (c.reconnects.get s + 1) s.isLt else c.reconnects
      connected := c.connected.set s true s.isLt
      everConnected := c.everConnected.set s true s.isLt
      details := c.details.set s detail s.isLt }
    let c := if c.allConnected && !lastOpen c.allUp then
        { c with allUp := c.allUp ++ [(t, none)] }
      else c
    (c, some (.connected s detail reconnect))

def onDisconnected (c : Collector n) (s : Fin n) (t : Nat) (reason : String) :
    Collector n × Option (Notice n) :=
  if !c.connected.get s then
    (c, none)
  else
    ({ c with
        connected := c.connected.set s false s.isLt
        allUp := closeLast c.allUp t }, some (.disconnected s reason))

def onBlock (c : Collector n) (s : Fin n) (t : Nat) (key : String) (seq : Option UInt64)
    (hash : Option String) (txCount : Option UInt32) (wireLen : UInt64) :
    Collector n × Option (Notice n) :=
  let r₀ := ((c.blocks.lookup key).getD (.fresh seq s t)).fill seq hash txCount
  let (r₁, complete) := r₀.deliver c.minSources s t
  ({ c with
      blockEvents := c.blockEvents.set s (c.blockEvents.get s + 1) s.isLt
      wireBytes := c.wireBytes.set s (c.wireBytes.get s + wireLen) s.isLt
      blocks := c.blocks.insert key r₁ },
    if complete then some (.blockLine (r₁.line c.sources key)) else none)

def onTx (c : Collector n) (s : Fin n) (t : Nat) (hash : Hash) (blockKey : Option String)
    (txCount : Option UInt32) (syntheticSwap : Bool) (rawLen : UInt32) :
    Collector n × Option (Notice n) :=
  let fromNitro := (c.sources.get s).kind == "nitro"
  let r₀ := ((c.txs.lookup hash).getD (.fresh t)).fill fromNitro blockKey txCount syntheticSwap
  ({ c with
      txEvents := c.txEvents.set s (c.txEvents.get s + 1) s.isLt
      rawTxBytes := c.rawTxBytes.set s (c.rawTxBytes.get s + rawLen.toUInt64) s.isLt
      txs := c.txs.insert hash (r₀.deliver s t) }, none)

/-- `Collector::on_event`: the collector after the event, and what to print. -/
def onEvent (c : Collector n) (e : Event n) : Collector n × Option (Notice n) :=
  match e.payload with
  | .connected detail => c.onConnected e.source e.t detail
  | .disconnected reason => c.onDisconnected e.source e.t reason
  | .block key seq hash txCount wireLen => c.onBlock e.source e.t key seq hash txCount wireLen
  | .tx hash blockKey txCount syntheticSwap rawLen =>
      c.onTx e.source e.t hash blockKey txCount syntheticSwap rawLen

def run (c : Collector n) (es : List (Event n)) : Collector n :=
  es.foldl (fun c e => (c.onEvent e).1) c

@[simp] theorem run_nil (c : Collector n) : c.run [] = c := rfl

@[simp] theorem run_cons (c : Collector n) (e : Event n) (es : List (Event n)) :
    c.run (e :: es) = (c.onEvent e).1.run es := rfl

@[simp] theorem run_append (c : Collector n) (es es' : List (Event n)) :
    c.run (es ++ es') = (c.run es).run es' := List.foldl_append

end Collector

end FeedBench.Stats
