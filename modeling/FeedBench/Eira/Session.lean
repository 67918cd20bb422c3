import FeedBench.Event
import Mathlib.Data.Finset.Card

/-!
# The Eira adapter

`session` and `run` of `eira.rs`, from the decoded updates on.  The fields of an update are
those the adapter reads, and the number a commitment level has on the wire belongs to the
protocol definition, so it is a parameter.  The receiver outlives the run: a send that fails
would only cut the run off there.
-/

namespace FeedBench.Eira

inductive Level where
  | received
  | processed
  | confirmed
  deriving DecidableEq

def Level.name : Level → String
  | .received => "RECEIVED"
  | .processed => "PROCESSED"
  | .confirmed => "CONFIRMED"

/-- Synthetic log marker: a predicted swap. -/
def syntheticSwap : UInt32 := 0xFFFF_FFFE

/-! ## Updates -/

structure Transaction where
  transactionHash : List UInt8
  commitment : Int
  feedSequence : UInt64
  blockNumber : Nat
  /-- The `transaction_log_index` of each log. -/
  logs : List UInt32
  rawTx : List UInt8

inductive Update where
  | ack (filterCount : Nat)
  | sourceStatus (commitment : Int) (connected : Bool) (sourceEpoch : Nat)
  | transaction (t : Transaction)
  /-- An update the session ignores. -/
  | other

structure Stamped where
  t : Nat
  update : Update

namespace Transaction

variable (t : Transaction)

def blockKey : String :=
  if 0 < t.feedSequence then "seq:" ++ toString t.feedSequence.toNat
  else "num:" ++ toString t.blockNumber

def seq : Option UInt64 := if 0 < t.feedSequence then some t.feedSequence else none

def swaps : Bool := t.logs.any (· == syntheticSwap)

def accept (wanted : Int) : Option Hash :=
  if h : t.transactionHash.length = 32 ∧ t.commitment = wanted then
    some ⟨t.transactionHash.toArray, by simpa using h.1⟩
  else none

end Transaction

/-! ## A session -/

variable {n : Nat}

structure Args (n : Nat) where
  index : Fin n
  level : Level
  /-- `level.commitment() as i32`. -/
  commitment : Level → Int

def Args.wanted (args : Args n) : Int := args.commitment args.level

structure Locals where
  announced : Bool
  seenBlocks : Finset String

def Locals.start : Locals := ⟨false, ∅⟩

/-- The keys on record when a transaction is looked at. -/
def Locals.trim (l : Locals) : Finset String :=
  if 100000 < l.seenBlocks.card then ∅ else l.seenBlocks

variable (args : Args n)

def blockEvent (s : Nat) (t : Transaction) : Event n :=
  ⟨args.index, s, .block t.blockKey t.seq none none 0⟩

def txEvent (s : Nat) (t : Transaction) (hash : Hash) : Event n :=
  ⟨args.index, s, .tx hash (some t.blockKey) none t.swaps (UInt32.ofNat t.rawTx.length)⟩

def step (l : Locals) (s : Stamped) : Locals × List (Event n) :=
  match s.update with
  | .ack filterCount =>
      if l.announced then (l, [])
      else
        let detail := "level=" ++ args.level.name ++ " filters=" ++ toString filterCount
        ({ l with announced := true }, [⟨args.index, s.t, .connected detail⟩])
  | .sourceStatus commitment connected sourceEpoch =>
      if commitment = args.wanted ∧ l.announced then
        let payload :=
          if connected then
            Payload.connected ("level=" ++ args.level.name ++ " upstream reconnected (epoch " ++
              toString sourceEpoch ++ ")")
          else
            Payload.disconnected
              ("upstream source for " ++ args.level.name ++ " disconnected")
        (l, [⟨args.index, s.t, payload⟩])
      else (l, [])
  | .transaction t =>
      match t.accept args.wanted with
      | none => (l, [])
      | some hash =>
          let seen := l.trim
          let block := if t.blockKey ∈ seen then [] else [blockEvent args s.t t]
          ({ l with seenBlocks := insert t.blockKey seen }, block ++ [txEvent args s.t t hash])
  | .other => (l, [])

/-- The updates of a session, and when and why it ended, unless it is still running. -/
structure Session where
  updates : List Stamped
  ending : Option (Nat × String)

def loop : Locals → List Stamped → List (Event n)
  | _, [] => []
  | l, s :: updates => (step args l s).2 ++ loop (step args l s).1 updates

def Session.down (session : Session) : List (Event n) :=
  session.ending.toList.map fun (t, reason) => ⟨args.index, t, .disconnected reason⟩

/-- What `run` sends.  A session that cannot be opened has no updates. -/
def run : List Session → List (Event n)
  | [] => []
  | session :: sessions =>
      loop args .start session.updates ++ session.down args ++
        if session.ending.isSome then run sessions else []

end FeedBench.Eira
