import FeedBench.Adapter
import FeedBench.L2

/-!
# The Nitro adapter

`nitro.rs`: one Block event for each feed message and one Tx event for each signed
transaction in it.  Reading JSON, base64 and keccak256 are libraries the program calls, so
they are parameters (`Codec`).  The receiver outlives the run: a send that fails would only
cut the run off there.
-/

namespace FeedBench.Nitro

open Ws Inflate

def maxMessage : Nat := 15 * 1024 * 1024

structure NitroSource where
  name : List Char
  url : List Char

/-! ## Feed frames -/

/-- One entry of `messages`: the fields of it that are read. -/
structure FeedMessage where
  sequenceNumber : UInt64
  blockHash : Option String
  l2Msg : Option String
  deriving DecidableEq

structure Codec where
  /-- `serde_json::from_slice` to a `Frame`, by its `messages`. -/
  fromSlice : List UInt8 → Except String (List FeedMessage)
  /-- `STANDARD.decode`. -/
  base64 : String → Except String (List UInt8)
  keccak256 : List UInt8 → Hash

structure ParsedBlock where
  seq : UInt64
  hash : Option String
  txs : List (Hash × UInt32)
  deriving DecidableEq

inductive ParseError where
  | json (e : String)
  | l2MsgNotBase64 (e : String)
  deriving DecidableEq

variable (codec : Codec)

def messageTxs (m : FeedMessage) : Except ParseError (List (Hash × UInt32)) :=
  match m.l2Msg with
  | none => .ok []
  | some b64 =>
      match codec.base64 b64 with
      | .error e => .error (.l2MsgNotBase64 e)
      | .ok bin =>
          .ok ((L2.signedTxs bin).map fun raw => (codec.keccak256 raw, UInt32.ofNat raw.length))

def parseMessage (m : FeedMessage) : Except ParseError ParsedBlock := do
  let txs ← messageTxs codec m
  return {
    seq := m.sequenceNumber
    hash := m.blockHash.filter fun h => !(Text.trim h.toList).isEmpty
    txs }

def parseFrame (data : List UInt8) : Except ParseError (List ParsedBlock) := do
  let frame ← (codec.fromSlice data).mapError .json
  frame.mapM (parseMessage codec)

/-- The blocks of a message.  Keep-alive and confirmation frames carry none. -/
def blocksOf (m : Message) : List ParsedBlock :=
  match parseFrame codec m.data with
  | .ok blocks => blocks
  | .error _ => []

/-! ## The loop -/

structure Args (n : Nat) where
  index : Fin n
  src : NitroSource
  offer : Offer
  stamp : Stamp

/-- The variables of `run` that live from one connection to the next. -/
structure Locals where
  nextSeq : Option UInt64
  backoff : Nat

def Locals.start : Locals := ⟨none, initialBackoff⟩

def requestedHeader : String := "Arbitrum-Requested-Sequence-Number"

variable {n : Nat} (args : Args n)

def config (nextSeq : Option UInt64) : Config where
  url := args.src.url
  headers := ("Arbitrum-Feed-Client-Version", "2") ::
    nextSeq.toList.map fun n => (requestedHeader, toString n.toNat)
  offer := args.offer
  maxMessage := maxMessage
  pingEvery := 20 * 10 ^ 9
  readTimeout := 60 * 10 ^ 9

def detail (h : Handshake) : String :=
  "compression=" ++ h.compression ++
    ((h.header "arbitrum-feed-server-version").elim "" fun v =>
      " server-version=" ++ String.ofList v) ++
    (h.header "arbitrum-chain-id").elim "" fun v => " chain-id=" ++ String.ofList v

/-- The cursor after a block.  It never moves back, and the greatest number has no successor. -/
def advance (nextSeq : Option UInt64) (seq : UInt64) : Option UInt64 :=
  if seq ≠ 0xFFFFFFFFFFFFFFFF then some (nextSeq.elim (seq + 1) fun n => max n (seq + 1))
  else nextSeq

def seqKey (seq : Nat) : String := "seq:" ++ toString seq

def blockEvents (index : Fin n) (t wireLen : Nat) (b : ParsedBlock) : List (Event n) :=
  let key := seqKey b.seq.toNat
  let count := UInt32.ofNat b.txs.length
  { source := index, t
    payload := .block key (some b.seq) b.hash (some count) (UInt64.ofNat wireLen) } ::
    b.txs.map fun (hash, rawLen) =>
      { source := index, t, payload := .tx hash (some key) (some count) false rawLen }

def messageEvents (m : Message) : List (Event n) :=
  (blocksOf codec m).flatMap (blockEvents args.index (args.stamp.of m) m.wireLen)

def visit (Z : Decompress) (l : Locals) (attempt : Attempt) : Locals × Visit n :=
  let config := config args l.nextSeq
  match (Client.connect attempt.dial config attempt.reads : Dialed Z) with
  | .waiting => (l, { config, messages := [], events := [], sleep := none })
  | .failed e =>
      ({ l with backoff := nextBackoff l.backoff },
        { config, messages := [], events := [], sleep := some (retryDelay e l.backoff) })
  | .connected c left =>
      let (messages, _, ending) := c.session attempt.env (left.map .read ++ attempt.polls)
      let nextSeq := (messages.flatMap (blocksOf codec)).foldl
        (fun nextSeq b => advance nextSeq b.seq) l.nextSeq
      let up : Event n := ⟨args.index, attempt.up, .connected (detail c.handshake)⟩
      let down := ending.toList.map fun e : Ws.Error =>
        (⟨args.index, attempt.down, .disconnected e.message⟩ : Event n)
      (⟨nextSeq, initialBackoff⟩,
        { config, messages
          events := up :: messages.flatMap (messageEvents codec args) ++ down
          sleep := ending.map fun _ => 10 ^ 9 })

def run (Z : Decompress) (l : Locals) : List Attempt → List (Visit n)
  | [] => []
  | attempt :: attempts =>
      let (l, v) := visit codec args Z l attempt
      v :: if v.sleep.isSome then run Z l attempts else []

end FeedBench.Nitro
