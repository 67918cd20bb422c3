import FeedBench.Ws.Handshake
import FeedBench.Ws.Proofs.Frame

/-!
# The client

`Client::connect` and `Client::next_message` of `ws.rs`.  Everything outside the process is
an argument: the outcome of each `select!` (`Poll`), and the random masks, the fate of the
writes and the clock readings after inflating (`Env`).  The frames written to the server are
kept in order.
-/

namespace FeedBench.Ws

open Inflate

structure Message where
  data : List UInt8
  /-- When the last byte of the message reached this process (before inflating). -/
  arrival : Nat
  /-- After inflating, before any parsing. -/
  decoded : Nat
  wireLen : Nat
  deriving DecidableEq

structure OpenMessage where
  compressed : Bool
  acc : List UInt8
  wireLen : Nat

structure Client (Z : Decompress) where
  buf : List UInt8
  inflater : Option (Inflater Z)
  openMsg : Option OpenMessage
  /-- Instant of the read that last added bytes to `buf`. -/
  lastRead : Nat
  max : Nat
  pingEvery : Nat
  nextPing : Nat
  readTimeout : Nat
  handshake : Handshake
  /-- The frames written so far. -/
  written : List Sent
  /-- How many messages were finished so far. -/
  finished : Nat

/-- The outside world: the mask of the `k`-th frame written, why writing it fails if it
does, and the clock after the `k`-th message was finished. -/
structure Env where
  mask : Nat → Vector UInt8 4
  writeError : Nat → Option Error
  decoded : Nat → Nat

/-- How the `select!` of `next_message` ends. -/
inductive Poll where
  | read (r : Read)
  | pingDue (now : Nat)
  deriving DecidableEq

/-- How `connect` ends, and the reads it left.  A handshake that ran out of reads is still
waiting. -/
inductive Dialed (Z : Decompress) where
  | connected (c : Client Z) (reads : List Read)
  | failed (e : ConnectError)
  | waiting

/-- How one call of `next_message` ends, and the polls it left.  A call that ran out of polls
is still waiting. -/
inductive Outcome (Z : Decompress) where
  | message (m : Message) (c : Client Z) (polls : List Poll)
  | failed (e : Error) (c : Client Z)
  | waiting (c : Client Z)

namespace Client

variable {Z : Decompress} (env : Env)

def accepted (cfg : Config) (now : Nat) (buf : List UInt8)
    (headers : List (List Char × List Char)) (mode : Option Mode) (inflater : Option (Inflater Z)) :
    Client Z where
  buf
  inflater
  openMsg := none
  lastRead := now
  max := cfg.maxMessage
  pingEvery := cfg.pingEvery
  nextPing := now + cfg.pingEvery
  readTimeout := cfg.readTimeout
  handshake := { compression := (mode.map Mode.name).getD "none", serverHeaders := headers }
  written := []
  finished := 0

def ofHead (dial : Dial) (cfg : Config) (head rest : List UInt8) :
    Except ConnectError (Client Z) := do
  let (headers, mode) ← acceptHead (dial.accept dial.key) cfg.offer head
  let inflater ←
    match mode with
    | some m => ((Inflater.new m cfg.maxMessage).mapError .inflate).map some
    | none => .ok none
  return accepted cfg dial.now rest headers mode inflater

def connect (dial : Dial) (cfg : Config) (reads : List Read) : Dialed Z :=
  match parseUrl cfg.url with
  | .error e => .failed e
  | .ok url =>
      match dial.failure url (request cfg url dial.key) with
      | some e => .failed (.dial e)
      | none =>
          match readHead [] reads with
          | none => .waiting
          | some (.error e) => .failed e
          | some (.ok (i, buf, reads)) =>
              match ofHead dial cfg (buf.take i) (buf.drop (i + 4)) with
              | .error e => .failed e
              | .ok c => .connected c reads

def write (c : Client Z) (payload : List UInt8) (opcode : UInt8) : Client Z × Except Error Unit :=
  match env.writeError c.written.length with
  | some e => (c, .error e)
  | none =>
      ({ c with written := c.written ++ [⟨payload, opcode, env.mask c.written.length⟩] }, .ok ())

def sendText (c : Client Z) (text : List Char) : Client Z × Except Error Unit :=
  c.write env (Text.asBytes text) opText

def deliver (c : Client Z) (data : List UInt8) (wireLen arrival : Nat) :
    Client Z × Except Error (Option Message) :=
  ({ c with finished := c.finished + 1 },
    .ok (some { data, arrival, decoded := env.decoded c.finished, wireLen }))

def finish (c : Client Z) (compressed : Bool) (payload : List UInt8) (wireLen arrival : Nat) :
    Client Z × Except Error (Option Message) :=
  if compressed then
    match c.inflater with
    | none => (c, .error .noInflater)
    | some inf =>
        match inf.inflateMessage payload with
        | .error e => (c, .error (.inflate e))
        | .ok (data, inf) => deliver env { c with inflater := some inf } data wireLen arrival
  else
    deliver env c payload wireLen arrival

def dataFrame (c : Client Z) (f : Frame) (arrival : Nat) :
    Client Z × Except Error (Option Message) :=
  if f.opcode = opText ∨ f.opcode = opBinary then
    if c.openMsg.isSome then (c, .error .dataInsideMessage)
    else if f.rsv1 ∧ c.inflater.isNone then (c, .error .notNegotiated)
    else if f.fin then c.finish env f.rsv1 f.payload f.wireLen arrival
    else ({ c with openMsg := some ⟨f.rsv1, f.payload, f.wireLen⟩ }, .ok none)
  else
    match c.openMsg with
    | none => (c, .error .strayContinuation)
    | some o =>
        let c := { c with openMsg := none }
        let o := { o with acc := o.acc ++ f.payload, wireLen := o.wireLen + f.wireLen }
        if c.max < o.acc.length then (c, .error (.messageTooLong c.max))
        else if f.fin then c.finish env o.compressed o.acc o.wireLen arrival
        else ({ c with openMsg := some o }, .ok none)

def onFrame (c : Client Z) (f : Frame) : Client Z × Except Error (Option Message) :=
  let arrival := c.lastRead
  if f.opcode = opText ∨ f.opcode = opBinary ∨ f.opcode = opCont then c.dataFrame env f arrival
  else if f.opcode = opPing then
    match c.write env f.payload opPong with
    | (c, .error e) => (c, .error e)
    | (c, .ok ()) => (c, .ok none)
  else if f.opcode = opPong then (c, .ok none)
  else if f.opcode = opClose then
    let code := if 2 ≤ f.payload.length then some (beNat (f.payload.take 2)) else none
    -- the result of writing the close frame is dropped
    let (c, _) := c.write env (f.payload.take 2) opClose
    (c, .error (.closedByServer code (f.payload.drop 2)))
  else (c, .error (.unknownOpcode f.opcode))

structure SameClock (c c' : Client Z) : Prop where
  max : c'.max = c.max
  lastRead : c'.lastRead = c.lastRead
  pingEvery : c'.pingEvery = c.pingEvery
  nextPing : c'.nextPing = c.nextPing
  readTimeout : c'.readTimeout = c.readTimeout

theorem SameClock.refl (c : Client Z) : c.SameClock c := ⟨rfl, rfl, rfl, rfl, rfl⟩

theorem SameClock.trans {c c' c'' : Client Z} (h : c.SameClock c') (h' : c'.SameClock c'') :
    c.SameClock c'' where
  max := h'.max.trans h.max
  lastRead := h'.lastRead.trans h.lastRead
  pingEvery := h'.pingEvery.trans h.pingEvery
  nextPing := h'.nextPing.trans h.nextPing
  readTimeout := h'.readTimeout.trans h.readTimeout

/-- The parts of the client that acting on a frame leaves alone. -/
structure SameRead (c c' : Client Z) : Prop extends SameClock c c' where
  buf : c'.buf = c.buf

theorem SameRead.refl (c : Client Z) : c.SameRead c := ⟨.refl c, rfl⟩

theorem SameRead.trans {c c' c'' : Client Z} (h : c.SameRead c') (h' : c'.SameRead c'') :
    c.SameRead c'' :=
  ⟨h.toSameClock.trans h'.toSameClock, h'.buf.trans h.buf⟩

theorem write_same (c : Client Z) (payload : List UInt8) (opcode : UInt8) :
    c.SameRead (c.write env payload opcode).1 := by
  unfold write
  split <;> exact ⟨⟨rfl, rfl, rfl, rfl, rfl⟩, rfl⟩

theorem finish_same (c : Client Z) (compressed : Bool) (payload : List UInt8)
    (wireLen arrival : Nat) :
    c.SameRead (c.finish env compressed payload wireLen arrival).1 := by
  unfold finish
  repeat' split
  all_goals exact ⟨⟨rfl, rfl, rfl, rfl, rfl⟩, rfl⟩

theorem dataFrame_same (c : Client Z) (f : Frame) (arrival : Nat) :
    c.SameRead (c.dataFrame env f arrival).1 := by
  have hopen : c.SameRead { c with openMsg := none } := ⟨⟨rfl, rfl, rfl, rfl, rfl⟩, rfl⟩
  unfold dataFrame
  dsimp only
  repeat' split
  all_goals first
    | exact ⟨⟨rfl, rfl, rfl, rfl, rfl⟩, rfl⟩
    | exact c.finish_same env _ _ _ _
    | exact hopen.trans (finish_same env _ _ _ _ _)

theorem onFrame_same (c : Client Z) (f : Frame) : c.SameRead (c.onFrame env f).1 := by
  have hping := c.write_same env f.payload opPong
  unfold onFrame
  dsimp only
  split
  · exact c.dataFrame_same env f c.lastRead
  split
  · split
    · next h => rw [h] at hping; exact hping
    · next h => rw [h] at hping; exact hping
  split
  · exact .refl c
  split
  · exact c.write_same env (f.payload.take 2) opClose
  · exact .refl c

/-- The `while let` loop of `next_message`: act on the frames that are all there. -/
def drain (c : Client Z) : Client Z × Except Error (Option Message) :=
  match _h : parseFrame c.buf c.max with
  | .error e => (c, .error e)
  | .ok none => (c, .ok none)
  | .ok (some (f, rest)) =>
      match _hf : onFrame env { c with buf := rest } f with
      | (c', .ok none) => drain c'
      | (c', .ok (some m)) => (c', .ok (some m))
      | (c', .error e) => (c', .error e)
termination_by c.buf.length
decreasing_by
  have hsame := onFrame_same env { c with buf := rest } f
  rw [_hf] at hsame
  rw [hsame.buf]
  exact (frameDecoder c.max).length_lt _h

def onPoll (c : Client Z) : Poll → Client Z × Except Error Unit
  | .read (.bytes now bytes) =>
      if bytes = [] then (c, .error .closed)
      else ({ c with buf := c.buf ++ bytes, lastRead := now }, .ok ())
  | .read (.error e) => (c, .error (.io e))
  | .read .timeout => (c, .error (.noData c.readTimeout))
  | .pingDue now => { c with nextPing := now + c.pingEvery }.write env [] opPing

def nextMessage (c : Client Z) : List Poll → Outcome Z
  | [] =>
      match c.drain env with
      | (c, .error e) => .failed e c
      | (c, .ok (some m)) => .message m c []
      | (c, .ok none) => .waiting c
  | poll :: polls =>
      match c.drain env with
      | (c, .error e) => .failed e c
      | (c, .ok (some m)) => .message m c (poll :: polls)
      | (c, .ok none) =>
          match c.onPoll env poll with
          | (c, .error e) => .failed e c
          | (c, .ok ()) => nextMessage c polls

end Client

end FeedBench.Ws
