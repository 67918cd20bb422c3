import FeedBench.Ws.Session

/-!
# What a connection is for

An `Assembler` turns frames into messages and replies.  It has no socket, no clock and no
masks: what the server receives and the caller gets depends on the frames alone.  A client
whose writes succeed refines it (`act_refines`).
-/

namespace FeedBench.Ws

open Inflate Lib

variable {Z : Decompress}

structure Assembler (Z : Decompress) where
  inflater : Option (Inflater Z)
  openMsg : Option OpenMessage
  max : Nat
  /-- The data of each message, and the bytes of its frames. -/
  delivered : List (List UInt8 × Nat)
  /-- The opcode and the payload of each frame written back. -/
  replies : List (UInt8 × List UInt8)

namespace Assembler

def deliver (a : Assembler Z) (data : List UInt8) (wireLen : Nat) : Assembler Z :=
  { a with delivered := a.delivered ++ [(data, wireLen)] }

def reply (a : Assembler Z) (opcode : UInt8) (payload : List UInt8) : Assembler Z :=
  { a with replies := a.replies ++ [(opcode, payload)] }

def finish (a : Assembler Z) (compressed : Bool) (payload : List UInt8) (wireLen : Nat) :
    Assembler Z × Option Error :=
  if compressed then
    match a.inflater with
    | none => (a, some .noInflater)
    | some inf =>
        match inf.inflateMessage payload with
        | .error e => (a, some (.inflate e))
        | .ok (data, inf) => ({ a with inflater := some inf }.deliver data wireLen, none)
  else (a.deliver payload wireLen, none)

def begin (a : Assembler Z) (f : Frame) : Assembler Z × Option Error :=
  if a.openMsg.isSome then (a, some .dataInsideMessage)
  else if f.rsv1 ∧ a.inflater.isNone then (a, some .notNegotiated)
  else if f.fin then a.finish f.rsv1 f.payload f.wireLen
  else ({ a with openMsg := some ⟨f.rsv1, f.payload, f.wireLen⟩ }, none)

def extend (a : Assembler Z) (f : Frame) : Assembler Z × Option Error :=
  match a.openMsg with
  | none => (a, some .strayContinuation)
  | some o =>
      let acc := o.acc ++ f.payload
      let wireLen := o.wireLen + f.wireLen
      let a := { a with openMsg := none }
      if a.max < acc.length then (a, some (.messageTooLong a.max))
      else if f.fin then a.finish o.compressed acc wireLen
      else ({ a with openMsg := some ⟨o.compressed, acc, wireLen⟩ }, none)

def close (a : Assembler Z) (f : Frame) : Assembler Z × Option Error :=
  let code := if 2 ≤ f.payload.length then some (beNat (f.payload.take 2)) else none
  (a.reply opClose (f.payload.take 2), some (.closedByServer code (f.payload.drop 2)))

def act (a : Assembler Z) (f : Frame) : Assembler Z × Option Error :=
  if f.opcode = opText ∨ f.opcode = opBinary then a.begin f
  else if f.opcode = opCont then a.extend f
  else if f.opcode = opPing then (a.reply opPong f.payload, none)
  else if f.opcode = opPong then (a, none)
  else if f.opcode = opClose then a.close f
  else (a, some (.unknownOpcode f.opcode))

end Assembler

/-! ## The client refines it -/

def Message.content (m : Message) : List UInt8 × Nat := (m.data, m.wireLen)

def Sent.plain (sent : Sent) : UInt8 × List UInt8 := (sent.opcode, sent.payload)

namespace Client

/-- The frames written back to the server, without the pings of the timer. -/
def answers (c : Client Z) : List (UInt8 × List UInt8) :=
  (c.written.filter fun sent => sent.opcode ≠ opPing).map Sent.plain

/-- What a client is to the assembler: the instants, the masks, the pings and the buffer
forgotten. -/
def view (s : Client Z × List Message) : Assembler Z where
  inflater := s.1.inflater
  openMsg := s.1.openMsg
  max := s.1.max
  delivered := s.2.map Message.content
  replies := s.1.answers

def viewStep (ms : List Message) :
    Client Z × Except Error (Option Message) → Assembler Z × Option Error
  | (c, .error e) => (view (c, ms), some e)
  | (c, .ok none) => (view (c, ms), none)
  | (c, .ok (some m)) => (view (c, ms ++ [m]), none)

variable {env : Env}

theorem deliver_refines (c : Client Z) (ms : List Message) (data : List UInt8)
    (wireLen arrival : Nat) :
    viewStep ms (c.deliver env data wireLen arrival) =
      ((view (c, ms)).deliver data wireLen, none) := by
  simp [deliver, viewStep, view, answers, Assembler.deliver, Message.content]

theorem finish_refines (c : Client Z) (ms : List Message) (compressed : Bool)
    (payload : List UInt8) (wireLen arrival : Nat) :
    viewStep ms (c.finish env compressed payload wireLen arrival) =
      (view (c, ms)).finish compressed payload wireLen := by
  have hview : (view (c, ms)).inflater = c.inflater := rfl
  unfold finish Assembler.finish
  rw [hview]
  split
  · rcases c.inflater with _ | inf
    · rfl
    · dsimp only
      rcases inf.inflateMessage payload with e | ⟨data, inf'⟩
      · rfl
      · exact deliver_refines { c with inflater := some inf' } ms data wireLen arrival
  · exact deliver_refines c ms payload wireLen arrival

theorem begin_refines (c : Client Z) (ms : List Message) (f : Frame) (arrival : Nat)
    (h : f.opcode = opText ∨ f.opcode = opBinary) :
    viewStep ms (c.dataFrame env f arrival) = (view (c, ms)).begin f := by
  have hopen : (view (c, ms)).openMsg = c.openMsg := rfl
  have hinf : (view (c, ms)).inflater = c.inflater := rfl
  unfold dataFrame Assembler.begin
  rw [if_pos h, hopen, hinf]
  split
  · rfl
  split
  · rfl
  split
  · exact finish_refines c ms f.rsv1 f.payload f.wireLen arrival
  · rfl

theorem extend_refines (c : Client Z) (ms : List Message) (f : Frame) (arrival : Nat)
    (h : ¬(f.opcode = opText ∨ f.opcode = opBinary)) :
    viewStep ms (c.dataFrame env f arrival) = (view (c, ms)).extend f := by
  have hopen : (view (c, ms)).openMsg = c.openMsg := rfl
  have hmax : (view (c, ms)).max = c.max := rfl
  unfold dataFrame Assembler.extend
  rw [if_neg h, hopen]
  rcases c.openMsg with _ | o
  · rfl
  dsimp only
  rw [hmax]
  split
  · rfl
  split
  · exact finish_refines { c with openMsg := none } ms o.compressed (o.acc ++ f.payload)
      (o.wireLen + f.wireLen) arrival
  · rfl

theorem write_view (hwrites : ∀ k, env.writeError k = none) (c : Client Z) (ms : List Message)
    (payload : List UInt8) {opcode : UInt8} (hopcode : opcode ≠ opPing) :
    (c.write env payload opcode).2 = .ok () ∧
      view ((c.write env payload opcode).1, ms) = (view (c, ms)).reply opcode payload := by
  unfold write
  rw [hwrites]
  simp [view, answers, Assembler.reply, Sent.plain, hopcode]

theorem ping_view (hwrites : ∀ k, env.writeError k = none) (c : Client Z) (ms : List Message)
    (payload : List UInt8) :
    (c.write env payload opPing).2 = .ok () ∧
      view ((c.write env payload opPing).1, ms) = view (c, ms) := by
  unfold write
  rw [hwrites]
  simp [view, answers]

theorem onFrame_refines (hwrites : ∀ k, env.writeError k = none) (c : Client Z)
    (ms : List Message) (f : Frame) :
    viewStep ms (c.onFrame env f) = (view (c, ms)).act f := by
  unfold onFrame Assembler.act
  dsimp only
  by_cases hbegin : f.opcode = opText ∨ f.opcode = opBinary
  · rw [if_pos (by rcases hbegin with h | h <;> simp [h]), if_pos hbegin]
    exact begin_refines c ms f c.lastRead hbegin
  rw [if_neg hbegin]
  by_cases hcont : f.opcode = opCont
  · rw [if_pos (by simp [hcont]), if_pos hcont]
    exact extend_refines c ms f c.lastRead hbegin
  rw [if_neg (by rw [not_or] at hbegin; simp [hbegin, hcont]), if_neg hcont]
  split
  · have hpong := write_view hwrites c ms f.payload (show opPong ≠ opPing by decide)
    rcases hw : c.write env f.payload opPong with ⟨c', e | _⟩
    all_goals rw [hw] at hpong
    · cases hpong.1
    · rw [← hpong.2]
      rfl
  split
  · rfl
  split
  · have hclose := write_view hwrites c ms (f.payload.take 2) (show opClose ≠ opPing by decide)
    rcases hw : c.write env (f.payload.take 2) opClose with ⟨c', r⟩
    rw [hw] at hclose
    unfold Assembler.close
    rw [← hclose.2]
    rfl
  · rfl

/-- Acting on a frame is acting on it in the assembler. -/
theorem act_refines (hwrites : ∀ k, env.writeError k = none) (s : Client Z × List Message)
    (f : Frame) :
    view (Client.act env s f).1 = ((view s).act f).1 ∧
      (Client.act env s f).2 = ((view s).act f).2 := by
  have hframe := onFrame_refines hwrites s.1 s.2 f
  unfold Client.act
  rcases hf : s.1.onFrame env f with ⟨c, e | _ | m⟩
  all_goals
    rw [hf] at hframe
    rw [← hframe]
    exact ⟨rfl, rfl⟩

end Client

end FeedBench.Ws
