import FeedBench.Ws.Proofs.Stamps
import FeedBench.Ws.Wire

/-!
# Legal frames

What RFC 6455 allows a server to send is checked in three places: `parse_frame`, the dispatch
of `next_message` and `data_frame`.  Between them they do not look at FIN, RSV1 and the length
of control frames, at RSV1 of continuation frames, nor at the code in a close frame, which is
sent back.  A session that meets nothing of the kind acts on legal frames only, and its answers
are legal.
-/

namespace FeedBench.Ws

open Inflate

variable {Z : Decompress} {env : Env}

/-! ## Answers -/

def Frame.isControl (f : Frame) : Bool :=
  f.opcode = opClose ∨ f.opcode = opPing ∨ f.opcode = opPong

def Sent.isReply (sent : Sent) : Bool := sent.opcode = opPong ∨ sent.opcode = opClose

/-- The `k`-th frame written, unless writing it fails. -/
def Env.sent (env : Env) (k : Nat) (payload : List UInt8) (opcode : UInt8) : Option Sent :=
  match env.writeError k with
  | some _ => none
  | none => some ⟨payload, opcode, env.mask k⟩

def Frame.answer (env : Env) (k : Nat) (f : Frame) : Option Sent :=
  if f.opcode = opPing then env.sent k f.payload opPong
  else if f.opcode = opClose then env.sent k (f.payload.take 2) opClose
  else none

/-- The status codes that a close frame may carry: those that are defined, but for the three
that only stand for a missing or broken close frame, and those for libraries and applications. -/
def SendableCode (code : Nat) : Prop :=
  (1000 ≤ code ∧ code ≤ 1003) ∨ (1007 ≤ code ∧ code ≤ 1014) ∨ (3000 ≤ code ∧ code ≤ 4999)

/-- The body of a close frame is empty or starts with a status code. -/
def BadCloseBody (body : List UInt8) : Prop :=
  body.length = 1 ∨ 2 ≤ body.length ∧ ¬SendableCode (beNat (body.take 2))

/-- A pong or close frame that a client may send: FIN set, no reserved bits, masked, and at
most 125 bytes, which the second byte counts. -/
def LegalReply (bytes : List UInt8) : Prop :=
  ∃ b0 b1 mask body, bytes = b0 :: b1 :: (mask ++ body) ∧
    b0 &&& 0xf0 = 0x80 ∧ (b0 &&& 0x0f = opPong ∨ b0 &&& 0x0f = opClose) ∧
    b1 &&& 0x80 ≠ 0 ∧ (b1 &&& 0x7f).toNat = body.length ∧ body.length ≤ 125 ∧
    mask.length = 4 ∧ (b0 &&& 0x0f = opClose → ¬BadCloseBody (applyMask mask body))

theorem sent_eq_some {k : Nat} {payload : List UInt8} {opcode : UInt8} {sent : Sent} :
    env.sent k payload opcode = some sent ↔
      env.writeError k = none ∧ sent = ⟨payload, opcode, env.mask k⟩ := by
  unfold Env.sent
  cases env.writeError k with
  | some e => simp
  | none => simp [eq_comm]

theorem Frame.isControl_iff (f : Frame) :
    f.isControl = true ↔ f.opcode = opClose ∨ f.opcode = opPing ∨ f.opcode = opPong := by
  simp [Frame.isControl]

theorem Frame.isData_iff (f : Frame) :
    f.isData = true ↔ f.opcode = opText ∨ f.opcode = opBinary ∨ f.opcode = opCont := by
  simp [Frame.isData]

theorem Frame.not_control_of_data {f : Frame} (h : f.isData = true) : ¬f.isControl = true := by
  rw [Frame.isData_iff] at h
  rw [Frame.isControl_iff]
  rcases h with h | h | h <;> rw [h] <;> decide

theorem Frame.answer_of_not_control {f : Frame} (k : Nat) (h : ¬f.isControl = true) :
    f.answer env k = none := by
  rw [Frame.isControl_iff, not_or, not_or] at h
  rw [answer, if_neg h.2.1, if_neg h.1]

theorem answer_isReply {k : Nat} {f : Frame} {sent : Sent} (h : f.answer env k = some sent) :
    sent.isReply = true := by
  unfold Frame.answer at h
  split at h
  · obtain ⟨-, rfl⟩ := sent_eq_some.mp h
    simp [Sent.isReply]
  split at h
  · obtain ⟨-, rfl⟩ := sent_eq_some.mp h
    simp [Sent.isReply]
  · cases h

theorem badCloseBody_take (body : List UInt8) : BadCloseBody (body.take 2) ↔ BadCloseBody body := by
  unfold BadCloseBody
  rw [List.length_take, List.take_take, Nat.min_self]
  constructor
  · rintro (h | ⟨h, hcode⟩)
    · exact .inl (by omega)
    · exact .inr ⟨by omega, hcode⟩
  · rintro (h | ⟨h, hcode⟩)
    · exact .inl (by omega)
    · exact .inr ⟨by omega, hcode⟩

theorem secondByte_short {n : Nat} (h : n < 128) :
    ((0x80 ||| UInt8.ofNat n) &&& 0x80 : UInt8) ≠ 0 ∧
      ((0x80 ||| UInt8.ofNat n) &&& 0x7f : UInt8).toNat = n := by
  have hbits : ∀ n : Fin 128, ((0x80 ||| UInt8.ofNat n) &&& 0x80 : UInt8) ≠ 0 ∧
      ((0x80 ||| UInt8.ofNat n) &&& 0x7f : UInt8).toNat = n := by decide +kernel
  exact hbits ⟨n, h⟩

theorem replyBits {opcode : UInt8} (h : opcode = opPong ∨ opcode = opClose) :
    (0x80 ||| opcode) &&& 0xf0 = 0x80 ∧ (0x80 ||| opcode) &&& 0x0f = opcode := by
  rcases h with rfl | rfl <;> decide

/-- An answer is legal when it is short enough and its code may be sent. -/
theorem legalReply_iff (sent : Sent) (h : sent.isReply = true) :
    LegalReply sent.bytes ↔
      sent.payload.length ≤ 125 ∧ (sent.opcode = opClose → ¬BadCloseBody sent.payload) := by
  obtain ⟨payload, opcode, mask⟩ := sent
  have hop : opcode = opPong ∨ opcode = opClose := by simpa [Sent.isReply] using h
  have hfour : mask.toList.length = 4 := mask.size_toArray
  obtain ⟨hhigh, hlow⟩ := replyBits hop
  simp only [Sent.bytes, clientFrame]
  constructor
  · rintro ⟨b0, b1, mask', body, hbytes, -, -, -, hlen, hshort, hmask, hcode⟩
    have hle : payload.length ≤ 125 := by
      by_contra hlong
      rw [if_neg (by omega)] at hbytes
      split at hbytes
      · simp only [List.cons_append, List.cons.injEq] at hbytes
        have : (b1 &&& 0x7f).toNat = 126 := by rw [← hbytes.2.1]; rfl
        omega
      · simp only [List.cons_append, List.cons.injEq] at hbytes
        have : (b1 &&& 0x7f).toNat = 127 := by rw [← hbytes.2.1]; rfl
        omega
    rw [if_pos (by omega)] at hbytes
    simp only [List.cons_append, List.nil_append, List.cons.injEq] at hbytes
    obtain ⟨hb0, -, htail⟩ := hbytes
    obtain ⟨rfl, rfl⟩ := List.append_inj htail (by omega)
    refine ⟨hle, ?_⟩
    intro hclose
    rw [← hb0, hlow, applyMask_applyMask] at hcode
    exact hcode hclose
  · rintro ⟨hle, hcode⟩
    obtain ⟨hmasked, hlen⟩ := secondByte_short (show payload.length < 128 by omega)
    refine ⟨0x80 ||| opcode, 0x80 ||| UInt8.ofNat payload.length, mask.toList,
      applyMask mask.toList payload, ?_, hhigh, ?_, hmasked, ?_, ?_, hfour, ?_⟩
    · rw [if_pos (by omega)]
      rfl
    · rw [hlow]
      exact hop
    · rw [hlen, length_applyMask]
    · rwa [length_applyMask]
    · rw [hlow, applyMask_applyMask]
      exact hcode

/-! ## One frame -/

namespace Client

variable {c c' : Client Z} {f : Frame} {o : Option Message}

def Negotiated (c : Client Z) : Prop :=
  c.inflater.isSome = true ↔ c.handshake.compression ≠ "none"

/-- The parts of the client that say what was negotiated. -/
structure SameTerms (c c' : Client Z) : Prop where
  handshake : c'.handshake = c.handshake
  inflater : c'.inflater.isSome = c.inflater.isSome

theorem SameTerms.refl (c : Client Z) : c.SameTerms c := ⟨rfl, rfl⟩

theorem SameTerms.trans {c c' c'' : Client Z} (h : c.SameTerms c') (h' : c'.SameTerms c'') :
    c.SameTerms c'' :=
  ⟨h'.handshake.trans h.handshake, h'.inflater.trans h.inflater⟩

theorem SameTerms.negotiated (h : c.SameTerms c') (hc : c.Negotiated) : c'.Negotiated := by
  unfold Negotiated
  rw [h.handshake, h.inflater]
  exact hc

theorem write_terms (env : Env) (c : Client Z) (payload : List UInt8) (opcode : UInt8) :
    c.SameTerms (c.write env payload opcode).1 := by
  unfold write
  split <;> exact ⟨rfl, rfl⟩

theorem write_written (env : Env) (c : Client Z) (payload : List UInt8) (opcode : UInt8) :
    (c.write env payload opcode).1.written =
      c.written ++ (env.sent c.written.length payload opcode).toList := by
  unfold write Env.sent
  cases env.writeError c.written.length with
  | some e => exact (List.append_nil _).symm
  | none => rfl

theorem write_answers (env : Env) (c : Client Z) (payload : List UInt8) {opcode : UInt8}
    (h : ¬(opcode = opPong ∨ opcode = opClose)) :
    (c.write env payload opcode).1.written.filter Sent.isReply =
      c.written.filter Sent.isReply := by
  rw [write_written, List.filter_append, List.append_right_eq_self, List.filter_eq_nil_iff]
  intro sent hsent
  obtain ⟨-, rfl⟩ := sent_eq_some.mp (Option.mem_toList.mp hsent)
  simpa [Sent.isReply] using h

theorem finish_terms (env : Env) (c : Client Z) (compressed : Bool) (payload : List UInt8)
    (wireLen arrival : Nat) :
    c.SameTerms (c.finish env compressed payload wireLen arrival).1 ∧
      (c.finish env compressed payload wireLen arrival).1.written = c.written := by
  unfold finish
  split
  · split
    · exact ⟨.refl c, rfl⟩
    · next hinf =>
      split
      · exact ⟨.refl c, rfl⟩
      · exact ⟨⟨rfl, by rw [hinf]; rfl⟩, rfl⟩
  · exact ⟨⟨rfl, rfl⟩, rfl⟩

theorem dataFrame_terms (env : Env) (c : Client Z) (f : Frame) (arrival : Nat) :
    c.SameTerms (c.dataFrame env f arrival).1 ∧
      (c.dataFrame env f arrival).1.written = c.written := by
  unfold dataFrame
  split
  · split
    · exact ⟨.refl c, rfl⟩
    split
    · exact ⟨.refl c, rfl⟩
    split
    · exact finish_terms env c f.rsv1 f.payload f.wireLen arrival
    · exact ⟨⟨rfl, rfl⟩, rfl⟩
  · split
    · exact ⟨.refl c, rfl⟩
    · next o _ =>
      dsimp only
      split
      · exact ⟨⟨rfl, rfl⟩, rfl⟩
      split
      · obtain ⟨hterms, hwritten⟩ := finish_terms env { c with openMsg := none } o.compressed
          (o.acc ++ f.payload) (o.wireLen + f.wireLen) arrival
        exact ⟨⟨hterms.handshake, hterms.inflater⟩, hwritten⟩
      · exact ⟨⟨rfl, rfl⟩, rfl⟩

theorem dataFrame_checked {arrival : Nat} (h : c.dataFrame env f arrival = (c', .ok o)) :
    (f.opcode = opText ∨ f.opcode = opBinary →
        c.openMsg = none ∧ (f.rsv1 = true → c.inflater.isSome = true)) ∧
      (¬(f.opcode = opText ∨ f.opcode = opBinary) → c.openMsg.isSome = true) := by
  unfold dataFrame at h
  split at h
  · next hop =>
    split at h
    · cases h
    · next hopen =>
      split at h
      · cases h
      · next hrsv =>
        refine ⟨?_, fun hnot => absurd hop hnot⟩
        intro _
        refine ⟨by simpa using hopen, ?_⟩
        intro hrsv1
        rw [Option.isSome_iff_ne_none]
        intro hnone
        exact hrsv ⟨hrsv1, by rw [hnone]; rfl⟩
  · next hop =>
    split at h
    · cases h
    · next o' hopen =>
      refine ⟨fun hyes => absurd hyes hop, ?_⟩
      intro _
      rw [hopen]
      rfl

theorem onFrame_answer (env : Env) (c : Client Z) (f : Frame) :
    c.SameTerms (c.onFrame env f).1 ∧
      (c.onFrame env f).1.written = c.written ++ (f.answer env c.written.length).toList := by
  by_cases hdata : f.isData = true
  · rw [onFrame_data hdata, Frame.answer_of_not_control _ (Frame.not_control_of_data hdata),
      Option.toList_none, List.append_nil]
    exact dataFrame_terms env c f c.lastRead
  · have hpong := c.write_terms env f.payload opPong
    have hping := c.write_written env f.payload opPong
    unfold onFrame Frame.answer
    dsimp only
    rw [if_neg (by rwa [Frame.isData_iff] at hdata)]
    by_cases h9 : f.opcode = opPing
    · rw [if_pos h9, if_pos h9]
      rcases hw : c.write env f.payload opPong with ⟨c₁, e | _⟩
      · rw [hw] at hpong hping
        exact ⟨hpong, hping⟩
      · rw [hw] at hpong hping
        exact ⟨hpong, hping⟩
    rw [if_neg h9, if_neg h9]
    by_cases h10 : f.opcode = opPong
    · rw [if_pos h10, if_neg (by rw [h10]; decide), Option.toList_none, List.append_nil]
      exact ⟨.refl c, rfl⟩
    rw [if_neg h10]
    by_cases h8 : f.opcode = opClose
    · rw [if_pos h8, if_pos h8]
      exact ⟨c.write_terms env _ opClose, c.write_written env _ opClose⟩
    · rw [if_neg h8, if_neg h8, Option.toList_none, List.append_nil]
      exact ⟨.refl c, rfl⟩

/-- What the dispatch checked when it did not refuse a frame. -/
theorem onFrame_checked (h : c.onFrame env f = (c', .ok o)) :
    (f.isData = true ∨ f.isControl = true) ∧
      (f.opcode = opText ∨ f.opcode = opBinary →
        c.openMsg = none ∧ (f.rsv1 = true → c.inflater.isSome = true)) ∧
      (f.opcode = opCont → c.openMsg.isSome = true) := by
  by_cases hdata : f.isData = true
  · rw [onFrame_data hdata] at h
    obtain ⟨hfirst, hcont⟩ := dataFrame_checked h
    refine ⟨.inl hdata, hfirst, ?_⟩
    intro hop
    exact hcont (by rw [hop]; decide)
  · have hnot : ¬(f.opcode = opText ∨ f.opcode = opBinary ∨ f.opcode = opCont) := by
      rwa [Frame.isData_iff] at hdata
    refine ⟨.inr ?_, fun hop => absurd (hop.imp_right .inl) hnot,
      fun hop => absurd (.inr (.inr hop)) hnot⟩
    rw [Frame.isControl_iff]
    by_contra hcontrol
    simp only [not_or] at hcontrol
    unfold onFrame at h
    rw [if_neg hnot, if_neg hcontrol.2.1, if_neg hcontrol.2.2, if_neg hcontrol.1] at h
    cases h

end Client

/-! ## The frames of a session -/

/-- A frame that `next_message` acted on: the client that held it at the front of its buffer,
and the bytes behind it. -/
structure Acted (Z : Decompress) where
  client : Client Z
  frame : Frame
  rest : List UInt8
  parsed : parseFrame client.buf client.max = .ok (some (frame, rest))

def Acted.reply (env : Env) (a : Acted Z) : Option Sent :=
  a.frame.answer env a.client.written.length

namespace Client

variable {c c' : Client Z}

/-- `session` with the frames acted on.  A frame that is refused is not among them; a control
frame never is refused, even where it ends the session. -/
def sessionTraced (env : Env) (c : Client Z) (polls : List Poll) :
    List (Acted Z) × List Message × Client Z × Option Error :=
  match _h : parseFrame c.buf c.max with
  | .error e => ([], [], c, some e)
  | .ok none =>
      match polls with
      | [] => ([], [], c, none)
      | poll :: polls =>
          match _hp : c.onPoll env poll with
          | (c', .error e) => ([], [], c', some e)
          | (c', .ok ()) => sessionTraced env c' polls
  | .ok (some (f, rest)) =>
      match _hf : onFrame env { c with buf := rest } f with
      | (c', .error e) => (if f.isControl then [⟨c, f, rest, _h⟩] else [], [], c', some e)
      | (c', .ok o) =>
          (⟨c, f, rest, _h⟩ :: (sessionTraced env c' polls).1,
            o.toList ++ (sessionTraced env c' polls).2.1, (sessionTraced env c' polls).2.2)
termination_by c.buf.length + pending polls + polls.length
decreasing_by
  · have hlength : c'.buf.length + pending polls = c.buf.length + pending (poll :: polls) :=
      onPoll_length _hp
    rw [List.length_cons]
    omega
  all_goals
    have hbuf := (onFrame_same env { c with buf := rest } f).buf
    have hlt := (frameDecoder c.max).length_lt _h
    rw [_hf] at hbuf
    dsimp only at hbuf
    rw [hbuf]
    omega

theorem sessionTraced_snd (env : Env) (c : Client Z) (polls : List Poll) :
    (c.sessionTraced env polls).2 = c.session env polls := by
  fun_induction sessionTraced env c polls with
  | case1 c polls e hparse =>
      have hnext : c.nextMessage env polls = .failed e c := by
        cases polls <;> rw [nextMessage, drain_of_error hparse]
      rw [session_of_failed hnext]
  | case2 c hparse =>
      have hnext : c.nextMessage env [] = .waiting c := by
        rw [nextMessage, drain_of_none hparse]
      rw [session_of_waiting hnext]
  | case3 c hparse poll polls c' e hpoll =>
      have hnext : c.nextMessage env (poll :: polls) = .failed e c' := by
        rw [nextMessage, drain_of_none hparse]
        dsimp only
        rw [hpoll]
      rw [session_of_failed hnext]
  | case4 c hparse poll polls c' hpoll ih =>
      have hnext : c.nextMessage env (poll :: polls) = c'.nextMessage env polls := by
        rw [nextMessage, drain_of_none hparse]
        dsimp only
        rw [hpoll]
      rw [ih, session_congr hnext]
  | case5 c polls f rest hparse c' e hframe =>
      have hdrain : c.drain env = (c', .error e) := by rw [drain_of_some hparse, hframe]
      have hnext : c.nextMessage env polls = .failed e c' := by
        cases polls <;> rw [nextMessage, hdrain]
      rw [session_of_failed hnext]
  | case6 c polls f rest hparse c' o hframe ih =>
      have hdrain : c.drain env = _ := drain_of_some hparse
      rw [hframe] at hdrain
      cases o with
      | none =>
          have hnext : c.nextMessage env polls = c'.nextMessage env polls := by
            cases polls <;> rw [nextMessage, nextMessage, hdrain]
          rw [ih, session_congr hnext]
          rfl
      | some m =>
          rw [ih, session_of_message hdrain]
          rfl

theorem onPoll_answers {poll : Poll} {r : Except Error Unit} (h : c.onPoll env poll = (c', r)) :
    c.SameTerms c' ∧ c'.written.filter Sent.isReply = c.written.filter Sent.isReply := by
  rcases poll with ⟨⟨now, bytes⟩ | e | _⟩ | now
  · simp only [onPoll] at h
    split at h
    · cases h
      exact ⟨.refl c, rfl⟩
    · cases h
      exact ⟨⟨rfl, rfl⟩, rfl⟩
  · cases h
    exact ⟨.refl c, rfl⟩
  · cases h
    exact ⟨.refl c, rfl⟩
  · have hterms := write_terms env { c with nextPing := now + c.pingEvery } [] opPing
    have hanswers := write_answers env { c with nextPing := now + c.pingEvery } []
      (show ¬(opPing = opPong ∨ opPing = opClose) by decide)
    simp only [onPoll] at h
    rw [h] at hterms hanswers
    exact ⟨⟨hterms.handshake, hterms.inflater⟩, hanswers⟩

/-! ## Whole sessions -/

structure Checked (a : Acted Z) : Prop where
  negotiated : a.client.Negotiated
  opcode : a.frame.isData = true ∨ a.frame.isControl = true
  first : a.frame.opcode = opText ∨ a.frame.opcode = opBinary →
    a.client.openMsg = none ∧ (a.frame.rsv1 = true → a.client.inflater.isSome = true)
  continuation : a.frame.opcode = opCont → a.client.openMsg.isSome = true

theorem Checked.of_control {a : Acted Z} (hc : a.client.Negotiated)
    (h : a.frame.isControl = true) : Checked a := by
  have hdata : ¬a.frame.isData = true := fun hdata => Frame.not_control_of_data hdata h
  rw [Frame.isData_iff] at hdata
  exact ⟨hc, .inr h, fun hop => absurd (hop.imp_right .inl) hdata,
    fun hop => absurd (.inr (.inr hop)) hdata⟩

theorem sessionTraced_checked (env : Env) (c : Client Z) (polls : List Poll)
    (hc : c.Negotiated) : ∀ a ∈ (c.sessionTraced env polls).1, Checked a := by
  fun_induction sessionTraced env c polls with
  | case1 => simp
  | case2 => simp
  | case3 => simp
  | case4 c hparse poll polls c' hpoll ih => exact ih ((onPoll_answers hpoll).1.negotiated hc)
  | case5 c polls f rest hparse c' e hframe =>
      dsimp only
      split
      · next hcontrol =>
        intro a ha
        rw [List.mem_singleton.mp ha]
        exact Checked.of_control hc hcontrol
      · simp
  | case6 c polls f rest hparse c' o hframe ih =>
      have hrest : { c with buf := rest }.Negotiated := hc
      have hterms := (onFrame_answer env { c with buf := rest } f).1
      rw [hframe] at hterms
      obtain ⟨hop, hfirst, hcont⟩ := onFrame_checked hframe
      intro a ha
      rcases List.mem_cons.mp ha with rfl | ha
      · exact ⟨hc, hop, hfirst, hcont⟩
      · exact ih (hterms.negotiated hrest) a ha

theorem filterMap_singleton {α β : Type} (g : α → Option β) (a : α) :
    [a].filterMap g = (g a).toList := by
  cases h : g a with
  | none => exact List.filterMap_cons_none h
  | some b => exact List.filterMap_cons_some h

theorem control_mem_sessionTraced {c : Client Z} {f : Frame} {rest : List UInt8} (env : Env)
    (polls : List Poll) (hparse : parseFrame c.buf c.max = .ok (some (f, rest)))
    (hcontrol : f.isControl = true) :
    ⟨c, f, rest, hparse⟩ ∈ (c.sessionTraced env polls).1 := by
  rw [sessionTraced.eq_def]
  split
  · next h => rw [h] at hparse; cases hparse
  · next h => rw [h] at hparse; cases hparse
  · next h =>
    rw [h] at hparse
    cases hparse
    split
    · rw [if_pos hcontrol]
      exact List.mem_singleton_self _
    · exact List.mem_cons_self

/-- The answers a session writes are those of the frames it acts on, in their order. -/
theorem sessionTraced_replies (env : Env) (c : Client Z) (polls : List Poll) :
    (c.sessionTraced env polls).2.2.1.written.filter Sent.isReply =
      c.written.filter Sent.isReply ++
        (c.sessionTraced env polls).1.filterMap (Acted.reply env) := by
  have honly : ∀ (k : Nat) (f : Frame),
      (f.answer env k).toList.filter Sent.isReply = (f.answer env k).toList := by
    intro k f
    rw [List.filter_eq_self]
    intro sent hsent
    exact answer_isReply (Option.mem_toList.mp hsent)
  fun_induction sessionTraced env c polls with
  | case1 => simp
  | case2 => simp
  | case3 c hparse poll polls c' e hpoll =>
      rw [(onPoll_answers hpoll).2, List.filterMap_nil, List.append_nil]
  | case4 c hparse poll polls c' hpoll ih => rw [ih, (onPoll_answers hpoll).2]
  | case5 c polls f rest hparse c' e hframe =>
      have hwritten := (onFrame_answer env { c with buf := rest } f).2
      rw [hframe] at hwritten
      dsimp only at hwritten ⊢
      rw [hwritten, List.filter_append, honly]
      by_cases hcontrol : f.isControl = true
      · rw [if_pos hcontrol, filterMap_singleton]
        rfl
      · rw [if_neg hcontrol, Frame.answer_of_not_control _ hcontrol]
        rfl
  | case6 c polls f rest hparse c' o hframe ih =>
      have hwritten := (onFrame_answer env { c with buf := rest } f).2
      rw [hframe] at hwritten
      dsimp only at hwritten ⊢
      rw [ih, hwritten, List.filter_append, honly, List.append_assoc]
      rw [← List.singleton_append, List.filterMap_append, filterMap_singleton]
      rfl

end Client

/-! ## The law -/

/-- What RFC 6455 asks of a frame, where the client meets it. -/
structure Acted.Legal (a : Acted Z) : Prop where
  /-- RSV2 and RSV3 are clear. -/
  reserved : ∀ b ∈ a.client.buf.head?, b &&& 0x30 = 0
  opcode : a.frame.isData = true ∨ a.frame.isControl = true
  control : a.frame.isControl = true → a.frame.fin = true ∧ a.frame.payload.length ≤ 125
  rsv1 : a.frame.rsv1 = true → (a.frame.opcode = opText ∨ a.frame.opcode = opBinary) ∧
    a.client.openMsg = none ∧ a.client.handshake.compression ≠ "none"
  continuation : a.frame.opcode = opCont → a.client.openMsg.isSome = true

/-- What no check looks at: FIN, RSV1 and the length of a control frame, and RSV1 of a
continuation frame. -/
def Frame.Unchecked (f : Frame) : Prop :=
  (f.isControl = true ∧ (f.fin = false ∨ f.rsv1 = true ∨ 125 < f.payload.length)) ∨
    (f.opcode = opCont ∧ f.rsv1 = true)

/-- A frame that `ws.rs` should not have acted on as it did: an illegal one, or a close frame
with a body that must not be sent back and is. -/
def Acted.Overlooked (env : Env) (a : Acted Z) : Prop :=
  a.frame.Unchecked ∨ (a.frame.opcode = opClose ∧ BadCloseBody a.frame.payload ∧
    env.writeError a.client.written.length = none)

namespace Acted

variable {a : Acted Z}

theorem legal_iff (h : Client.Checked a) : a.Legal ↔ ¬a.frame.Unchecked := by
  constructor
  · intro hlegal hbad
    rcases hbad with ⟨hcontrol, hfin | hrsv | hlong⟩ | ⟨hop, hrsv⟩
    · have := (hlegal.control hcontrol).1
      rw [hfin] at this
      cases this
    · have hdata : a.frame.isData = true :=
        (Frame.isData_iff a.frame).mpr ((hlegal.rsv1 hrsv).1.imp_right .inl)
      exact Frame.not_control_of_data hdata hcontrol
    · have := (hlegal.control hcontrol).2
      omega
    · have hfirst := (hlegal.rsv1 hrsv).1
      rw [hop] at hfirst
      revert hfirst
      decide
  · intro hgood
    refine ⟨?_, h.opcode, ?_, ?_, h.continuation⟩
    · obtain ⟨b0, b1, tl, -, -, hbuf, hrsv, -⟩ := parseFrame_eq_some a.parsed
      rw [hbuf]
      intro b hb
      cases hb
      exact hrsv
    · intro hcontrol
      constructor
      · by_contra hfin
        exact hgood (.inl ⟨hcontrol, .inl (by simpa using hfin)⟩)
      · by_contra hlong
        exact hgood (.inl ⟨hcontrol, .inr (.inr (by omega))⟩)
    · intro hrsv
      have hfirst : a.frame.opcode = opText ∨ a.frame.opcode = opBinary := by
        rcases h.opcode with hdata | hcontrol
        · rcases (Frame.isData_iff a.frame).mp hdata with hop | hop | hop
          · exact .inl hop
          · exact .inr hop
          · exact absurd (.inr ⟨hop, hrsv⟩) hgood
        · exact absurd (.inl ⟨hcontrol, .inr (.inl hrsv)⟩) hgood
      exact ⟨hfirst, (h.first hfirst).1, h.negotiated.mp ((h.first hfirst).2 hrsv)⟩

/-- The answer to a legal frame is legal, unless it repeats a bad close body. -/
theorem legalReply_of_not_overlooked {sent : Sent} (hgood : ¬a.Overlooked env)
    (h : a.reply env = some sent) : LegalReply sent.bytes := by
  rw [legalReply_iff sent (answer_isReply h)]
  unfold reply Frame.answer at h
  split at h
  · next hop =>
    obtain ⟨-, rfl⟩ := sent_eq_some.mp h
    constructor
    · by_contra hlong
      dsimp only at hlong
      have hcontrol : a.frame.isControl = true := by
        rw [Frame.isControl_iff]
        exact .inr (.inl hop)
      exact hgood (.inl (.inl ⟨hcontrol, .inr (.inr (by omega))⟩))
    · intro hclose
      exact absurd (show opPong = opClose from hclose) (by decide)
  split at h
  · next hop =>
    obtain ⟨hwrite, rfl⟩ := sent_eq_some.mp h
    constructor
    · have hle := List.length_take_le 2 a.frame.payload
      dsimp only
      omega
    · intro _ hbody
      exact hgood (.inr ⟨hop, (badCloseBody_take _).mp hbody, hwrite⟩)
  · cases h

theorem not_legalReply_of_close (hop : a.frame.opcode = opClose)
    (hbody : BadCloseBody a.frame.payload)
    (hwrite : env.writeError a.client.written.length = none) :
    ∃ sent, a.reply env = some sent ∧ ¬LegalReply sent.bytes := by
  have hreply : a.reply env =
      some ⟨a.frame.payload.take 2, opClose, env.mask a.client.written.length⟩ := by
    rw [reply, Frame.answer, if_neg (by rw [hop]; decide), if_pos hop, sent_eq_some]
    exact ⟨hwrite, rfl⟩
  refine ⟨_, hreply, ?_⟩
  rw [legalReply_iff _ (answer_isReply hreply)]
  intro hlegal
  exact hlegal.2 rfl ((badCloseBody_take _).mpr hbody)

end Acted

namespace Client

variable {c : Client Z}

/-- A session acts on legal frames only, and every pong and close frame it writes is legal. -/
def Lawful (env : Env) (c : Client Z) (polls : List Poll) : Prop :=
  (∀ a ∈ (c.sessionTraced env polls).1, a.Legal) ∧
    ∀ sent ∈ (c.session env polls).2.1.written, sent.isReply = true → LegalReply sent.bytes

theorem lawful_iff_of_negotiated (hc : c.Negotiated) (hwritten : c.written.filter Sent.isReply = [])
    (polls : List Poll) :
    c.Lawful env polls ↔ ∀ a ∈ (c.sessionTraced env polls).1, ¬a.Overlooked env := by
  have hchecked := sessionTraced_checked env c polls hc
  have hreplies := sessionTraced_replies env c polls
  rw [hwritten, List.nil_append, sessionTraced_snd] at hreplies
  have hmem : ∀ sent, sent ∈ (c.session env polls).2.1.written ∧ sent.isReply = true ↔
      ∃ a ∈ (c.sessionTraced env polls).1, a.reply env = some sent := by
    intro sent
    rw [← List.mem_filter, hreplies, List.mem_filterMap]
  constructor
  · rintro ⟨hlegal, hanswers⟩ a ha (hbad | ⟨hop, hbody, hwrite⟩)
    · exact (Acted.legal_iff (hchecked a ha)).mp (hlegal a ha) hbad
    · obtain ⟨sent, hreply, hnot⟩ := Acted.not_legalReply_of_close hop hbody hwrite
      obtain ⟨hsent, his⟩ := (hmem sent).mpr ⟨a, ha, hreply⟩
      exact hnot (hanswers sent hsent his)
  · intro hgood
    constructor
    · intro a ha
      rw [Acted.legal_iff (hchecked a ha)]
      exact fun hbad => hgood a ha (.inl hbad)
    · intro sent hsent his
      obtain ⟨a, ha, hreply⟩ := (hmem sent).mp ⟨hsent, his⟩
      exact Acted.legalReply_of_not_overlooked (hgood a ha) hreply

def sendTexts (env : Env) (c : Client Z) (texts : List (List Char)) : Client Z :=
  texts.foldl (fun c text => (c.sendText env text).1) c

theorem sendTexts_answers (env : Env) (c : Client Z) (texts : List (List Char)) :
    c.SameTerms (c.sendTexts env texts) ∧
      (c.sendTexts env texts).written.filter Sent.isReply = c.written.filter Sent.isReply := by
  induction texts generalizing c with
  | nil => exact ⟨.refl c, rfl⟩
  | cons text texts ih =>
      obtain ⟨hterms, hwritten⟩ := ih (c.sendText env text).1
      refine ⟨(write_terms env c (Text.asBytes text) opText).trans hterms, hwritten.trans ?_⟩
      exact write_answers env c (Text.asBytes text) (by decide)

theorem connect_negotiated {dial : Dial} {cfg : Config} {reads left : List Read}
    (h : connect dial cfg reads = .connected c left) : c.Negotiated ∧ c.written = [] := by
  obtain ⟨-, -, headers, mode, inflater, -, -, hmode, rfl⟩ := connect_ok h
  refine ⟨?_, rfl⟩
  show inflater.isSome = true ↔ (mode.map Mode.name).getD "none" ≠ "none"
  rw [hmode]
  rcases mode with _ | m
  · simp
  · cases m <;> simp [Mode.name]

/-- A session acts on legal frames only, and answers with legal frames only, exactly when
none of its frames is overlooked. -/
theorem lawful_iff_not_overlooked (env : Env) {dial : Dial} {cfg : Config}
    {reads left : List Read} (h : connect dial cfg reads = .connected c left)
    (texts : List (List Char)) (polls : List Poll) :
    (c.sendTexts env texts).Lawful env polls ↔
      ∀ a ∈ ((c.sendTexts env texts).sessionTraced env polls).1, ¬a.Overlooked env := by
  obtain ⟨hc, hwritten⟩ := connect_negotiated h
  obtain ⟨hterms, hfilter⟩ := sendTexts_answers env c texts
  apply lawful_iff_of_negotiated (hterms.negotiated hc)
  rw [hfilter, hwritten]
  rfl

def quietEnv : Env := ⟨fun _ => #v[1, 2, 3, 4], fun _ => none, fun _ => 9⟩

def pingAndClose : List UInt8 := [0x89, 2, 7, 8, 0x88, 2, 3, 0xE8]

theorem not_badCloseBody_normal : ¬BadCloseBody [3, 0xE8] := by
  have hcode : SendableCode (beNat [3, 0xE8]) := .inl (by decide)
  rintro (hone | ⟨-, hcode'⟩)
  · exact absurd hone (by decide)
  · exact hcode' hcode

/-- The first byte of the ping comes with the head, and the rest with two reads. -/
theorem lawful_iff_not_overlooked_sample :
    let polls : List Poll := [.read (.bytes 5 (pingAndClose.tail.take 4)),
      .read (.bytes 6 (pingAndClose.drop 5))]
    let c : Client noDeflate := accepted sampleConfig 2 [0x89]
      [("Sec-WebSocket-Accept".toList, ['a'])] none none
    connect sampleDial sampleConfig [.bytes 1 (sampleHead ++ [0x89])] = .connected c [] ∧
      (((c.sendTexts quietEnv [['a']]).sessionTraced quietEnv polls).1.map fun a =>
        ((a.frame.fin, a.frame.rsv1), a.frame.opcode, a.frame.payload)) =
        [((true, false), opPing, [7, 8]), ((true, false), opClose, [3, 0xE8])] ∧
      (c.sendTexts quietEnv [['a']]).Lawful quietEnv polls := by
  intro polls c
  have hconnect : connect sampleDial sampleConfig [.bytes 1 (sampleHead ++ [0x89])] =
      .connected c [] := rfl
  have hacted : (((c.sendTexts quietEnv [['a']]).sessionTraced quietEnv polls).1.map fun a =>
      ((a.frame.fin, a.frame.rsv1), a.frame.opcode, a.frame.payload)) =
        [((true, false), opPing, [7, 8]), ((true, false), opClose, [3, 0xE8])] := by
    decide +kernel
  refine ⟨hconnect, hacted, (lawful_iff_not_overlooked quietEnv hconnect [['a']] polls).mpr ?_⟩
  intro a ha
  have hview := List.mem_map_of_mem (f := fun a : Acted noDeflate =>
    ((a.frame.fin, a.frame.rsv1), a.frame.opcode, a.frame.payload)) ha
  rw [hacted] at hview
  simp only [List.mem_cons, List.not_mem_nil, or_false, Prod.mk.injEq] at hview
  rintro ((⟨-, hbad⟩ | ⟨hop, hrsv⟩) | ⟨hop, hbody, -⟩)
  · rcases hview with ⟨⟨hfin, hrsv⟩, -, hpayload⟩ | ⟨⟨hfin, hrsv⟩, -, hpayload⟩
    all_goals
      rw [hfin, hrsv, hpayload] at hbad
      revert hbad
      decide
  · rcases hview with ⟨⟨-, hrsv'⟩, -⟩ | ⟨⟨-, hrsv'⟩, -⟩
    all_goals
      rw [hrsv'] at hrsv
      cases hrsv
  · rcases hview with ⟨-, hop', -⟩ | ⟨-, -, hpayload⟩
    · rw [hop'] at hop
      exact absurd hop (by decide)
    · rw [hpayload] at hbody
      exact not_badCloseBody_normal hbody

def longPing : List UInt8 := [0x89, 126, 0, 126] ++ List.replicate 126 7

/-- A ping that is too long is acted on, and answered with a pong that is too long. -/
theorem longPing_answered :
    let c : Client noDeflate :=
      accepted sampleConfig 2 longPing [("Sec-WebSocket-Accept".toList, ['a'])] none none
    connect sampleDial sampleConfig [.bytes 1 (sampleHead ++ longPing)] = .connected c [] ∧
      ¬c.Lawful quietEnv [] ∧
      (c.session quietEnv []).2.1.written = [⟨List.replicate 126 7, opPong, #v[1, 2, 3, 4]⟩] := by
  intro c
  have hparse : parseFrame c.buf c.max =
      .ok (some (⟨true, false, opPing, List.replicate 126 7, 130⟩, [])) := by decide +kernel
  refine ⟨rfl, ?_, by decide +kernel⟩
  intro hlawful
  have hmem := control_mem_sessionTraced quietEnv [] hparse rfl
  have hle := ((hlawful.1 _ hmem).control rfl).2
  rw [List.length_replicate] at hle
  omega

end Client

end FeedBench.Ws
