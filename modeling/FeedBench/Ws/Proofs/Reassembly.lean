import FeedBench.Ws.Wire
import FeedBench.Ws.Proofs.Chunks

/-!
# Reassembling messages

A server without compression sends messages in fragments, in any encoding of the frames, with
pings and pongs anywhere.  The client delivers the messages up to the first that is too long
and answers the pings it meets on the way.
-/

namespace FeedBench.Ws

open Inflate Lib

/-! ## What the server sends -/

structure Control where
  ping : Bool
  payload : List UInt8
  mask : Option (Vector UInt8 4)
  form : LengthForm
  small : payload.length ≤ 125

theorem Control.holds (c : Control) : c.payload.length < c.form.bound := by
  have hsmall := c.small
  have hbound : 126 ≤ c.form.bound := by
    cases c.form
    · exact Nat.le_refl _
    · show 126 ≤ 2 ^ 16
      omega
    · show 126 ≤ 2 ^ 64
      omega
  omega

def Control.wire (c : Control) : WireFrame where
  fin := true
  rsv1 := false
  opcode := if c.ping then opPing else opPong
  payload := c.payload
  mask := c.mask
  form := c.form
  opcode_lt := by split <;> decide
  holds := c.holds

inductive DataKind where
  | text
  | binary
  | cont
  deriving DecidableEq

def DataKind.opcode : DataKind → UInt8
  | text => opText
  | binary => opBinary
  | cont => opCont

/-- A piece of a message, and the control frames sent before it. -/
structure Fragment where
  controls : List Control
  payload : List UInt8
  mask : Option (Vector UInt8 4)
  form : LengthForm
  holds : payload.length < form.bound

def Fragment.wire (f : Fragment) (kind : DataKind) (fin : Bool) : WireFrame where
  fin := fin
  rsv1 := false
  opcode := kind.opcode
  payload := f.payload
  mask := f.mask
  form := f.form
  opcode_lt := by cases kind <;> decide
  holds := f.holds

/-- The frames of a message, the first of the given kind and only the last with FIN. -/
def framesFrom (kind : DataKind) : List Fragment → List WireFrame
  | [] => []
  | f :: fs => f.controls.map Control.wire ++ f.wire kind fs.isEmpty :: framesFrom .cont fs

def dataBytes (ws : List WireFrame) : Nat :=
  ((ws.filter fun w => w.frame.isData).map fun w => w.bytes.length).sum

structure WireMessage where
  binary : Bool
  fragments : List Fragment
  nonempty : fragments ≠ []

namespace WireMessage

def frames (m : WireMessage) : List WireFrame :=
  framesFrom (if m.binary then .binary else .text) m.fragments

def payload (m : WireMessage) : List UInt8 := m.fragments.flatMap Fragment.payload

def wireLen (m : WireMessage) : Nat := dataBytes m.frames

def controls (m : WireMessage) : List Control := m.fragments.flatMap Fragment.controls

end WireMessage

def pongs (cs : List Control) : List (UInt8 × List UInt8) :=
  (cs.filter Control.ping).map fun c => (opPong, c.payload)

theorem pongs_append (cs cs' : List Control) : pongs (cs ++ cs') = pongs cs ++ pongs cs' := by
  simp [pongs]

/-! ## Frame by frame -/

variable {Z : Decompress} {a : Assembler Z} {max : Nat}

abbrev run (max : Nat) (a : Assembler Z) (bytes : List UInt8) :
    Assembler Z × (Error ⊕ List UInt8) :=
  (frameDecoder max).consume Assembler.act a bytes

theorem run_frame (w : WireFrame) (more : List UInt8) (h : w.payload.length ≤ max) :
    run max a (w.bytes ++ more) =
      match a.act w.frame with
      | (a', some e) => (a', .inl e)
      | (a', none) => run max a' more := by
  have htake : parseFrame (w.bytes ++ more) max = .ok (some (w.frame, more)) := by
    rw [WireFrame.parseFrame_bytes, if_neg (by omega)]
  unfold run
  rw [Decoder.consume_of_some htake]
  rcases a.act w.frame with ⟨a', _ | e⟩ <;> rfl

theorem run_long (w : WireFrame) (more : List UInt8) (h : max < w.payload.length) :
    run max a (w.bytes ++ more) = (a, .inl (.frameTooLong w.payload.length max)) := by
  have htake : parseFrame (w.bytes ++ more) max =
      .error (.frameTooLong w.payload.length max) := by
    rw [WireFrame.parseFrame_bytes, if_pos h]
  unfold run
  rw [Decoder.consume_of_error htake]

namespace Assembler

def answer (a : Assembler Z) (cs : List Control) : Assembler Z :=
  { a with replies := a.replies ++ pongs cs }

theorem answer_nil (a : Assembler Z) : a.answer [] = a := by
  simp [answer, pongs]

theorem answer_answer (a : Assembler Z) (cs cs' : List Control) :
    (a.answer cs).answer cs' = a.answer (cs ++ cs') := by
  simp [answer, pongs_append]

theorem act_control (a : Assembler Z) (c : Control) :
    a.act c.wire.frame = (a.answer [c], none) := by
  have hopcode : c.wire.frame.opcode = if c.ping then opPing else opPong := rfl
  unfold act
  rw [hopcode]
  rcases hping : c.ping with _ | _
  · simp [answer, pongs, hping, opPong, opText, opBinary, opCont, opPing]
  · simp only [if_true]
    rw [if_neg (by decide), if_neg (by decide)]
    simp only [if_true, reply, answer, pongs, List.filter_cons, hping]
    rfl

end Assembler

theorem run_controls (h : 125 ≤ max) (cs : List Control) (more : List UInt8) :
    run max a ((cs.map Control.wire).flatMap WireFrame.bytes ++ more) =
      run max (a.answer cs) more := by
  induction cs generalizing a with
  | nil => rw [Assembler.answer_nil]; rfl
  | cons c cs ih =>
      have hsmall : c.wire.payload.length ≤ max := Nat.le_trans c.small h
      rw [List.map_cons, List.flatMap_cons, List.append_assoc, run_frame _ _ hsmall,
        Assembler.act_control]
      dsimp only
      rw [ih, Assembler.answer_answer]
      rfl

/-! ## Fragment by fragment -/

namespace Assembler

/-- The assembler expects a frame of this kind: it has `acc` of the message so far, in
`wireLen` bytes of frames. -/
structure Expects (a : Assembler Z) (kind : DataKind) (acc : List UInt8) (wireLen : Nat) :
    Prop where
  plain : a.inflater = none
  openMsg : a.openMsg = if kind = .cont then some ⟨false, acc, wireLen⟩ else none
  start : kind ≠ .cont → acc = [] ∧ wireLen = 0

def complete (a : Assembler Z) (data : List UInt8) (wireLen : Nat) : Assembler Z :=
  { a with openMsg := none }.deliver data wireLen

variable {kind : DataKind} {acc : List UInt8} {wireLen : Nat}

theorem Expects.answer (h : a.Expects kind acc wireLen) (cs : List Control) :
    (a.answer cs).Expects kind acc wireLen :=
  ⟨h.plain, h.openMsg, h.start⟩

theorem act_fragment (h : a.Expects kind acc wireLen) (f : Fragment) (fin : Bool) :
    a.act (f.wire kind fin).frame =
      if kind = .cont ∧ a.max < (acc ++ f.payload).length then
        ({ a with openMsg := none }, some (.messageTooLong a.max))
      else if fin then
        (a.complete (acc ++ f.payload) (wireLen + (f.wire kind fin).bytes.length), none)
      else
        ({ a with openMsg := some ⟨false, acc ++ f.payload,
          wireLen + (f.wire kind fin).bytes.length⟩ }, none) := by
  have hplain := h.plain
  have hopen := h.openMsg
  have hfin : (f.wire kind fin).frame.fin = fin := rfl
  have hpayload : (f.wire kind fin).frame.payload = f.payload := rfl
  have hrsv1 : (f.wire kind fin).frame.rsv1 = false := rfl
  have hlen : (f.wire kind fin).frame.wireLen = (f.wire kind fin).bytes.length := rfl
  by_cases hcont : kind = .cont
  · rw [if_pos hcont] at hopen
    have hopcode : (f.wire kind fin).frame.opcode = opCont := by rw [hcont]; rfl
    unfold act
    rw [hopcode, if_neg (by decide), if_pos rfl, extend, hopen]
    dsimp only
    rw [hfin, hpayload, hlen]
    by_cases hlong : a.max < (acc ++ f.payload).length
    · rw [if_pos hlong, if_pos ⟨hcont, hlong⟩]
    · have hfits : ¬(kind = .cont ∧ a.max < (acc ++ f.payload).length) := fun h => hlong h.2
      rw [if_neg hlong, if_neg hfits]
      rfl
  · rw [if_neg hcont] at hopen
    obtain ⟨rfl, rfl⟩ := h.start hcont
    have hopcode : (f.wire kind fin).frame.opcode = opText ∨
        (f.wire kind fin).frame.opcode = opBinary := by
      cases kind
      · exact .inl rfl
      · exact .inr rfl
      · exact absurd rfl hcont
    have hsame : { a with openMsg := none } = a := by rw [← hopen]
    have hfits : ¬(kind = .cont ∧ a.max < ([] ++ f.payload).length) := fun h => hcont h.1
    unfold act
    rw [if_pos hopcode, begin, hopen, hfin, hpayload, hrsv1, hlen, if_neg hfits]
    simp only [Option.isSome_none, Bool.false_eq_true, if_false, false_and, List.nil_append,
      Nat.zero_add, finish, complete, hsame]

end Assembler

theorem dataBytes_cons (kind : DataKind) (f : Fragment) (fs : List Fragment) :
    dataBytes (framesFrom kind (f :: fs)) =
      (f.wire kind fs.isEmpty).bytes.length + dataBytes (framesFrom .cont fs) := by
  have hcontrols : (f.controls.map Control.wire).filter (fun w => w.frame.isData) = [] := by
    rw [List.filter_eq_nil_iff]
    intro w hw
    obtain ⟨c, -, rfl⟩ := List.mem_map.mp hw
    have hopcode : c.wire.frame.opcode = if c.ping then opPing else opPong := rfl
    unfold Frame.isData
    rw [hopcode]
    split <;> decide
  have hdata : (f.wire kind fs.isEmpty).frame.isData = true := by
    have hopcode : (f.wire kind fs.isEmpty).frame.opcode = kind.opcode := rfl
    unfold Frame.isData
    rw [hopcode]
    cases kind <;> decide
  have hfilter : (framesFrom kind (f :: fs)).filter (fun w => w.frame.isData) =
      f.wire kind fs.isEmpty :: (framesFrom .cont fs).filter (fun w => w.frame.isData) := by
    rw [framesFrom, List.filter_append, hcontrols, List.nil_append, List.filter_cons, if_pos hdata]
  unfold dataBytes
  rw [hfilter, List.map_cons, List.sum_cons]

theorem run_fragment (h : 125 ≤ max) (kind : DataKind) (f : Fragment) (fs : List Fragment)
    (more : List UInt8) :
    run max a ((framesFrom kind (f :: fs)).flatMap WireFrame.bytes ++ more) =
      run max (a.answer f.controls) ((f.wire kind fs.isEmpty).bytes ++
        ((framesFrom .cont fs).flatMap WireFrame.bytes ++ more)) := by
  rw [framesFrom, List.flatMap_append, List.flatMap_cons, List.append_assoc, List.append_assoc,
    run_controls h]

/-- A message that fits is delivered, and the pings in it are answered. -/
theorem run_fits (h : 125 ≤ max) {fs : List Fragment} (hne : fs ≠ []) {kind : DataKind}
    {acc : List UInt8} {wireLen : Nat} (hat : a.Expects kind acc wireLen) (hmax : a.max = max)
    (hfits : acc.length + (fs.flatMap Fragment.payload).length ≤ max) (more : List UInt8) :
    run max a ((framesFrom kind fs).flatMap WireFrame.bytes ++ more) =
      run max ((a.complete (acc ++ fs.flatMap Fragment.payload)
        (wireLen + dataBytes (framesFrom kind fs))).answer (fs.flatMap Fragment.controls))
        more := by
  induction fs generalizing a kind acc wireLen with
  | nil => exact absurd rfl hne
  | cons f fs ih =>
      rw [List.flatMap_cons, List.length_append] at hfits
      have hsmall : (f.wire kind fs.isEmpty).payload.length ≤ max := by
        show f.payload.length ≤ max
        omega
      have hshort : ¬(kind = .cont ∧ (a.answer f.controls).max < (acc ++ f.payload).length) := by
        rintro ⟨-, hlong⟩
        rw [List.length_append] at hlong
        have : (a.answer f.controls).max = max := hmax
        omega
      rw [run_fragment h, run_frame _ _ hsmall, Assembler.act_fragment (hat.answer f.controls),
        if_neg hshort, dataBytes_cons]
      cases fs with
      | nil =>
          simp [framesFrom, dataBytes, Assembler.complete, Assembler.answer, Assembler.deliver]
      | cons f' fs =>
          have hnext : Assembler.Expects
              { a.answer f.controls with
                openMsg := some ⟨false, acc ++ f.payload,
                  wireLen + (f.wire kind false).bytes.length⟩ } .cont (acc ++ f.payload)
              (wireLen + (f.wire kind false).bytes.length) :=
            ⟨hat.plain, rfl, fun hcont => absurd rfl hcont⟩
          have hrest := ih (by simp) hnext hmax (by rw [List.length_append]; omega)
          simp only [List.isEmpty_cons, Bool.false_eq_true, if_false]
          rw [hrest]
          simp [Assembler.complete, Assembler.answer, Assembler.deliver, pongs_append,
            Nat.add_assoc]

structure Refuses (a a' : Assembler Z) (cs : List Control) : Prop where
  delivered : a'.delivered = a.delivered
  replies : a.replies <+: a'.replies
  answered : a'.replies <+: a.replies ++ pongs cs

theorem refuses_of_answer {a a' : Assembler Z} {cs : List Control} (cs' : List Control)
    (hdelivered : a'.delivered = a.delivered) (hreplies : a'.replies = a.replies ++ pongs cs) :
    Refuses a a' (cs ++ cs') := by
  constructor
  · exact hdelivered
  · rw [hreplies]
    exact List.prefix_append _ _
  · rw [hreplies, pongs_append, ← List.append_assoc]
    exact List.prefix_append _ _

theorem Refuses.after {a a₁ a' : Assembler Z} {cs cs' : List Control} (h : Refuses a₁ a' cs')
    (hdelivered : a₁.delivered = a.delivered) (hreplies : a₁.replies = a.replies ++ pongs cs) :
    Refuses a a' (cs ++ cs') := by
  constructor
  · rw [h.delivered, hdelivered]
  · have hmore := h.replies
    rw [hreplies] at hmore
    exact (List.prefix_append _ _).trans hmore
  · have hanswered := h.answered
    rw [hreplies, List.append_assoc, ← pongs_append] at hanswered
    exact hanswered

/-- A message that does not fit ends the session and delivers nothing. -/
theorem run_refused (h : 125 ≤ max) {fs : List Fragment} {kind : DataKind} {acc : List UInt8}
    {wireLen : Nat} (hat : a.Expects kind acc wireLen) (hmax : a.max = max)
    (hacc : acc.length ≤ max)
    (hlong : max < acc.length + (fs.flatMap Fragment.payload).length) (more : List UInt8) :
    ∃ a' e, run max a ((framesFrom kind fs).flatMap WireFrame.bytes ++ more) = (a', .inl e) ∧
      Refuses a a' (fs.flatMap Fragment.controls) := by
  induction fs generalizing a kind acc wireLen with
  | nil =>
      simp only [List.flatMap_nil, List.length_nil] at hlong
      omega
  | cons f fs ih =>
      rw [List.flatMap_cons, List.length_append] at hlong
      rw [run_fragment h, List.flatMap_cons]
      by_cases hframe : max < f.payload.length
      · -- the frame is too long by itself
        rw [run_long _ _ (show max < (f.wire kind fs.isEmpty).payload.length from hframe)]
        exact ⟨_, _, rfl, refuses_of_answer _ rfl rfl⟩
      rw [run_frame _ _ (show (f.wire kind fs.isEmpty).payload.length ≤ max from
        Nat.le_of_not_lt hframe), Assembler.act_fragment (hat.answer f.controls)]
      by_cases htotal : max < (acc ++ f.payload).length
      · -- the message is too long with this frame
        have hcont : kind = .cont := by
          by_contra hstart
          rw [(hat.start hstart).1, List.nil_append] at htotal
          omega
        have hmax' : (a.answer f.controls).max = max := hmax
        rw [if_pos ⟨hcont, by rw [hmax']; exact htotal⟩]
        exact ⟨_, _, rfl, refuses_of_answer _ rfl rfl⟩
      · have hmax' : (a.answer f.controls).max = max := hmax
        have hne : fs ≠ [] := by
          rintro rfl
          simp only [List.flatMap_nil, List.length_nil, List.length_append] at hlong htotal
          omega
        rw [List.length_append] at htotal
        have hnot : ¬(kind = .cont ∧ (a.answer f.controls).max < (acc ++ f.payload).length) := by
          rw [hmax', List.length_append]
          omega
        rw [if_neg hnot, if_neg (by simpa using hne)]
        dsimp only
        have hnext : Assembler.Expects
            { a.answer f.controls with
              openMsg := some ⟨false, acc ++ f.payload,
                wireLen + (f.wire kind fs.isEmpty).bytes.length⟩ } .cont (acc ++ f.payload)
            (wireLen + (f.wire kind fs.isEmpty).bytes.length) :=
          ⟨hat.plain, rfl, fun hcont => absurd rfl hcont⟩
        obtain ⟨a', e, hrun, hrefuses⟩ := ih hnext hmax (by rw [List.length_append]; omega)
          (by rw [List.length_append]; omega)
        exact ⟨a', e, hrun, hrefuses.after rfl rfl⟩

/-! ## The whole talk -/

/-- The frames of a list of messages, and control frames after the last. -/
def talk (msgs : List WireMessage) (trailing : List Control) : List WireFrame :=
  msgs.flatMap WireMessage.frames ++ trailing.map Control.wire

def fitting (max : Nat) (msgs : List WireMessage) : List WireMessage :=
  msgs.takeWhile fun m => m.payload.length ≤ max

def WireMessage.content (m : WireMessage) : List UInt8 × Nat := (m.payload, m.wireLen)

structure Reassembles (max : Nat) (a : Assembler Z) (msgs : List WireMessage)
    (trailing : List Control) (r : Assembler Z × (Error ⊕ List UInt8)) : Prop where
  delivered : r.1.delivered = a.delivered ++ (fitting max msgs).map WireMessage.content
  refused : r.2.isLeft = true ↔ ∃ m ∈ msgs, max < m.payload.length
  answered : r.2.isLeft = false →
    r.1.replies = a.replies ++ pongs (msgs.flatMap WireMessage.controls ++ trailing)
  atLeast : a.replies ++ pongs ((fitting max msgs).flatMap WireMessage.controls) <+: r.1.replies
  atMost : r.1.replies <+:
    a.replies ++ pongs (msgs.flatMap WireMessage.controls ++ trailing)

theorem expects_first (hplain : a.inflater = none) (hopen : a.openMsg = none) (m : WireMessage) :
    a.Expects (if m.binary then .binary else .text) [] 0 := by
  refine ⟨hplain, ?_, fun _ => ⟨rfl, rfl⟩⟩
  rw [hopen, if_neg (by split <;> decide)]

theorem reassembles_nil (trailing : List Control) (rest : List UInt8) :
    Reassembles max a [] trailing (a.answer trailing, .inr rest) := by
  constructor
  · simp [fitting, Assembler.answer]
  · simp
  · intro _
    rfl
  · simp [fitting, pongs, Assembler.answer]
  · exact List.prefix_refl _

theorem Reassembles.cons {m : WireMessage} {msgs : List WireMessage} {trailing : List Control}
    {r : Assembler Z × (Error ⊕ List UInt8)} (hfits : m.payload.length ≤ max)
    (hrest : Reassembles max ((a.complete m.payload m.wireLen).answer m.controls) msgs
      trailing r) :
    Reassembles max a (m :: msgs) trailing r := by
  have hfitting : fitting max (m :: msgs) = m :: fitting max msgs := by
    rw [fitting, List.takeWhile_cons, if_pos (by simpa using hfits)]
    rfl
  have hreplies : ((a.complete m.payload m.wireLen).answer m.controls).replies =
      a.replies ++ pongs m.controls := rfl
  constructor
  · rw [hrest.delivered, hfitting, List.map_cons]
    simp [Assembler.answer, Assembler.complete, Assembler.deliver, WireMessage.content]
  · rw [hrest.refused]
    simp [Nat.not_lt.mpr hfits]
  · intro hdone
    rw [hrest.answered hdone, hreplies]
    simp [pongs_append]
  · have hleast := hrest.atLeast
    rw [hreplies, List.append_assoc, ← pongs_append] at hleast
    rw [hfitting, List.flatMap_cons]
    exact hleast
  · have hmost := hrest.atMost
    rw [hreplies, List.append_assoc, ← pongs_append] at hmost
    rw [List.flatMap_cons, List.append_assoc]
    exact hmost

theorem Refuses.reassembles {a' : Assembler Z} {m : WireMessage} (h : Refuses a a' m.controls)
    (hlong : max < m.payload.length) (msgs : List WireMessage) (trailing : List Control)
    (e : Error) : Reassembles max a (m :: msgs) trailing (a', .inl e) := by
  have hfitting : fitting max (m :: msgs) = [] := by
    rw [fitting, List.takeWhile_cons, if_neg (by simpa using hlong)]
  constructor
  · rw [hfitting, List.map_nil, List.append_nil]
    exact h.delivered
  · exact ⟨fun _ => ⟨m, by simp, hlong⟩, fun _ => rfl⟩
  · intro hdone
    cases hdone
  · rw [hfitting]
    simpa [pongs] using h.replies
  · rw [List.flatMap_cons, List.append_assoc, pongs_append, ← List.append_assoc]
    exact h.answered.trans (List.prefix_append _ _)

theorem run_talk (h : 125 ≤ max) (msgs : List WireMessage) (trailing : List Control)
    (hplain : a.inflater = none) (hopen : a.openMsg = none) (hmax : a.max = max) :
    Reassembles max a msgs trailing
      (run max a ((talk msgs trailing).flatMap WireFrame.bytes)) := by
  induction msgs generalizing a with
  | nil =>
      have hrun := run_controls (a := a) h trailing []
      have hend : run max (a.answer trailing) [] = (a.answer trailing, .inr []) :=
        Decoder.consume_of_none rfl
      rw [List.append_nil, hend] at hrun
      rw [talk, List.flatMap_nil, List.nil_append, hrun]
      exact reassembles_nil trailing []
  | cons m msgs ih =>
      have hat := expects_first hplain hopen m
      have hbytes : (talk (m :: msgs) trailing).flatMap WireFrame.bytes =
          m.frames.flatMap WireFrame.bytes ++ (talk msgs trailing).flatMap WireFrame.bytes := by
        rw [talk, List.flatMap_cons, List.append_assoc, List.flatMap_append]
        rfl
      rw [hbytes]
      by_cases hfits : m.payload.length ≤ max
      · have hrun := run_fits h m.nonempty hat hmax
          (by rw [List.length_nil, Nat.zero_add]; exact hfits)
          ((talk msgs trailing).flatMap WireFrame.bytes)
        rw [List.nil_append, Nat.zero_add] at hrun
        rw [show run max a (m.frames.flatMap WireFrame.bytes ++ _) = _ from hrun]
        apply Reassembles.cons hfits
        exact @ih ((a.complete m.payload m.wireLen).answer m.controls) hplain rfl hmax
      · have hlong := Nat.lt_of_not_le hfits
        obtain ⟨a', e, hrun, hrefuses⟩ := run_refused h hat hmax (Nat.zero_le _)
          (by rw [List.length_nil, Nat.zero_add]; exact hlong)
          ((talk msgs trailing).flatMap WireFrame.bytes)
        rw [show run max a (m.frames.flatMap WireFrame.bytes ++ _) = _ from hrun]
        exact hrefuses.reassembles hlong msgs trailing e

/-! ## The client -/

namespace Client

variable {env : Env} {cfg : Config}

/-- Without compression, a client with room for control frames delivers exactly the messages
before the first that is longer than its limit, refuses that one, and answers every ping it
meets by a masked pong. -/
theorem messages_reassembled (Z : Decompress) (hwrites : ∀ k, env.writeError k = none)
    (h : 125 ≤ cfg.maxMessage) (now : Nat) (rest : List UInt8)
    (headers : List (List Char × List Char)) (msgs : List WireMessage) (trailing : List Control)
    {polls : List Poll} (hpolls : ∀ p ∈ polls, p.Quiet)
    (hstream : rest ++ polls.flatMap Poll.received =
      (talk msgs trailing).flatMap WireFrame.bytes) :
    let r := (accepted cfg now rest headers none none : Client Z).session env polls
    r.1.map Message.content = (fitting cfg.maxMessage msgs).map WireMessage.content ∧
      (r.2.2.isSome = true ↔ ∃ m ∈ msgs, cfg.maxMessage < m.payload.length) ∧
      (r.2.2 = none → r.2.1.answers = pongs (msgs.flatMap WireMessage.controls ++ trailing)) ∧
      pongs ((fitting cfg.maxMessage msgs).flatMap WireMessage.controls) <+: r.2.1.answers ∧
      r.2.1.answers <+: pongs (msgs.flatMap WireMessage.controls ++ trailing) ∧
      ∀ sent ∈ r.2.1.written, sent.opcode = opPong →
        ∃ w : WireFrame, w.bytes = sent.bytes ∧ w.mask = some sent.mask ∧ w.fin = true ∧
          w.opcode = opPong ∧ w.payload = sent.payload := by
  intro r
  have hquiet := session_quiet hwrites (accepted cfg now rest headers none none : Client Z) hpolls
    endsWith_nil
  have htalk := run_talk (a := view ((accepted cfg now rest headers none none : Client Z), [])) h
    msgs trailing rfl rfl rfl
  rw [List.append_nil] at hquiet
  have hbuf : (accepted cfg now rest headers none none : Client Z).buf = rest := rfl
  have hmax : (accepted cfg now rest headers none none : Client Z).max = cfg.maxMessage := rfl
  rw [hbuf, hmax, hstream] at hquiet
  obtain ⟨hview, hlast⟩ := hquiet
  have hdelivered : r.1.map Message.content = _ := congrArg Assembler.delivered hview
  have hanswers : r.2.1.answers = _ := congrArg Assembler.replies hview
  have hsome : ∀ x : Error ⊕ List UInt8,
      (x.elim some fun _ => none).isSome = x.isLeft := by rintro (e | _) <;> rfl
  have hmost : r.2.1.answers <+: pongs (msgs.flatMap WireMessage.controls ++ trailing) := by
    rw [hanswers]
    exact htalk.atMost
  refine ⟨?_, ?_, ?_, ?_, hmost, ?_⟩
  · rw [hdelivered]
    exact htalk.delivered
  · rw [← htalk.refused, ← hsome, ← hlast]
  · intro hnone
    rw [hanswers]
    apply htalk.answered
    rw [← hsome, ← hlast, hnone]
    rfl
  · rw [hanswers]
    exact htalk.atLeast
  · intro sent hsent hpong
    have hmem : sent.plain ∈ r.2.1.answers := by
      refine List.mem_map_of_mem (List.mem_filter.mpr ⟨hsent, ?_⟩)
      rw [hpong]
      decide
    have hsmall : sent.payload.length ≤ 125 := by
      obtain ⟨c, -, hc⟩ := List.mem_map.mp (hmost.subset hmem)
      have hpayload : c.payload = sent.payload := congrArg Prod.snd hc
      rw [← hpayload]
      exact c.small
    have hopcode : sent.opcode.toNat < 16 := by
      rw [hpong]
      decide
    exact ⟨sent.wire hopcode (by omega), sent.wire_bytes hopcode (by omega), rfl, rfl, hpong, rfl⟩

def sampleMessage : WireMessage where
  binary := true
  fragments :=
    [⟨[], [1], none, .short, by decide⟩,
      ⟨[⟨true, [9], none, .short, by decide⟩], [2, 3], some #v[4, 5, 6, 7], .medium, by decide⟩]
  nonempty := by simp

theorem messages_reassembled_two_frames :
    let env : Env := ⟨fun _ => #v[0, 0, 0, 0], fun _ => none, fun _ => 9⟩
    let bytes := (talk [sampleMessage] []).flatMap WireFrame.bytes
    let r := (accepted sampleConfig 2 [] [] none none : Client noDeflate).session env
      [.read (.bytes 5 bytes)]
    r.1.map Message.content = [([1, 2, 3], 13)] ∧ r.2.1.answers = [(opPong, [9])] := by
  intro env bytes r
  have hpolls : ∀ p ∈ [Poll.read (.bytes 5 bytes)], p.Quiet := by
    intro p hp
    rw [List.mem_singleton.mp hp]
    exact ⟨5, bytes, rfl, by decide⟩
  have hwrites : ∀ k, env.writeError k = none := fun _ => rfl
  have hmax : 125 ≤ sampleConfig.maxMessage := by decide
  have hlaw := messages_reassembled noDeflate hwrites hmax 2 [] [] [sampleMessage] [] hpolls
    (List.append_nil _)
  obtain ⟨hdelivered, hrefused, hanswered, -⟩ := hlaw
  have hnone : r.2.2 = none := by
    rw [← Option.not_isSome_iff_eq_none, hrefused]
    decide
  exact ⟨hdelivered, hanswered hnone⟩

end Client

end FeedBench.Ws
