import FeedBench.Ws.Proofs.Reassembly
import FeedBench.Ws.Proofs.Stamps
import Mathlib.Data.List.TakeWhile

/-!
# What a client hears

On a connection without compression a message is its payload and the instant at which the last
byte of its last frame was read, however it was cut into frames, how these were encoded, what
control frames came in between and how the bytes were cut into reads.
-/

namespace FeedBench.Ws

open Inflate Lib

/-- The bytes of a message on the wire, and of the control frames before its fragments. -/
def WireMessage.size (m : WireMessage) : Nat := (m.frames.map fun w => w.bytes.length).sum

/-- The messages of a talk, each with the instant at which its last byte was read. -/
def heard (msgs : List WireMessage) (stream : List (UInt8 × Nat)) : List (List UInt8 × Nat) :=
  (Decoder.lastStamps WireMessage.size msgs (stream.map Prod.snd)).map fun p => (p.1.payload, p.2)

/-! ## Frames -/

def stampedFrames (ws : List WireFrame) (ts : List Nat) : List (Frame × Nat) :=
  (Decoder.lastStamps (fun w : WireFrame => w.bytes.length) ws ts).map fun p => (p.1.frame, p.2)

theorem length_bytes_pos (w : WireFrame) : 0 < w.bytes.length := by
  rw [WireFrame.length_bytes, WireFrame.length_header]
  omega

variable {ws ws' : List WireFrame} {ts : List Nat} {t : Nat}

theorem stampedFrames_cons {w : WireFrame} (hts : w.bytes.length ≤ ts.length) :
    ∃ t, (ts.take w.bytes.length).getLast? = some t ∧
      ∀ ws, stampedFrames (w :: ws) ts =
        (w.frame, t) :: stampedFrames ws (ts.drop w.bytes.length) := by
  obtain ⟨t, ht, hcons⟩ :=
    Decoder.lastStamps_cons (fun w : WireFrame => w.bytes.length) (length_bytes_pos w) hts
  refine ⟨t, ht, fun ws => ?_⟩
  rw [stampedFrames, hcons]
  rfl

def bytesOf (ws : List WireFrame) : Nat := (ws.map fun w => w.bytes.length).sum

@[simp] theorem bytesOf_cons (w : WireFrame) (ws : List WireFrame) :
    bytesOf (w :: ws) = w.bytes.length + bytesOf ws := rfl

@[simp] theorem bytesOf_append (ws ws' : List WireFrame) :
    bytesOf (ws ++ ws') = bytesOf ws + bytesOf ws' := by
  unfold bytesOf
  rw [List.map_append, List.sum_append]

theorem isData_control (c : Control) : c.wire.frame.isData = false := by
  have hopcode : c.wire.frame.opcode = if c.ping then opPing else opPong := rfl
  unfold Frame.isData
  rw [hopcode]
  split <;> decide

theorem isData_fragment (f : Fragment) (kind : DataKind) (fin : Bool) :
    (f.wire kind fin).frame.isData = true := by
  have hopcode : (f.wire kind fin).frame.opcode = kind.opcode := rfl
  unfold Frame.isData
  rw [hopcode]
  cases kind <;> decide

theorem wireMessages_controls (acc : Nat) (cs : List Control) (ws : List WireFrame)
    (hts : bytesOf (cs.map Control.wire) ≤ ts.length) :
    wireMessages acc (stampedFrames (cs.map Control.wire ++ ws) ts) =
      wireMessages acc (stampedFrames ws (ts.drop (bytesOf (cs.map Control.wire)))) := by
  induction cs generalizing ts with
  | nil => rfl
  | cons c cs ih =>
      rw [List.map_cons, bytesOf_cons] at hts
      have hle : c.wire.bytes.length ≤ ts.length := by omega
      have hrest : bytesOf (cs.map Control.wire) ≤ (ts.drop c.wire.bytes.length).length := by
        rw [List.length_drop]
        omega
      obtain ⟨t, -, hcons⟩ := stampedFrames_cons hle
      rw [List.map_cons, List.cons_append, hcons, wireMessages, isData_control,
        if_neg Bool.false_ne_true, ih hrest, List.drop_drop, bytesOf_cons]

theorem getLast?_take_add {a b : Nat} (h : ((ts.drop a).take b).getLast? = some t) :
    (ts.take (a + b)).getLast? = some t := by
  rw [List.take_add, List.getLast?_append, h]
  rfl

/-- The frames of a message make one message, stamped by the last of them. -/
theorem wireMessages_fragments (acc : Nat) {fs : List Fragment} (hne : fs ≠ [])
    (kind : DataKind) (ws : List WireFrame) (hts : bytesOf (framesFrom kind fs) ≤ ts.length) :
    ∃ t, (ts.take (bytesOf (framesFrom kind fs))).getLast? = some t ∧
      wireMessages acc (stampedFrames (framesFrom kind fs ++ ws) ts) =
        (acc + dataBytes (framesFrom kind fs), t) ::
          wireMessages 0 (stampedFrames ws (ts.drop (bytesOf (framesFrom kind fs)))) := by
  induction fs generalizing kind acc ts with
  | nil => exact absurd rfl hne
  | cons f fs ih =>
      have hframes : framesFrom kind (f :: fs) =
          f.controls.map Control.wire ++ f.wire kind fs.isEmpty :: framesFrom .cont fs := rfl
      have hbytes : bytesOf (framesFrom kind (f :: fs)) = bytesOf (f.controls.map Control.wire) +
          ((f.wire kind fs.isEmpty).bytes.length + bytesOf (framesFrom .cont fs)) := by
        rw [hframes, bytesOf_append, bytesOf_cons]
      rw [hbytes] at hts ⊢
      have hcontrols : bytesOf (f.controls.map Control.wire) ≤ ts.length := by omega
      have hframe : (f.wire kind fs.isEmpty).bytes.length ≤
          (ts.drop (bytesOf (f.controls.map Control.wire))).length := by
        rw [List.length_drop]
        omega
      obtain ⟨t, ht, hcons⟩ := stampedFrames_cons hframe
      rw [dataBytes_cons, hframes, List.append_assoc, List.cons_append,
        wireMessages_controls _ _ _ hcontrols, hcons, wireMessages, isData_fragment, if_pos rfl]
      have hfin : (f.wire kind fs.isEmpty).frame.fin = fs.isEmpty := rfl
      have hlen : (f.wire kind fs.isEmpty).frame.wireLen =
          (f.wire kind fs.isEmpty).bytes.length := rfl
      rw [hfin, hlen, List.drop_drop]
      cases fs with
      | nil =>
          have hnil : bytesOf (framesFrom .cont []) = 0 := rfl
          rw [hnil, Nat.add_zero]
          exact ⟨t, getLast?_take_add ht, rfl⟩
      | cons g gs =>
          have hrest : bytesOf (framesFrom .cont (g :: gs)) ≤ (ts.drop
              (bytesOf (f.controls.map Control.wire) +
                (f.wire kind (g :: gs).isEmpty).bytes.length)).length := by
            rw [List.length_drop]
            omega
          obtain ⟨t', ht', hmore⟩ :=
            ih (acc + (f.wire kind (g :: gs).isEmpty).bytes.length) (by simp) .cont hrest
          rw [← Nat.add_assoc, ← Nat.add_assoc]
          refine ⟨t', getLast?_take_add ht', ?_⟩
          rw [List.isEmpty_cons, if_neg Bool.false_ne_true]
          rw [List.isEmpty_cons, List.drop_drop] at hmore
          exact hmore

theorem wireMessages_talk (msgs : List WireMessage) (trailing : List Control)
    (hts : bytesOf (talk msgs trailing) ≤ ts.length) :
    wireMessages 0 (stampedFrames (talk msgs trailing) ts) =
      (Decoder.lastStamps WireMessage.size msgs ts).map fun p => (p.1.wireLen, p.2) := by
  induction msgs generalizing ts with
  | nil =>
      have hcontrols := wireMessages_controls 0 trailing [] hts
      rw [List.append_nil] at hcontrols
      exact hcontrols
  | cons m msgs ih =>
      have htalk : talk (m :: msgs) trailing = m.frames ++ talk msgs trailing := by
        rw [talk, List.flatMap_cons, List.append_assoc]
        rfl
      rw [htalk, bytesOf_append] at hts
      have hle : bytesOf m.frames ≤ ts.length := by omega
      have hrest : bytesOf (talk msgs trailing) ≤ (ts.drop (bytesOf m.frames)).length := by
        rw [List.length_drop]
        omega
      obtain ⟨t, ht, hmore⟩ := wireMessages_fragments 0 m.nonempty
        (if m.binary then .binary else .text) (talk msgs trailing) hle
      have hlast : (ts.take m.size).getLast? = some t := ht
      rw [htalk, Decoder.lastStamps, hlast]
      show wireMessages 0 (stampedFrames (m.frames ++ _) ts) = _
      rw [show m.frames = framesFrom (if m.binary then .binary else .text) m.fragments from rfl,
        hmore, Nat.zero_add]
      exact congrArg _ (ih hrest)

/-! ## A session -/

theorem payload_le {m : WireMessage} {f : Fragment} (hf : f ∈ m.fragments) :
    f.payload.length ≤ m.payload.length := by
  have hinfix : f.payload <:+: (m.fragments.map Fragment.payload).flatten :=
    List.infix_of_mem_flatten (List.mem_map_of_mem hf)
  rw [WireMessage.payload, List.flatMap_def]
  exact hinfix.length_le

theorem mem_framesFrom {w : WireFrame} {fs : List Fragment} {kind : DataKind}
    (hw : w ∈ framesFrom kind fs) :
    (∃ c : Control, w = c.wire) ∨ ∃ f ∈ fs, w.payload = f.payload := by
  induction fs generalizing kind with
  | nil => cases hw
  | cons f fs ih =>
      rcases List.mem_append.mp hw with hw | hw
      · obtain ⟨c, -, rfl⟩ := List.mem_map.mp hw
        exact .inl ⟨c, rfl⟩
      rcases List.mem_cons.mp hw with rfl | hw
      · exact .inr ⟨f, List.mem_cons_self, rfl⟩
      · rcases ih hw with hcontrol | ⟨g, hg, hpayload⟩
        · exact .inl hcontrol
        · exact .inr ⟨g, List.mem_cons_of_mem f hg, hpayload⟩

theorem talk_fits {max : Nat} (h : 125 ≤ max) {msgs : List WireMessage} {trailing : List Control}
    (hfits : ∀ m ∈ msgs, m.payload.length ≤ max) :
    ∀ w ∈ talk msgs trailing, w.payload.length ≤ max := by
  intro w hw
  rcases List.mem_append.mp hw with hw | hw
  · obtain ⟨m, hm, hw⟩ := List.mem_flatMap.mp hw
    rcases mem_framesFrom hw with ⟨c, rfl⟩ | ⟨f, hf, hpayload⟩
    · exact c.small.trans h
    · rw [hpayload]
      exact (payload_le hf).trans (hfits m hm)
  · obtain ⟨c, -, rfl⟩ := List.mem_map.mp hw
    exact c.small.trans h

theorem size_pos (m : WireMessage) : 0 < m.size := by
  obtain ⟨binary, fs, hne⟩ := m
  cases fs with
  | nil => exact absurd rfl hne
  | cons f fs =>
      have hframes : ∀ kind, 0 < bytesOf (framesFrom kind (f :: fs)) := by
        intro kind
        have := length_bytes_pos (f.wire kind fs.isEmpty)
        rw [framesFrom, bytesOf_append, bytesOf_cons]
        omega
      exact hframes _

theorem length_talk (ws : List WireFrame) : (ws.flatMap WireFrame.bytes).length = bytesOf ws := by
  rw [List.length_flatMap]
  rfl

theorem sum_size_le (msgs : List WireMessage) (trailing : List Control) :
    (msgs.map WireMessage.size).sum ≤ bytesOf (talk msgs trailing) := by
  rw [talk, bytesOf_append]
  have hframes : bytesOf (msgs.flatMap WireMessage.frames) = (msgs.map WireMessage.size).sum := by
    induction msgs with
    | nil => rfl
    | cons m msgs ih =>
        rw [List.flatMap_cons, bytesOf_append, ih]
        rfl
  omega

theorem stamped_fst (poll : Poll) : poll.stamped.map Prod.fst = poll.received := by
  rcases poll with ⟨⟨now, bytes⟩ | e | _⟩ | now
  · exact (List.map_map ..).trans (List.map_id _)
  · rfl
  · rfl
  · rfl

namespace Client

variable {Z : Decompress} {env : Env} {c : Client Z}

/-- What is delivered, when the stream is a talk. -/
theorem session_said (hwrites : ∀ k, env.writeError k = none) (hplain : c.inflater = none)
    (hopen : c.openMsg = none) (hmax : 125 ≤ c.max) {polls tail : List Poll}
    (hpolls : ∀ p ∈ polls, p.Quiet) {last : Option Error} (htail : EndsWith Z env tail last)
    {msgs : List WireMessage} {trailing : List Control}
    (hfits : ∀ m ∈ msgs, m.payload.length ≤ c.max)
    (hstream : c.buf ++ polls.flatMap Poll.received =
      (talk msgs trailing).flatMap WireFrame.bytes) :
    (c.session env (polls ++ tail)).1.map Message.content = msgs.map WireMessage.content ∧
      (c.session env (polls ++ tail)).2.2 = last := by
  have hquiet := session_quiet hwrites c hpolls htail
  have htalk : Reassembles c.max (view (c, [])) msgs trailing _ :=
    run_talk hmax msgs trailing hplain hopen rfl
  rw [hstream] at hquiet
  obtain ⟨hview, hlast⟩ := hquiet
  have hall : fitting c.max msgs = msgs := by
    rw [fitting, List.takeWhile_eq_self_iff]
    intro m hm
    exact decide_eq_true (hfits m hm)
  constructor
  · have hdelivered := htalk.delivered
    rw [hall] at hdelivered
    exact (congrArg Assembler.delivered hview).trans hdelivered
  · have hright := htalk.refused.not.mpr (by
      rintro ⟨m, hm, hlong⟩
      exact Nat.not_le.mpr hlong (hfits m hm))
    rw [hlast]
    generalize ((frameDecoder c.max).consume Assembler.act (view (c, []))
      ((talk msgs trailing).flatMap WireFrame.bytes)).2 = side at hright
    rcases side with e | rest
    · exact absurd rfl hright
    · rfl

theorem stamped_bytes (c : Client Z) (polls tail : List Poll) :
    (c.buf.map (·, c.lastRead) ++ (polls ++ tail).flatMap Poll.stamped).map Prod.fst =
      c.buf ++ polls.flatMap Poll.received ++ tail.flatMap Poll.received := by
  have hbuf : (c.buf.map (·, c.lastRead)).map Prod.fst = c.buf := by
    rw [List.map_map]
    exact List.map_id _
  rw [List.map_append, hbuf, List.map_flatMap, List.flatMap_append, ← List.append_assoc]
  simp only [stamped_fst]

/-- The messages of a session are heard as they were sent. -/
theorem session_heard (hwrites : ∀ k, env.writeError k = none) (hplain : c.inflater = none)
    (hopen : c.openMsg = none) (hmax : 125 ≤ c.max) {polls tail : List Poll}
    (hpolls : ∀ p ∈ polls, p.Quiet) {last : Option Error} (htail : EndsWith Z env tail last)
    {msgs : List WireMessage} {trailing : List Control}
    (hfits : ∀ m ∈ msgs, m.payload.length ≤ c.max)
    (hstream : c.buf ++ polls.flatMap Poll.received =
      (talk msgs trailing).flatMap WireFrame.bytes) :
    (c.session env (polls ++ tail)).1.map (fun m => (m.data, m.arrival)) =
        heard msgs (c.buf.map (·, c.lastRead) ++ (polls ++ tail).flatMap Poll.stamped) ∧
      (c.session env (polls ++ tail)).2.2 = last := by
  obtain ⟨hcontent, hend⟩ := session_said hwrites hplain hopen hmax hpolls htail hfits hstream
  have hlaw := session_tracks env c hopen (polls ++ tail)
  have hbytes := stamped_bytes c polls tail
  rw [hstream] at hbytes
  refine ⟨?_, hend⟩
  generalize c.session env (polls ++ tail) = r at *
  generalize c.buf.map (·, c.lastRead) ++ (polls ++ tail).flatMap Poll.stamped = sb at *
  have hlong : bytesOf (talk msgs trailing) ≤ (sb.map Prod.snd).length := by
    have hlen := congrArg List.length hbytes
    rw [List.length_append, length_talk, List.length_map] at hlen
    rw [List.length_map]
    omega
  have htake : ∀ w ∈ talk msgs trailing, ∀ more,
      (frameDecoder c.max).take (w.bytes ++ more) = .ok (some (w.frame, more)) := by
    intro w hw more
    have hshort := talk_fits hmax hfits w hw
    exact (WireFrame.parseFrame_bytes w more c.max).trans (if_neg (by omega))
  have hitems : (frameDecoder c.max).items sb =
      stampedFrames (talk msgs trailing) (sb.map Prod.snd) ++ _ :=
    Decoder.items_encodings htake hbytes
  rw [hitems, wireMessages_append, wireMessages_talk msgs trailing hlong] at hlaw
  have hsent : (Decoder.lastStamps WireMessage.size msgs (sb.map Prod.snd)).map Prod.fst = msgs :=
    Decoder.lastStamps_fst (fun m _ => size_pos m) ((sum_size_le msgs trailing).trans hlong)
  rw [heard]
  generalize Decoder.lastStamps WireMessage.size msgs (sb.map Prod.snd) = stamped at *
  -- as many were delivered as were sent, so these are all
  have hwire : r.1.map Message.wire = stamped.map fun p => (p.1.wireLen, p.2) := by
    have hlen : r.1.length = stamped.length := by
      have hlenContent := congrArg List.length hcontent
      have hlenSent := congrArg List.length hsent
      rw [List.length_map] at hlenSent
      rw [List.length_map, List.length_map] at hlenContent
      omega
    have hprefix := List.prefix_of_prefix_length_le hlaw (List.prefix_append _ _)
      (by rw [List.length_map, List.length_map, hlen])
    exact hprefix.eq_of_length (by rw [List.length_map, List.length_map, hlen])
  have hdata : r.1.map Message.data = (stamped.map Prod.fst).map WireMessage.payload := by
    have hfst := congrArg (List.map Prod.fst) hcontent
    rw [List.map_map, List.map_map] at hfst
    rw [hsent]
    exact hfst
  have harrival : r.1.map Message.arrival = stamped.map Prod.snd := by
    have hsnd := congrArg (List.map Prod.snd) hwire
    rw [List.map_map, List.map_map] at hsnd
    exact hsnd
  calc r.1.map (fun m => (m.data, m.arrival))
      = (r.1.map Message.data).zip (r.1.map Message.arrival) := (List.zip_map' ..).symm
    _ = (stamped.map (WireMessage.payload ∘ Prod.fst)).zip (stamped.map Prod.snd) := by
        rw [hdata, harrival, List.map_map]
    _ = stamped.map fun p => (p.1.payload, p.2) := List.zip_map' ..

end Client

end FeedBench.Ws
