import FeedBench.Ws.Session
import FeedBench.Ws.Proofs.Connect

/-!
# The stamp of a message

`last_read` stands for every byte in the buffer.  That is enough because the client reads
only when no complete frame is buffered: every frame it acts on ends with a byte of the last
read.
-/

namespace FeedBench.Ws

open Inflate Lib

/-! ## What the server sent -/

def Poll.stamped : Poll → List (UInt8 × Nat)
  | .read (.bytes now bytes) => bytes.map (·, now)
  | _ => []

/-- The data messages of a list of frames with the instants of their last bytes: the bytes of
all frames of the message, and the instant of its final frame.  `acc` counts the frames of
the message before the list. -/
def wireMessages (acc : Nat) : List (Frame × Nat) → List (Nat × Nat)
  | [] => []
  | (f, t) :: fs =>
      if f.isData then
        if f.fin then (acc + f.wireLen, t) :: wireMessages 0 fs
        else wireMessages (acc + f.wireLen) fs
      else wireMessages acc fs

def carried (acc : Nat) : List (Frame × Nat) → Nat
  | [] => acc
  | (f, _) :: fs =>
      if f.isData then if f.fin then carried 0 fs else carried (acc + f.wireLen) fs
      else carried acc fs

theorem wireMessages_append (acc : Nat) (fs gs : List (Frame × Nat)) :
    wireMessages acc (fs ++ gs) = wireMessages acc fs ++ wireMessages (carried acc fs) gs := by
  induction fs generalizing acc with
  | nil => rfl
  | cons p fs ih =>
      obtain ⟨f, t⟩ := p
      rw [List.cons_append, wireMessages, wireMessages, carried]
      split
      · split
        · rw [ih, List.cons_append]
        · exact ih _
      · exact ih _

theorem carried_append (acc : Nat) (fs gs : List (Frame × Nat)) :
    carried acc (fs ++ gs) = carried (carried acc fs) gs := by
  induction fs generalizing acc with
  | nil => rfl
  | cons p fs ih =>
      obtain ⟨f, t⟩ := p
      rw [List.cons_append, carried, carried]
      split
      · split
        · exact ih _
        · exact ih _
      · exact ih _

theorem wireMessages_mono {fs gs : List (Frame × Nat)} (acc : Nat) (h : fs <+: gs) :
    wireMessages acc fs <+: wireMessages acc gs := by
  obtain ⟨rest, rfl⟩ := h
  rw [wireMessages_append]
  exact List.prefix_append _ _

theorem wireMessages_stamps (acc : Nat) (fs : List (Frame × Nat)) :
    ((wireMessages acc fs).map Prod.snd).Sublist (fs.map Prod.snd) := by
  induction fs generalizing acc with
  | nil => exact List.Sublist.refl _
  | cons p fs ih =>
      obtain ⟨f, t⟩ := p
      rw [wireMessages]
      split
      · split
        · exact (ih 0).cons_cons t
        · exact (ih _).cons t
      · exact (ih _).cons t

def Message.wire (m : Message) : Nat × Nat := (m.wireLen, m.arrival)

/-! ## One frame -/

namespace Client

variable {Z : Decompress} {env : Env} {c c' : Client Z} {s s' : Client Z × List Message}
  {f : Frame} {e : Error} {o : Option Message} {t : Nat} {seen : List (Frame × Nat)}

def openBytes (c : Client Z) : Nat := c.openMsg.elim 0 OpenMessage.wireLen

theorem deliver_ok {data : List UInt8} {wireLen arrival : Nat}
    (h : c.deliver env data wireLen arrival = (c', .ok o)) :
    ∃ m, o = some m ∧ m.wireLen = wireLen ∧ m.arrival = arrival ∧ c'.openMsg = c.openMsg := by
  simp only [deliver, Prod.mk.injEq, Except.ok.injEq] at h
  obtain ⟨rfl, rfl⟩ := h
  exact ⟨_, rfl, rfl, rfl, rfl⟩

theorem finish_ok {compressed : Bool} {payload : List UInt8} {wireLen arrival : Nat}
    (h : c.finish env compressed payload wireLen arrival = (c', .ok o)) :
    ∃ m, o = some m ∧ m.wireLen = wireLen ∧ m.arrival = arrival ∧ c'.openMsg = c.openMsg := by
  unfold finish at h
  split at h
  · split at h
    · cases h
    · split at h
      · cases h
      · obtain ⟨m, ho, hlen, harr, hopen⟩ := deliver_ok h
        exact ⟨m, ho, hlen, harr, hopen⟩
  · exact deliver_ok h

theorem dataFrame_ok {arrival : Nat} (h : c.dataFrame env f arrival = (c', .ok o)) :
    (f.fin = false ∧ o = none ∧ c'.openBytes = c.openBytes + f.wireLen) ∨
    (f.fin = true ∧ ∃ m, o = some m ∧ m.wireLen = c.openBytes + f.wireLen ∧
      m.arrival = arrival ∧ c'.openMsg = none) := by
  unfold dataFrame at h
  split at h
  · split at h
    · cases h
    · next hopen =>
      have hnone : c.openMsg = none := by simpa using hopen
      have hzero : c.openBytes = 0 := by simp [openBytes, hnone]
      split at h
      · cases h
      · split at h
        · next hfin =>
          obtain ⟨m, ho, hlen, harr, hmsg⟩ := finish_ok h
          exact .inr ⟨hfin, m, ho, by omega, harr, hmsg.trans hnone⟩
        · next hfin =>
          simp only [Prod.mk.injEq, Except.ok.injEq] at h
          obtain ⟨rfl, rfl⟩ := h
          refine .inl ⟨by simpa using hfin, rfl, ?_⟩
          rw [hzero, Nat.zero_add]
          rfl
  · split at h
    · cases h
    · next om hopen =>
      have hbytes : c.openBytes = om.wireLen := by simp [openBytes, hopen]
      dsimp only at h
      split at h
      · cases h
      · split at h
        · next hfin =>
          obtain ⟨m, ho, hlen, harr, hmsg⟩ := finish_ok h
          exact .inr ⟨hfin, m, ho, by omega, harr, hmsg⟩
        · next hfin =>
          simp only [Prod.mk.injEq, Except.ok.injEq] at h
          obtain ⟨rfl, rfl⟩ := h
          exact .inl ⟨by simpa using hfin, rfl, by rw [hbytes]; rfl⟩

theorem write_openMsg (env : Env) (c : Client Z) (payload : List UInt8) (opcode : UInt8) :
    (c.write env payload opcode).1.openMsg = c.openMsg := by
  unfold write
  split <;> rfl

theorem onFrame_control (hdata : f.isData = false) (h : c.onFrame env f = (c', .ok o)) :
    o = none ∧ c'.openMsg = c.openMsg := by
  have hpong := write_openMsg env c f.payload opPong
  unfold onFrame at h
  rw [if_neg (by simpa [Frame.isData] using hdata)] at h
  split at h
  · rcases hw : c.write env f.payload opPong with ⟨c₁, e | _⟩
    · rw [hw] at h
      cases h
    · rw [hw] at h hpong
      simp only [Prod.mk.injEq, Except.ok.injEq] at h
      obtain ⟨rfl, rfl⟩ := h
      exact ⟨rfl, hpong⟩
  split at h
  · simp only [Prod.mk.injEq, Except.ok.injEq] at h
    obtain ⟨rfl, rfl⟩ := h
    exact ⟨rfl, rfl⟩
  split at h
  · cases h
  · cases h

theorem onFrame_data (hdata : f.isData = true) :
    c.onFrame env f = c.dataFrame env f c.lastRead := by
  unfold onFrame
  rw [if_pos (by simpa [Frame.isData] using hdata)]

/-! ## The invariant -/

/-- The client has acted on the frames `seen`, and its last read was at `t`. -/
structure Tracks (s : Client Z × List Message) (t : Nat) (seen : List (Frame × Nat)) : Prop where
  now : s.1.lastRead = t
  messages : s.2.map Message.wire = wireMessages 0 seen
  openBytes : s.1.openBytes = carried 0 seen

theorem Tracks.act (h : Tracks s t seen) (hact : act env s f = (s', none)) :
    Tracks s' t (seen ++ [(f, t)]) := by
  have hsame := (onFrame_same env s.1 f).lastRead
  have hnow := h.now
  have hmsgs := h.messages
  have hbytes := h.openBytes
  unfold Client.act at hact
  rcases hf : s.1.onFrame env f with ⟨c, e | o⟩
  · rw [hf] at hact
    cases hact
  rw [hf] at hsame hact
  have hs : s' = (c, s.2 ++ o.toList) := by
    cases o <;> simp_all
  dsimp only at hsame
  subst hs
  cases hdata : f.isData with
  | false =>
      obtain ⟨rfl, hopen⟩ := onFrame_control hdata hf
      constructor
      · exact hsame.trans hnow
      · simp [wireMessages_append, wireMessages, hdata, hmsgs]
      · simp only [carried_append, carried, hdata, ← hbytes, Client.openBytes, hopen]
        rfl
  | true =>
      rw [onFrame_data hdata] at hf
      rcases dataFrame_ok hf with ⟨hfin, rfl, hopen⟩ | ⟨hfin, m, rfl, hlen, harr, hopen⟩
      · constructor
        · exact hsame.trans hnow
        · simp [wireMessages_append, wireMessages, hdata, hfin, hmsgs]
        · simp [carried_append, carried, hdata, hfin, hopen, hbytes]
      · constructor
        · exact hsame.trans hnow
        · simp [wireMessages_append, wireMessages, hdata, hfin, hmsgs, Message.wire, hlen, harr,
            hnow, hbytes]
        · simp [carried_append, carried, hdata, hfin, Client.openBytes, hopen]

theorem act_failed (hact : act env s f = (s', some e)) : s'.2 = s.2 := by
  unfold Client.act at hact
  rcases hf : s.1.onFrame env f with ⟨c, e' | _ | m⟩
  all_goals
    rw [hf] at hact
    cases hact
  rfl

theorem Tracks.messages_before {future : List (Frame × Nat)} (h : Tracks s t seen)
    (hpre : seen <+: future) :
    s.2.map Message.wire <+: wireMessages 0 future := by
  rw [h.messages]
  exact wireMessages_mono 0 hpre

/-- What a poll adds to the buffer arrived at the last read. -/
theorem onPoll_ok {poll : Poll} (h : c.onPoll env poll = (c', .ok ())) :
    c'.buf = c.buf ++ poll.stamped.map Prod.fst ∧ c'.openMsg = c.openMsg ∧
      ∀ x ∈ poll.stamped, x.2 = c'.lastRead := by
  rcases poll with ⟨⟨now, bytes⟩ | e | _⟩ | now
  · simp only [onPoll] at h
    split at h
    · cases h
    · cases h
      simp [Poll.stamped, Function.comp_def]
  · cases h
  · cases h
  · have hsame := write_same env { c with nextPing := now + c.pingEvery } [] opPing
    have hopen := write_openMsg env { c with nextPing := now + c.pingEvery } [] opPing
    simp only [onPoll] at h
    rw [h] at hsame hopen
    exact ⟨hsame.buf.trans (List.append_nil _).symm, hopen, by simp [Poll.stamped]⟩

/-- What consuming a buffer does to the invariant, when every frame in it ends with a byte of
the last read. -/
theorem Tracks.consume (env : Env) {max : Nat} {sb : List (UInt8 × Nat)} (h : Tracks s t seen)
    (hfresh : (frameDecoder max).Fresh t sb) (future : List (UInt8 × Nat)) :
    match (frameDecoder max).consume (Client.act env) s (sb.map Prod.fst) with
    | (s', .inl _) =>
        s'.2.map Message.wire <+:
          wireMessages 0 (seen ++ (frameDecoder max).items (sb ++ future))
    | (s', .inr rest) =>
        ∃ as sb', sb'.map Prod.fst = rest ∧ (frameDecoder max).items (sb ++ future) =
          as ++ (frameDecoder max).items (sb' ++ future) ∧ Tracks s' t (seen ++ as) := by
  let P : Client Z × List Message → List (Frame × Nat) → Prop := fun s seen => Tracks s t seen
  let Q : Client Z × List Message → List (Frame × Nat) → Prop :=
    fun s seen => s.2.map Message.wire <+: wireMessages 0 seen
  have hok : ∀ (s : Client Z × List Message) a s' as, Client.act env s a = (s', none) → P s as →
      P s' (as ++ [(a, t)]) := fun s a s' as hact hP => Tracks.act hP hact
  have hstop : ∀ (s : Client Z × List Message) a s' e as, Client.act env s a = (s', some e) →
      P s as → Q s' (as ++ [(a, t)]) := by
    intro s a s' e as hact hP
    show s'.2.map Message.wire <+: _
    rw [act_failed hact]
    exact hP.messages_before (List.prefix_append _ _)
  have htracks := Decoder.consume_tracks hok hstop hfresh (show P s seen from h) future
  rcases hc : (frameDecoder max).consume (Client.act env) s (sb.map Prod.fst) with ⟨s', e | rest⟩
  · rw [hc] at htracks
    obtain ⟨as, has, hP | hQ⟩ := htracks
    · exact hP.messages_before (List.prefix_append_right_inj seen |>.mpr has)
    · exact hQ.trans (wireMessages_mono 0 (List.prefix_append_right_inj seen |>.mpr has))
  · rw [hc] at htracks
    exact htracks

theorem pump_tracks (env : Env) {max : Nat} {sb : List (UInt8 × Nat)} (polls : List Poll)
    (h : Tracks s t seen) (hfresh : (frameDecoder max).Fresh t sb) :
    (pump env max s (sb.map Prod.fst) polls).1.2.map Message.wire <+:
      wireMessages 0
        (seen ++ (frameDecoder max).items (sb ++ polls.flatMap Poll.stamped)) := by
  induction polls generalizing s sb t seen with
  | nil =>
      have hcons := h.consume env hfresh []
      rw [pump, List.flatMap_nil]
      rcases hc : (frameDecoder max).consume (Client.act env) s (sb.map Prod.fst)
        with ⟨s', e | rest⟩
      · rw [hc] at hcons
        exact hcons
      · rw [hc] at hcons
        obtain ⟨as, sb', -, hitems, htracks⟩ := hcons
        rw [hitems, ← List.append_assoc]
        exact htracks.messages_before (List.prefix_append _ _)
  | cons poll polls ih =>
      have hcons := h.consume env hfresh (poll.stamped ++ polls.flatMap Poll.stamped)
      rw [pump, List.flatMap_cons]
      rcases hc : (frameDecoder max).consume (Client.act env) s (sb.map Prod.fst)
        with ⟨s', e | rest⟩
      · rw [hc] at hcons
        exact hcons
      · rw [hc] at hcons
        obtain ⟨as, sb', hrest, hitems, htracks⟩ := hcons
        have hnone := Decoder.take_of_consume hc
        rw [← hrest] at hnone
        rw [hitems, ← List.append_assoc, ← List.append_assoc]
        dsimp only
        rcases hp : onPoll env { s'.1 with buf := rest } poll with ⟨c, e | _⟩
        · exact htracks.messages_before (List.prefix_append _ _)
        · obtain ⟨hbuf, hopen, hstamps⟩ := onPoll_ok hp
          have hnext : Tracks (c.strip, s'.2) c.lastRead (seen ++ as) := by
            constructor
            · rfl
            · exact htracks.messages
            · rw [← htracks.openBytes]
              show c.openMsg.elim 0 OpenMessage.wireLen = _
              rw [hopen]
              rfl
          have hrun := ih hnext (Decoder.fresh_append hnone hstamps)
          rw [List.map_append, hrest, ← hbuf] at hrun
          exact hrun

theorem session_tracks (env : Env) (c : Client Z) (hopen : c.openMsg = none) (polls : List Poll) :
    (c.session env polls).1.map Message.wire <+:
      wireMessages 0 ((frameDecoder c.max).items
        (c.buf.map (·, c.lastRead) ++ polls.flatMap Poll.stamped)) := by
  have hstart : Tracks (c.strip, []) c.lastRead [] := by
    constructor
    · rfl
    · rfl
    · simp [Client.openBytes, strip, hopen, carried]
  have hfresh : (frameDecoder c.max).Fresh c.lastRead (c.buf.map (·, c.lastRead)) := by
    apply Decoder.fresh_of_stamps
    intro x hx
    obtain ⟨b, -, rfl⟩ := List.mem_map.mp hx
    rfl
  have hbuf : (c.buf.map (·, c.lastRead)).map Prod.fst = c.buf := by
    rw [List.map_map]
    exact List.map_id _
  have hrun := pump_tracks env polls hstart hfresh
  rw [hbuf, pump_eq_session] at hrun
  exact hrun

/-! ## The law -/

/-- A message is stamped by the read that delivered the last byte of its final frame.  The
bytes that came in with the head count as read when the handshake finished. -/
theorem arrivals_law (env : Env) {dial : Dial} {cfg : Config} {reads left : List Read}
    (h : connect dial cfg reads = .connected c left) (polls : List Poll) :
    ∃ used i, reads = used ++ left ∧ headEnd (used.flatMap Read.received) = some i ∧
      let stream := ((used.flatMap Read.received).drop (i + 4)).map (·, dial.now) ++
        polls.flatMap Poll.stamped
      let messages := (c.session env polls).1
      messages.map Message.wire <+:
          wireMessages 0 ((frameDecoder cfg.maxMessage).items stream) ∧
        ((stream.map Prod.snd).Pairwise (· ≤ ·) →
          (messages.map Message.arrival).Pairwise (· ≤ ·)) := by
  obtain ⟨used, i, headers, mode, inflater, hreads, hend, -, hc⟩ := connect_ok h
  refine ⟨used, i, hreads, hend, ?_⟩
  intro stream messages
  have hlaw : messages.map Message.wire <+:
      wireMessages 0 ((frameDecoder cfg.maxMessage).items stream) := by
    have hopen : c.openMsg = none := by rw [hc]; rfl
    have hrun := session_tracks env c hopen polls
    rw [show c.max = cfg.maxMessage by rw [hc]; rfl, show c.lastRead = dial.now by rw [hc]; rfl,
      show c.buf = (used.flatMap Read.received).drop (i + 4) by rw [hc]; rfl] at hrun
    exact hrun
  refine ⟨hlaw, ?_⟩
  intro hsorted
  have harrivals : messages.map Message.arrival = (messages.map Message.wire).map Prod.snd := by
    rw [List.map_map]
    rfl
  have hframes := (wireMessages_stamps 0 ((frameDecoder cfg.maxMessage).items stream)).trans
    (Decoder.items_stamps stream)
  have hsub := (hlaw.map Prod.snd).sublist.trans hframes
  rw [harrivals]
  exact hsorted.sublist hsub

theorem arrivals_law_split_frame :
    let env : Env := ⟨fun _ => #v[0, 0, 0, 0], fun _ => none, fun _ => 9⟩
    let polls := [Poll.read (.bytes 5 [1, 7])]
    (sampleClient.session env polls).1.map Message.wire = [(3, 5)] ∧
      ∃ used i, [Read.bytes 1 (sampleHead ++ [0x82])] = used ++ [] ∧
        headEnd (used.flatMap Read.received) = some i ∧
        let stream := ((used.flatMap Read.received).drop (i + 4)).map (·, sampleDial.now) ++
          polls.flatMap Poll.stamped
        let messages := (sampleClient.session env polls).1
        messages.map Message.wire <+:
            wireMessages 0 ((frameDecoder sampleConfig.maxMessage).items stream) ∧
          ((stream.map Prod.snd).Pairwise (· ≤ ·) →
            (messages.map Message.arrival).Pairwise (· ≤ ·)) :=
  ⟨by decide +kernel, arrivals_law _ connect_sample _⟩

end Client

end FeedBench.Ws
