import FeedBench.Ws.Assembler
import FeedBench.Ws.Proofs.Connect

/-!
# Cutting the stream

What a connection says and delivers depends on the bytes of the stream, not on the reads
that bring them.
-/

namespace FeedBench.Ws

open Inflate Lib

variable {Z : Decompress} {env : Env} {dial : Dial} {cfg : Config}

structure Served where
  /-- The data of each message, and the bytes of its frames. -/
  delivered : List (List UInt8 × Nat)
  /-- The opcode and the payload of each frame written back, pings aside. -/
  replies : List (UInt8 × List UInt8)
  /-- Why `connect` failed, or why `next_message` did unless it is still waiting. -/
  ending : ConnectError ⊕ Option Error
  deriving DecidableEq

def Poll.received : Poll → List UInt8
  | .read r => r.received
  | .pingDue _ => []

/-- A poll at which bytes come or the ping is due. -/
def Poll.Quiet : Poll → Prop
  | .read r => r.Brings
  | .pingDue _ => True

namespace Client

/-- `connect`, and `next_message` until it fails, with no timer expiring. -/
def serve (Z : Decompress) (env : Env) (dial : Dial) (cfg : Config) (reads : List Read) : Served :=
  match (connect dial cfg reads : Dialed Z) with
  | .failed e => ⟨[], [], .inl e⟩
  | .waiting => ⟨[], [], .inr none⟩
  | .connected c left =>
      let (messages, c, e) := c.session env (left.map .read)
      ⟨messages.map Message.content, c.answers, .inr e⟩

/-! ## The session -/

theorem onPoll_quiet (hwrites : ∀ k, env.writeError k = none) {poll : Poll} (h : poll.Quiet)
    (c : Client Z) (ms : List Message) :
    ∃ c', c.onPoll env poll = (c', .ok ()) ∧ c'.buf = c.buf ++ poll.received ∧
      view (c', ms) = view (c, ms) := by
  rcases poll with r | now
  · obtain ⟨now, data, rfl, hdata⟩ := h
    exact ⟨_, if_neg hdata, rfl, rfl⟩
  · have hping := ping_view hwrites { c with nextPing := now + c.pingEvery } ms []
    have hsame := write_same env { c with nextPing := now + c.pingEvery } [] opPing
    rcases hw : write env { c with nextPing := now + c.pingEvery } [] opPing with ⟨c', r⟩
    rw [hw] at hping hsame
    obtain ⟨rfl, hview⟩ := hping
    exact ⟨c', hw, hsame.buf.trans (List.append_nil _).symm, hview⟩

/-- The abstract model acts on the frames of a buffer as the client does. -/
theorem consume_view (hwrites : ∀ k, env.writeError k = none) {max : Nat}
    {s s' : Client Z × List Message} {buf : List UInt8} {r : Error ⊕ List UInt8}
    (h : (frameDecoder max).consume (Client.act env) s buf = (s', r)) :
    (frameDecoder max).consume Assembler.act (view s) buf = (view s', r) := by
  have hsim : ∀ (s : Client Z × List Message) (a : Assembler Z) (f : Frame), view s = a →
      view (Client.act env s f).1 = (a.act f).1 ∧ (Client.act env s f).2 = (a.act f).2 := by
    intro s a f hs
    rw [← hs]
    exact act_refines hwrites s f
  obtain ⟨hview, hr⟩ :=
    Decoder.consume_sim (d := frameDecoder max) hsim (rfl : view s = view s) buf
  rw [h] at hview hr
  exact Prod.ext hview.symm hr.symm

/-- Quiet polls are the whole stream at once. -/
theorem pump_quiet (hwrites : ∀ k, env.writeError k = none) (max : Nat) (tail polls : List Poll)
    (hpolls : ∀ p ∈ polls, p.Quiet) (s : Client Z × List Message) (buf : List UInt8) :
    match (frameDecoder max).consume Assembler.act (view s)
      (buf ++ polls.flatMap Poll.received) with
    | (a, .inl e) =>
        ∃ s', view s' = a ∧ pump env max s buf (polls ++ tail) = (s', some e)
    | (a, .inr rest) =>
        parseFrame rest max = .ok none ∧
          ∃ s', view s' = a ∧ pump env max s buf (polls ++ tail) = pump env max s' rest tail := by
  induction polls generalizing s buf with
  | nil =>
      rw [List.nil_append, List.flatMap_nil, List.append_nil]
      rcases hc : (frameDecoder max).consume (Client.act env) s buf with ⟨s', e | rest⟩
      · rw [consume_view hwrites hc]
        exact ⟨s', rfl, pump_of_error hc tail⟩
      · rw [consume_view hwrites hc]
        exact ⟨Decoder.take_of_consume hc, s', rfl, pump_of_rest hc tail⟩
  | cons poll polls ih =>
      rw [List.cons_append, List.flatMap_cons, Decoder.consume_append]
      rcases hc : (frameDecoder max).consume (Client.act env) s buf with ⟨s', e | rest⟩
      · rw [consume_view hwrites hc]
        exact ⟨s', rfl, pump_of_error hc _⟩
      · rw [consume_view hwrites hc]
        obtain ⟨c, hpoll, hbuf, hsame⟩ := onPoll_quiet hwrites (hpolls poll (by simp))
          { s'.1 with buf := rest } s'.2
        have hnext := ih (fun p hp => hpolls p (List.mem_cons_of_mem _ hp)) (c.strip, s'.2) c.buf
        have hstart : view (c.strip, s'.2) = view s' := hsame
        rw [hstart, hbuf, List.append_assoc] at hnext
        dsimp only at hnext ⊢
        rw [pump, hc]
        dsimp only
        rw [hpoll]
        dsimp only
        rw [hbuf]
        exact hnext

/-- Polls that end a session with `last` once everything has been acted on. -/
def EndsWith (Z : Decompress) (env : Env) (tail : List Poll) (last : Option Error) : Prop :=
  ∀ (max : Nat) (rest : List UInt8) (s : Client Z × List Message),
    parseFrame rest max = .ok none →
      ∃ s', view s' = view s ∧ pump env max s rest tail = (s', last)

theorem endsWith_nil : EndsWith Z env [] none := by
  intro max rest s h
  rw [pump, Decoder.consume_of_none h]
  exact ⟨s, rfl, rfl⟩

theorem endsWith_closed (t : Nat) : EndsWith Z env [.read (.bytes t [])] (some .closed) := by
  intro max rest s h
  have hclosed : onPoll env { s.1 with buf := rest } (.read (.bytes t [])) =
      ({ s.1 with buf := rest }, .error .closed) := by simp [onPoll]
  rw [pump, Decoder.consume_of_none h]
  dsimp only
  rw [hclosed]
  exact ⟨({ s.1 with buf := rest }.strip, s.2), rfl, rfl⟩

theorem session_quiet (hwrites : ∀ k, env.writeError k = none) (c : Client Z)
    {polls tail : List Poll} (hpolls : ∀ p ∈ polls, p.Quiet) {last : Option Error}
    (htail : EndsWith Z env tail last) :
    let r := c.session env (polls ++ tail)
    let r' := (frameDecoder c.max).consume Assembler.act (view (c, []))
      (c.buf ++ polls.flatMap Poll.received)
    view (r.2.1, r.1) = r'.1 ∧ r.2.2 = r'.2.elim some fun _ => last := by
  have hquiet := pump_quiet hwrites c.max tail polls hpolls (c.strip, []) c.buf
  have hpump := pump_eq_session env c (polls ++ tail) []
  rw [List.nil_append] at hpump
  intro r r'
  have hr' : (frameDecoder c.max).consume Assembler.act (view (c.strip, []))
      (c.buf ++ polls.flatMap Poll.received) = r' := rfl
  rw [hr'] at hquiet
  suffices h : ∃ s', view s' = r'.1 ∧
      pump env c.max (c.strip, []) c.buf (polls ++ tail) =
        (s', r'.2.elim some fun _ => last) by
    obtain ⟨s', hview, hs'⟩ := h
    rw [hpump] at hs'
    have hstate : (r.2.1.strip, r.1) = s' := congrArg Prod.fst hs'
    have hlast : r.2.2 = r'.2.elim some fun _ => last := congrArg Prod.snd hs'
    rw [← hview, ← hstate]
    exact ⟨rfl, hlast⟩
  rcases hc : r' with ⟨a, e | rest⟩
  · rw [hc] at hquiet
    exact hquiet
  · rw [hc] at hquiet
    obtain ⟨hnone, s', hview, hs'⟩ := hquiet
    obtain ⟨s₁, hview₁, hs₁⟩ := htail c.max rest s' hnone
    exact ⟨s₁, hview₁.trans hview, hs'.trans hs₁⟩

/-! ## The handshake -/

theorem ofHead_rest (now : Nat) (head rest : List UInt8) :
    (ofHead { dial with now := now } cfg head rest : Except ConnectError (Client Z)) =
      (ofHead dial cfg head []).map fun c =>
        { c with buf := rest, lastRead := now, nextPing := now + cfg.pingEvery } := by
  unfold ofHead
  rcases acceptHead (dial.accept dial.key) cfg.offer head with e | ⟨headers, _ | m⟩
  · rfl
  · rfl
  · rcases hnew : (Inflater.new m cfg.maxMessage : Except Inflate.Error (Inflater Z)) with e | inf
    all_goals
      simp only [bind, Except.bind, hnew]
      rfl

theorem connect_of_stream (Z : Decompress) (dial : Dial) (cfg : Config) (now : Nat)
    {reads : List Read} (hreads : ∀ r ∈ reads, r.Brings)
    {i : Nat} (hend : headEnd (reads.flatMap Read.received) = some i) (hle : i + 4 ≤ 64 * 1024)
    (tail : List Read) :
    ∃ used left, reads = used ++ left ∧ i + 4 ≤ (used.flatMap Read.received).length ∧
      (connect { dial with now := now } cfg (reads ++ tail) : Dialed Z) =
        match parseUrl cfg.url with
        | .error e => .failed e
        | .ok url =>
            match dial.failure url (request cfg url dial.key) with
            | some e => .failed (.dial e)
            | none =>
                match (ofHead dial cfg ((reads.flatMap Read.received).take i) [] :
                  Except ConnectError (Client Z)) with
                | .error e => .failed e
                | .ok c => .connected
                    { c with
                      buf := (used.flatMap Read.received).drop (i + 4)
                      lastRead := now
                      nextPing := now + cfg.pingEvery } (left ++ tail) := by
  obtain ⟨used, left, hsplit, hrun⟩ := readHead_of_stream [] reads hreads hend hle tail
  have hused : i + 4 ≤ (used.flatMap Read.received).length := by
    obtain ⟨-, -, hbuf, hend'⟩ := readHead_ok hrun
    exact headEnd_le hend'
  have hhead : (used.flatMap Read.received).take i = (reads.flatMap Read.received).take i := by
    rw [hsplit, List.flatMap_append, List.take_append_of_le_length (by omega)]
  refine ⟨used, left, hsplit, hused, ?_⟩
  unfold connect
  rcases parseUrl cfg.url with e | url
  · rfl
  dsimp only
  rcases dial.failure url (request cfg url dial.key) with _ | e
  · rw [hrun]
    dsimp only
    rw [List.nil_append, ofHead_rest, hhead]
    rcases (ofHead dial cfg ((reads.flatMap Read.received).take i) [] :
      Except ConnectError (Client Z)) with e | c
    · rfl
    · rfl
  · rfl

/-! ## The connection -/

def assembled (Z : Decompress) (dial : Dial) (cfg : Config) (i : Nat) (stream : List UInt8) :
    Served :=
  match parseUrl cfg.url with
  | .error e => ⟨[], [], .inl e⟩
  | .ok url =>
      match dial.failure url (request cfg url dial.key) with
      | some e => ⟨[], [], .inl (.dial e)⟩
      | none =>
          match (ofHead dial cfg (stream.take i) [] : Except ConnectError (Client Z)) with
          | .error e => ⟨[], [], .inl e⟩
          | .ok c =>
              let r := (frameDecoder c.max).consume Assembler.act (view (c, []))
                (stream.drop (i + 4))
              ⟨r.1.delivered, r.1.replies, .inr (r.2.elim some fun _ => some .closed)⟩

theorem serve_eq_assembled (hwrites : ∀ k, env.writeError k = none) (now t : Nat)
    {reads : List Read} (hreads : ∀ r ∈ reads, r.Brings) {i : Nat}
    (hend : headEnd (reads.flatMap Read.received) = some i) (hle : i + 4 ≤ 64 * 1024) :
    serve Z env { dial with now := now } cfg (reads ++ [.bytes t []]) =
      assembled Z dial cfg i (reads.flatMap Read.received) := by
  obtain ⟨used, left, hsplit, hused, hconn⟩ := connect_of_stream Z dial cfg now
    hreads hend hle [.bytes t []]
  have hleft : ∀ r ∈ left, r.Brings := fun r hr => hreads r (by rw [hsplit]; simp [hr])
  unfold serve assembled
  rw [hconn]
  rcases parseUrl cfg.url with e | url
  · rfl
  dsimp only
  rcases dial.failure url (request cfg url dial.key) with _ | e
  · dsimp only
    rcases (ofHead dial cfg ((reads.flatMap Read.received).take i) [] :
      Except ConnectError (Client Z)) with e | c
    · rfl
    · dsimp only
      have hpolls : ∀ p ∈ left.map Poll.read, p.Quiet := by
        intro p hp
        obtain ⟨r, hr, rfl⟩ := List.mem_map.mp hp
        exact hleft r hr
      have hreceived : (left.map Poll.read).flatMap Poll.received =
          left.flatMap Read.received := by
        rw [List.flatMap_map]
        rfl
      have hsession := session_quiet hwrites
        { c with
          buf := (used.flatMap Read.received).drop (i + 4)
          lastRead := now
          nextPing := now + cfg.pingEvery } hpolls (endsWith_closed t)
      have hstream : (used.flatMap Read.received).drop (i + 4) ++ left.flatMap Read.received =
          (reads.flatMap Read.received).drop (i + 4) := by
        rw [hsplit, List.flatMap_append, List.drop_append_of_le_length hused]
      dsimp only at hsession
      rw [hreceived, hstream] at hsession
      obtain ⟨hview, he⟩ := hsession
      have hdelivered := congrArg Assembler.delivered hview
      have hreplies := congrArg Assembler.replies hview
      rw [List.map_append, List.map_singleton]
      exact Served.mk.injEq .. |>.mpr ⟨hdelivered, hreplies, congrArg Sum.inr he⟩
  · rfl

/-- Every cutting of a stream makes the same connection, and a frame that is not all there
stays in the buffer. -/
theorem chunk_independence {env₁ env₂ : Env} (hwrites₁ : ∀ k, env₁.writeError k = none)
    (hwrites₂ : ∀ k, env₂.writeError k = none) (dial : Dial) (cfg : Config)
    {reads₁ reads₂ : List Read} (hreads₁ : ∀ r ∈ reads₁, r.Brings)
    (hreads₂ : ∀ r ∈ reads₂, r.Brings)
    (hstream : reads₁.flatMap Read.received = reads₂.flatMap Read.received) {i : Nat}
    (hend : headEnd (reads₁.flatMap Read.received) = some i) (hle : i + 4 ≤ 64 * 1024)
    (now₁ now₂ t₁ t₂ : Nat) :
    serve Z env₁ { dial with now := now₁ } cfg (reads₁ ++ [.bytes t₁ []]) =
        serve Z env₂ { dial with now := now₂ } cfg (reads₂ ++ [.bytes t₂ []]) ∧
      ∀ c : Client Z, parseFrame c.buf c.max = .ok none → c.drain env₁ = (c, .ok none) := by
  refine ⟨?_, fun c h => drain_of_none h⟩
  rw [serve_eq_assembled hwrites₁ now₁ t₁ hreads₁ hend hle,
    serve_eq_assembled hwrites₂ now₂ t₂ hreads₂ (by rw [← hstream]; exact hend) hle, hstream]

/-- A frame cut after its first byte, and in one piece with the head. -/
theorem chunk_independence_one_frame :
    let env : Env := ⟨fun _ => #v[0, 0, 0, 0], fun _ => none, fun _ => 9⟩
    let cut := [Read.bytes 1 (sampleHead ++ [0x82]), .bytes 5 [1, 7]]
    let whole := [Read.bytes 3 (sampleHead ++ [0x82, 1, 7])]
    serve noDeflate env { sampleDial with now := 2 } sampleConfig (cut ++ [.bytes 6 []]) =
        ⟨[([7], 3)], [], .inr (some .closed)⟩ ∧
      serve noDeflate env { sampleDial with now := 2 } sampleConfig (cut ++ [.bytes 6 []]) =
        serve noDeflate env { sampleDial with now := 4 } sampleConfig (whole ++ [.bytes 8 []]) ∧
      ∀ c : Client noDeflate, parseFrame c.buf c.max = .ok none → c.drain env = (c, .ok none) := by
  intro env cut whole
  have hcut : ∀ r ∈ cut, r.Brings := by
    intro r hr
    simp only [cut, List.mem_cons, List.not_mem_nil, or_false] at hr
    rcases hr with rfl | rfl
    · exact ⟨1, _, rfl, by simp⟩
    · exact ⟨5, _, rfl, by simp⟩
  have hwhole : ∀ r ∈ whole, r.Brings := by
    intro r hr
    simp only [whole, List.mem_cons, List.not_mem_nil, or_false] at hr
    subst hr
    exact ⟨3, _, rfl, by simp⟩
  have hend : headEnd (cut.flatMap Read.received) = some 57 := by decide +kernel
  exact ⟨by decide +kernel, chunk_independence (fun _ => rfl) (fun _ => rfl) sampleDial sampleConfig
    hcut hwhole rfl hend (by decide) 2 4 6 8⟩

end Client

end FeedBench.Ws
