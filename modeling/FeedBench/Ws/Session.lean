import FeedBench.Ws.Client

/-!
# Sessions

A session is `next_message` called again and again until it fails, or until a call is left
waiting.  `pump` says the same by whole buffers: everything that is complete is acted on
before each poll.
-/

namespace FeedBench.Ws

open Inflate Lib

variable {Z : Decompress} (env : Env)

namespace Client

def pending : List Poll → Nat
  | [] => 0
  | .read (.bytes _ bytes) :: polls => bytes.length + pending polls
  | _ :: polls => pending polls

variable {env} {c c' : Client Z} {polls polls' : List Poll} {poll : Poll} {m : Message} {e : Error}

theorem drain_of_error (h : parseFrame c.buf c.max = .error e) : c.drain env = (c, .error e) := by
  rw [drain]
  split <;> simp_all

theorem drain_of_none (h : parseFrame c.buf c.max = .ok none) : c.drain env = (c, .ok none) := by
  rw [drain]
  split <;> simp_all

theorem drain_of_some {f : Frame} {rest : List UInt8}
    (h : parseFrame c.buf c.max = .ok (some (f, rest))) :
    c.drain env =
      match onFrame env { c with buf := rest } f with
      | (c', .ok none) => c'.drain env
      | (c', .ok (some m)) => (c', .ok (some m))
      | (c', .error e) => (c', .error e) := by
  rw [drain]
  split
  · simp_all
  · simp_all
  · next f' rest' h' =>
    rw [h] at h'
    cases h'
    split <;> rename_i heq <;> rw [heq]

theorem drain_length (env : Env) (c : Client Z) :
    match c.drain env with
    | (c', .ok (some _)) => c'.buf.length < c.buf.length
    | (c', _) => c'.buf.length ≤ c.buf.length := by
  induction hn : c.buf.length using Nat.strongRecOn generalizing c with
  | ind n ih =>
      cases h : parseFrame c.buf c.max with
      | error e => rw [drain_of_error h]; dsimp only; omega
      | ok o =>
          cases o with
          | none => rw [drain_of_none h]; dsimp only; omega
          | some p =>
              obtain ⟨f, rest⟩ := p
              have hlt := (frameDecoder c.max).length_lt h
              have hbuf := (onFrame_same env { c with buf := rest } f).buf
              rw [drain_of_some h]
              rcases hf : onFrame env { c with buf := rest } f with ⟨c₁, e | _ | m⟩
              all_goals
                rw [hf] at hbuf
                dsimp only at hbuf ⊢
              · rw [hbuf]; omega
              · have hrec := ih c₁.buf.length (by rw [hbuf]; omega) c₁ rfl
                rcases hd : c₁.drain env with ⟨c₂, e | _ | m⟩
                all_goals
                  rw [hd, hbuf] at hrec
                  dsimp only at hrec ⊢
                  omega
              · rw [hbuf]; omega

theorem onPoll_length (h : c.onPoll env poll = (c', .ok ())) :
    c'.buf.length + pending polls = c.buf.length + pending (poll :: polls) := by
  rcases poll with ⟨⟨now, bytes⟩ | e | _⟩ | now
  · simp only [onPoll] at h
    split at h
    · cases h
    · cases h
      simp only [List.length_append, pending]
      omega
  · cases h
  · cases h
  · have hbuf := (write_same env { c with nextPing := now + c.pingEvery } [] opPing).buf
    simp only [onPoll] at h
    rw [h] at hbuf
    dsimp only at hbuf
    rw [hbuf]
    rfl

/-- A message leaves fewer bytes for the calls after it. -/
theorem nextMessage_length (h : c.nextMessage env polls = .message m c' polls') :
    c'.buf.length + pending polls' < c.buf.length + pending polls := by
  induction polls generalizing c with
  | nil =>
      have hlen := drain_length env c
      rw [nextMessage] at h
      rcases hd : c.drain env with ⟨c₁, e | _ | m₁⟩
      all_goals
        rw [hd] at h hlen
        cases h
      dsimp only at hlen
      omega
  | cons poll polls ih =>
      have hlen := drain_length env c
      rw [nextMessage] at h
      rcases hd : c.drain env with ⟨c₁, e | _ | m₁⟩
      · rw [hd] at h
        cases h
      · rw [hd] at h hlen
        dsimp only at h hlen
        rcases hp : c₁.onPoll env poll with ⟨c₂, e | _⟩
        · rw [hp] at h
          cases h
        · rw [hp] at h
          have hpoll : c₂.buf.length + pending polls = c₁.buf.length + pending (poll :: polls) :=
            onPoll_length hp
          have := ih h
          omega
      · rw [hd] at h hlen
        cases h
        dsimp only at hlen
        omega

variable (env)

/-- Call `next_message` until it fails: the messages, the client at the end, and the failure
unless the last call is waiting. -/
def session (c : Client Z) (polls : List Poll) : List Message × Client Z × Option Error :=
  match _h : c.nextMessage env polls with
  | .message m c' polls' =>
      let rest := session c' polls'
      (m :: rest.1, rest.2)
  | .failed e c' => ([], c', some e)
  | .waiting c' => ([], c', none)
termination_by c.buf.length + pending polls
decreasing_by exact nextMessage_length _h

variable {env}

theorem session_of_message (h : c.drain env = (c', .ok (some m))) :
    c.session env polls = (m :: (c'.session env polls).1, (c'.session env polls).2) := by
  have hnext : c.nextMessage env polls = .message m c' polls := by
    cases polls <;> rw [nextMessage, h]
  rw [session]
  split
  · next h' =>
    rw [hnext] at h'
    cases h'
    rfl
  · next h' => rw [hnext] at h'; cases h'
  · next h' => rw [hnext] at h'; cases h'

theorem session_of_failed (h : c.nextMessage env polls = .failed e c') :
    c.session env polls = ([], c', some e) := by
  rw [session]
  split <;> rename_i h' <;> rw [h] at h' <;> cases h'
  rfl

theorem session_of_waiting (h : c.nextMessage env polls = .waiting c') :
    c.session env polls = ([], c', none) := by
  rw [session]
  split <;> rename_i h' <;> rw [h] at h' <;> cases h'
  rfl

theorem session_congr {c₁ : Client Z} {polls₁ : List Poll}
    (h : c.nextMessage env polls = c₁.nextMessage env polls₁) :
    c.session env polls = c₁.session env polls₁ := by
  rw [session, session]
  split <;> split <;> simp_all

/-! ## Whole buffers -/

/-- The client without its buffer, which is kept beside it. -/
def strip (c : Client Z) : Client Z := { c with buf := [] }

variable (env)

def act (s : Client Z × List Message) (f : Frame) : (Client Z × List Message) × Option Error :=
  match s.1.onFrame env f with
  | (c, .error e) => ((c, s.2), some e)
  | (c, .ok none) => ((c, s.2), none)
  | (c, .ok (some m)) => ((c, s.2 ++ [m]), none)

/-- Act on everything that is complete before each poll, and once more at the end. -/
def pump (max : Nat) (s : Client Z × List Message) (buf : List UInt8) :
    List Poll → (Client Z × List Message) × Option Error
  | [] =>
      match (frameDecoder max).consume (act env) s buf with
      | (s, .inl e) => (s, some e)
      | (s, .inr _) => (s, none)
  | poll :: polls =>
      match (frameDecoder max).consume (act env) s buf with
      | (s, .inl e) => (s, some e)
      | (s, .inr rest) =>
          match { s.1 with buf := rest }.onPoll env poll with
          | (c, .error e) => ((c.strip, s.2), some e)
          | (c, .ok ()) => pump max (c.strip, s.2) c.buf polls

variable {env}

theorem pump_of_error {max : Nat} {s s' : Client Z × List Message} {buf : List UInt8}
    (h : (frameDecoder max).consume (act env) s buf = (s', .inl e)) (polls : List Poll) :
    pump env max s buf polls = (s', some e) := by
  cases polls <;> rw [pump, h]

/-- What is complete may be acted on before. -/
theorem pump_of_rest {max : Nat} {s s' : Client Z × List Message} {buf rest : List UInt8}
    (h : (frameDecoder max).consume (act env) s buf = (s', .inr rest)) (polls : List Poll) :
    pump env max s buf polls = pump env max s' rest polls := by
  have hrest : (frameDecoder max).consume (act env) s' rest = (s', .inr rest) :=
    Decoder.consume_of_none (Decoder.take_of_consume h)
  cases polls <;> rw [pump, pump, h, hrest]

theorem write_strip (env : Env) (c : Client Z) (payload : List UInt8) (opcode : UInt8) :
    c.strip.write env payload opcode =
      ((c.write env payload opcode).1.strip, (c.write env payload opcode).2) := by
  unfold write strip
  dsimp only
  split <;> rfl

theorem finish_strip (env : Env) (c : Client Z) (compressed : Bool) (payload : List UInt8)
    (wireLen arrival : Nat) :
    c.strip.finish env compressed payload wireLen arrival =
      ((c.finish env compressed payload wireLen arrival).1.strip,
        (c.finish env compressed payload wireLen arrival).2) := by
  unfold finish strip
  dsimp only
  split
  · split
    · rfl
    · split <;> rfl
  · rfl

theorem dataFrame_strip (env : Env) (c : Client Z) (f : Frame) (arrival : Nat) :
    c.strip.dataFrame env f arrival =
      ((c.dataFrame env f arrival).1.strip, (c.dataFrame env f arrival).2) := by
  unfold dataFrame
  change (if _ then if c.openMsg.isSome then _ else if f.rsv1 = true ∧ c.inflater.isNone then _
    else _ else _) = _
  split
  · split
    · rfl
    · split
      · rfl
      · split
        · exact finish_strip env c _ _ _ _
        · rfl
  · have hopen : c.strip.openMsg = c.openMsg := rfl
    rw [hopen]
    cases c.openMsg with
    | none => rfl
    | some o =>
        dsimp only
        change (if c.max < _ then _ else _) = _
        split
        · rfl
        · split
          · exact finish_strip env { c with openMsg := none } _ _ _ _
          · rfl

theorem onFrame_strip (env : Env) (c : Client Z) (f : Frame) :
    c.strip.onFrame env f = ((c.onFrame env f).1.strip, (c.onFrame env f).2) := by
  unfold onFrame
  dsimp only
  rw [write_strip, write_strip]
  change (if _ then c.strip.dataFrame env f c.lastRead else _) = _
  rw [dataFrame_strip]
  split
  · rfl
  split
  · rcases c.write env f.payload opPong with ⟨c', e | _⟩ <;> rfl
  split
  · rfl
  split <;> rfl

theorem consume_drain (env : Env) (c : Client Z) (ms : List Message) :
    (frameDecoder c.max).consume (act env) (c.strip, ms) c.buf =
      match c.drain env with
      | (c', .error e) => ((c'.strip, ms), .inl e)
      | (c', .ok none) => ((c'.strip, ms), .inr c'.buf)
      | (c', .ok (some m)) =>
          (frameDecoder c.max).consume (act env) (c'.strip, ms ++ [m]) c'.buf := by
  induction hn : c.buf.length using Nat.strongRecOn generalizing c with
  | ind n ih =>
      cases h : parseFrame c.buf c.max with
      | error e => rw [Decoder.consume_of_error h, drain_of_error h]
      | ok o =>
          cases o with
          | none => rw [Decoder.consume_of_none h, drain_of_none h]
          | some p =>
              obtain ⟨f, rest⟩ := p
              have hlt := (frameDecoder c.max).length_lt h
              have hsame := onFrame_same env { c with buf := rest } f
              have hact : act env (c.strip, ms) f =
                  match onFrame env { c with buf := rest } f with
                  | (c', .error e) => ((c'.strip, ms), some e)
                  | (c', .ok none) => ((c'.strip, ms), none)
                  | (c', .ok (some m)) => ((c'.strip, ms ++ [m]), none) := by
                have hstrip : c.strip.onFrame env f = _ :=
                  onFrame_strip env { c with buf := rest } f
                simp only [act, hstrip]
                rcases onFrame env { c with buf := rest } f with ⟨c₁, e | _ | m⟩ <;> rfl
              rw [Decoder.consume_of_some h, drain_of_some h, hact]
              rcases hf : onFrame env { c with buf := rest } f with ⟨c₁, e | _ | m⟩
              · rfl
              · rw [hf] at hsame
                have hrec := ih c₁.buf.length (by rw [hsame.buf, ← hn]; exact hlt) c₁ rfl
                have hmax : c₁.max = c.max := hsame.max
                rw [hsame.buf, hmax] at hrec
                exact hrec
              · rw [hf] at hsame
                have hbuf : c₁.buf = rest := hsame.buf
                dsimp only
                rw [hbuf]

theorem drain_same (env : Env) (c : Client Z) : c.SameClock (c.drain env).1 := by
  induction hn : c.buf.length using Nat.strongRecOn generalizing c with
  | ind n ih =>
      cases h : parseFrame c.buf c.max with
      | error e => rw [drain_of_error h]; exact .refl c
      | ok o =>
          cases o with
          | none => rw [drain_of_none h]; exact .refl c
          | some p =>
              obtain ⟨f, rest⟩ := p
              have hlt := (frameDecoder c.max).length_lt h
              have hrest : c.SameClock { c with buf := rest } := ⟨rfl, rfl, rfl, rfl, rfl⟩
              have hsame := onFrame_same env { c with buf := rest } f
              rw [drain_of_some h]
              rcases hf : onFrame env { c with buf := rest } f with ⟨c₁, e | _ | m⟩
              all_goals rw [hf] at hsame
              · exact hrest.trans hsame.toSameClock
              · have hrec := ih c₁.buf.length (by rw [hsame.buf, ← hn]; exact hlt) c₁ rfl
                exact hrest.trans (hsame.toSameClock.trans hrec)
              · exact hrest.trans hsame.toSameClock

theorem drain_rest (h : c.drain env = (c', .ok none)) : parseFrame c'.buf c'.max = .ok none := by
  have hcons := consume_drain env c []
  have hmax := (drain_same env c).max
  rw [h] at hcons hmax
  have hrest := Decoder.take_of_consume hcons
  rw [hmax]
  exact hrest

theorem onPoll_max (h : c.onPoll env poll = (c', .ok ())) : c'.max = c.max := by
  rcases poll with ⟨⟨now, bytes⟩ | e | _⟩ | now
  · simp only [onPoll] at h
    split at h
    · cases h
    · cases h
      rfl
  · cases h
  · cases h
  · have hsame := write_same env { c with nextPing := now + c.pingEvery } [] opPing
    simp only [onPoll] at h
    rw [h] at hsame
    exact hsame.max

theorem pump_of_message (h : c.drain env = (c', .ok (some m))) (ms : List Message) :
    pump env c.max (c.strip, ms) c.buf polls =
      pump env c'.max (c'.strip, ms ++ [m]) c'.buf polls := by
  have hcons := consume_drain env c ms
  have hmax := (drain_same env c).max
  rw [h] at hcons hmax
  dsimp only at hmax
  cases polls <;> rw [pump, pump, hcons, hmax]

/-- Calling `next_message` again and again is acting on whole buffers. -/
theorem pump_eq_session (env : Env) (c : Client Z) (polls : List Poll) (ms : List Message) :
    pump env c.max (c.strip, ms) c.buf polls =
      (((c.session env polls).2.1.strip, ms ++ (c.session env polls).1),
        (c.session env polls).2.2) := by
  have hcons := consume_drain env c ms
  have hmax := (drain_same env c).max
  have hlen := drain_length env c
  rcases hd : c.drain env with ⟨c₁, e | _ | m⟩
  · have hnext : c.nextMessage env polls = .failed e c₁ := by
      cases polls <;> rw [nextMessage, hd]
    rw [hd] at hcons
    rw [pump_of_error hcons, session_of_failed hnext, List.append_nil]
  · rw [hd] at hcons hmax
    dsimp only at hcons hmax
    cases polls with
    | nil =>
        have hnext : c.nextMessage env [] = .waiting c₁ := by rw [nextMessage, hd]
        rw [pump, hcons, session_of_waiting hnext, List.append_nil]
    | cons poll polls =>
        have hrestore : { c₁.strip with buf := c₁.buf } = c₁ := rfl
        rw [pump, hcons]
        dsimp only
        rw [hrestore]
        rcases hp : c₁.onPoll env poll with ⟨c₂, e | _⟩
        · have hnext : c.nextMessage env (poll :: polls) = .failed e c₂ := by
            rw [nextMessage, hd]
            dsimp only
            rw [hp]
          rw [session_of_failed hnext, List.append_nil]
        · have hnext : c.nextMessage env (poll :: polls) = c₂.nextMessage env polls := by
            rw [nextMessage, hd]
            dsimp only
            rw [hp]
          dsimp only
          rw [session_congr hnext, ← hmax, ← onPoll_max hp]
          exact pump_eq_session env c₂ polls ms
  · have hlt : c₁.buf.length < c.buf.length := by rwa [hd] at hlen
    have hrec := pump_eq_session env c₁ polls (ms ++ [m])
    rw [pump_of_message hd, session_of_message hd, hrec, List.append_assoc, List.singleton_append]
termination_by (polls.length, c.buf.length)

end Client

end FeedBench.Ws
