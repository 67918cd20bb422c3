import FeedBench.Eira.Run
import FeedBench.Lib.Mealy
import FeedBench.Proofs.OneKey
import FeedBench.Ws.Proofs.Connect
import FeedBench.WsJson.Feed
import FeedBench.WsRaw.Feed

/-!
# Pacing

What a turn of an adapter's loop comes to, and how long the loop waits before it dials again.
The waits depend on nothing else: each loop is a machine over the outcomes of its turns.
-/

namespace FeedBench

open Lib Inflate Ws

/-! ## Outcomes -/

inductive Adapter where
  | nitro
  | wsjson
  | wsraw
  | eira
  deriving DecidableEq

inductive Outcome where
  /-- Connecting failed, with a rejection if the server answered with one. -/
  | failed (r : Option Rejected)
  /-- The subscription could not be written. -/
  | unsubscribed
  /-- A session was established, and ended. -/
  | lost
  deriving DecidableEq

def rejection : ConnectError → Option Rejected
  | .rejected r => some r
  | _ => none

abbrev Ended := Outcome × Nat

section Turns

variable {σ α ν : Type} (turn : σ → α → σ × Outcome × Option Nat)

/-- The turns of a loop that have ended, by what a turn makes of the state, what it comes to and
how long it sleeps. -/
def endedBy : σ → List α → List Ended
  | _, [] => []
  | s, a :: as =>
      match (turn s a).2.2 with
      | none => []
      | some wait => ((turn s a).2.1, wait) :: endedBy (turn s a).1 as

theorem forall_outcomes_endedBy {P : Outcome → Prop} (h : ∀ s a, P (turn s a).2.1) (s : σ)
    (as : List α) : ∀ o ∈ (endedBy turn s as).map Prod.fst, P o := by
  induction as generalizing s with
  | nil => exact List.forall_mem_nil P
  | cons a as ih =>
      rw [endedBy]
      cases (turn s a).2.2 with
      | none => exact List.forall_mem_nil P
      | some wait => exact List.forall_mem_cons.mpr ⟨h s a, ih (turn s a).1⟩

theorem waits_endedBy (run : σ → List α → List ν) (sleep : ν → Option Nat)
    (hnil : ∀ s, run s [] = []) (hcons : ∀ s a as, ∃ v, sleep v = (turn s a).2.2 ∧
      run s (a :: as) = v :: if (sleep v).isSome then run (turn s a).1 as else [])
    (s : σ) (as : List α) :
    (endedBy turn s as).map Prod.snd = (run s as).filterMap sleep := by
  induction as generalizing s with
  | nil =>
      rw [hnil]
      rfl
  | cons a as ih =>
      obtain ⟨v, hsleep, hrun⟩ := hcons s a as
      rw [hrun, endedBy, ← hsleep]
      cases hv : sleep v with
      | none =>
          rw [List.filterMap_cons_none hv]
          rfl
      | some wait =>
          rw [List.filterMap_cons_some hv, List.map_cons, ih]
          rfl

/-- A loop whose turns are answered by a machine runs as the machine. -/
theorem run_endedBy (M : Mealy Nat Outcome Nat) (backoff : σ → Nat)
    (h : ∀ s a wait, (turn s a).2.2 = some wait →
      wait = M.out (backoff s) (turn s a).2.1 ∧
        backoff (turn s a).1 = M.next (backoff s) (turn s a).2.1) (s : σ) (as : List α) :
    M.Run (backoff s) (endedBy turn s as) := by
  induction as generalizing s with
  | nil => exact .nil
  | cons a as ih =>
      rw [endedBy]
      cases hsleep : (turn s a).2.2 with
      | none => exact .nil
      | some wait =>
          obtain ⟨hwait, hbackoff⟩ := h s a wait hsleep
          exact Mealy.run_cons.mpr ⟨hwait, hbackoff ▸ ih (turn s a).1⟩

end Turns

variable {n : Nat} (Z : Decompress)

/-! ## The four loops -/

def Nitro.outcome (args : Nitro.Args n) (l : Nitro.Locals) (attempt : Attempt) : Outcome :=
  match (Client.connect attempt.dial (Nitro.config args l.nextSeq) attempt.reads : Dialed Z) with
  | .failed e => .failed (rejection e)
  | _ => .lost

def Nitro.turn (codec : Nitro.Codec) (args : Nitro.Args n) (l : Nitro.Locals)
    (attempt : Attempt) : Nitro.Locals × Outcome × Option Nat :=
  let (l', v) := Nitro.visit codec args Z l attempt
  (l', Nitro.outcome Z args l attempt, v.sleep)

def Generic.outcome (src : Generic n) (attempt : Attempt) : Outcome :=
  match (Client.connect attempt.dial src.config attempt.reads : Dialed Z) with
  | .failed e => .failed (rejection e)
  | .waiting => .lost
  | .connected c _ =>
      match src.subscribed attempt.env c with
      | (_, .error _) => .unsubscribed
      | (_, .ok ()) => .lost

def Generic.turn (src : Generic n) (backoff : Nat) (attempt : Attempt) :
    Nat × Outcome × Option Nat :=
  let (backoff', v) := src.visit Z backoff attempt
  (backoff', src.outcome Z attempt, v.sleep)

def Eira.outcome (session : Eira.Session) : Outcome :=
  if session.updates.any fun s => s.update matches .ack _ then .lost else .failed none

def Eira.turn (args : Eira.Args n) (backoff : Nat) (session : Eira.Session) :
    Nat × Outcome × Option Nat :=
  let (backoff', v) := Eira.visit args backoff session
  (backoff', Eira.outcome session, v.sleep)

/-- The turns that have ended in some run of the adapter. -/
def Adapter.Turns : Adapter → List Ended → Prop
  | .nitro, turns => ∃ n codec, ∃ args : Nitro.Args n, ∃ Z attempts,
      turns = endedBy (Nitro.turn Z codec args) .start attempts
  | .wsjson, turns => ∃ n codec fromSlice, ∃ index : Fin n, ∃ src stamp Z attempts,
      turns = endedBy ((WsJson.feed codec fromSlice index src stamp).turn Z) initialBackoff attempts
  | .wsraw, turns => ∃ n codec, ∃ index : Fin n, ∃ src stamp Z attempts,
      turns = endedBy ((WsRaw.feed codec index src stamp).turn Z) initialBackoff attempts
  | .eira, turns => ∃ n, ∃ args : Eira.Args n, ∃ sessions,
      turns = endedBy (Eira.turn args) initialBackoff sessions

/-! The waits are those of the runs. -/

theorem Nitro.waits_ended (codec : Nitro.Codec) (args : Nitro.Args n) (l : Nitro.Locals)
    (attempts : List Attempt) :
    (endedBy (Nitro.turn Z codec args) l attempts).map Prod.snd =
      (Nitro.run codec args Z l attempts).filterMap Visit.sleep :=
  waits_endedBy _ (Nitro.run codec args Z) Visit.sleep (fun _ => rfl)
    (fun _ _ _ => ⟨_, rfl, rfl⟩) l attempts

theorem Generic.waits_ended (src : Generic n) (backoff : Nat) (attempts : List Attempt) :
    (endedBy (src.turn Z) backoff attempts).map Prod.snd =
      (src.run Z backoff attempts).filterMap Visit.sleep :=
  waits_endedBy _ (src.run Z) Visit.sleep (fun _ => rfl) (fun _ _ _ => ⟨_, rfl, rfl⟩)
    backoff attempts

theorem Eira.waits_ended (args : Eira.Args n) (backoff : Nat) (sessions : List Eira.Session) :
    (endedBy (Eira.turn args) backoff sessions).map Prod.snd =
      (Eira.turns args backoff sessions).filterMap Eira.Turn.sleep :=
  waits_endedBy _ (Eira.turns args) Eira.Turn.sleep (fun _ => rfl) (fun _ _ _ => ⟨_, rfl, rfl⟩)
    backoff sessions

/-! ## The policies -/

def wsWait (backoff : Nat) : Outcome → Nat
  | .failed none => backoff
  | .failed (some r) => retryDelay (.rejected r) backoff
  | .unsubscribed => 0
  | .lost => 10 ^ 9

def wsPolicy : Mealy Nat Outcome Nat where
  out := wsWait
  next backoff
    | .failed _ => nextBackoff backoff
    | _ => initialBackoff

def eiraPolicy : Mealy Nat Outcome Nat where
  out backoff _ := backoff
  next backoff _ := nextBackoff backoff

theorem wsWait_failed (backoff : Nat) (e : ConnectError) :
    wsWait backoff (.failed (rejection e)) = retryDelay e backoff := by
  cases e <;> rfl

theorem Nitro.turns_run (codec : Nitro.Codec) (args : Nitro.Args n) (l : Nitro.Locals)
    (attempts : List Attempt) :
    wsPolicy.Run l.backoff (endedBy (Nitro.turn Z codec args) l attempts) := by
  refine run_endedBy _ wsPolicy Nitro.Locals.backoff (fun l attempt wait => ?_) l attempts
  unfold Nitro.turn Nitro.visit Nitro.outcome
  dsimp only
  generalize (Client.connect attempt.dial (Nitro.config args l.nextSeq) attempt.reads : Dialed Z) =
    dialed
  cases dialed with
  | waiting =>
      intro h
      cases h
  | failed e =>
      intro h
      cases h
      exact ⟨(wsWait_failed l.backoff e).symm, rfl⟩
  | connected c left =>
      intro h
      obtain ⟨e, -, rfl⟩ := Option.map_eq_some_iff.mp h
      exact ⟨rfl, rfl⟩

theorem Generic.turn_cases (src : Generic n) (backoff : Nat) (attempt : Attempt) :
    (src.turn Z backoff attempt).2.2 = none ∨
    (∃ e, src.turn Z backoff attempt =
      (nextBackoff backoff, .failed (rejection e), some (retryDelay e backoff))) ∨
    src.turn Z backoff attempt = (initialBackoff, .unsubscribed, some 0) ∨
    src.turn Z backoff attempt = (initialBackoff, .lost, some (10 ^ 9)) := by
  unfold Generic.turn Generic.visit Generic.outcome
  dsimp only
  generalize (Client.connect attempt.dial src.config attempt.reads : Dialed Z) = dialed
  cases dialed with
  | waiting => exact .inl rfl
  | failed e => exact .inr (.inl ⟨e, rfl⟩)
  | connected c left =>
      dsimp only
      obtain ⟨c', _ | _⟩ := src.subscribed attempt.env c
      · exact .inr (.inr (.inl rfl))
      · dsimp only
        generalize (c'.session attempt.env (left.map Poll.read ++ attempt.polls)).2.2 = ending
        cases ending with
        | none => exact .inl rfl
        | some e => exact .inr (.inr (.inr rfl))

theorem Generic.turns_run (src : Generic n) (backoff : Nat) (attempts : List Attempt) :
    wsPolicy.Run backoff (endedBy (src.turn Z) backoff attempts) := by
  refine run_endedBy _ wsPolicy (fun backoff => backoff) (fun backoff attempt wait hsleep => ?_)
    backoff attempts
  obtain hwait | ⟨e, hturn⟩ | hturn | hturn := src.turn_cases Z backoff attempt
  · rw [hwait] at hsleep
    cases hsleep
  · rw [hturn] at hsleep ⊢
    obtain rfl := Option.some.inj hsleep
    exact ⟨(wsWait_failed backoff e).symm, rfl⟩
  · rw [hturn] at hsleep ⊢
    obtain rfl := Option.some.inj hsleep
    exact ⟨rfl, rfl⟩
  · rw [hturn] at hsleep ⊢
    obtain rfl := Option.some.inj hsleep
    exact ⟨rfl, rfl⟩

theorem Eira.turns_run (args : Eira.Args n) (backoff : Nat) (sessions : List Eira.Session) :
    eiraPolicy.Run backoff (endedBy (Eira.turn args) backoff sessions) := by
  refine run_endedBy _ eiraPolicy id (fun backoff session wait h => ?_) backoff sessions
  obtain ⟨e, -, rfl⟩ := Option.map_eq_some_iff.mp h
  exact ⟨rfl, rfl⟩

def Adapter.policy : Adapter → Mealy Nat Outcome Nat
  | .eira => eiraPolicy
  | _ => wsPolicy

/-- Every adapter starts with the same backoff and keeps to its policy. -/
theorem Adapter.Turns.run {a : Adapter} {turns : List Ended} (h : a.Turns turns) :
    a.policy.Run initialBackoff turns := by
  cases a with
  | nitro =>
      obtain ⟨n, codec, args, Z, attempts, rfl⟩ := h
      exact Nitro.turns_run Z codec args .start attempts
  | wsjson =>
      obtain ⟨n, codec, fromSlice, index, src, stamp, Z, attempts, rfl⟩ := h
      exact Generic.turns_run Z _ initialBackoff attempts
  | wsraw =>
      obtain ⟨n, codec, index, src, stamp, Z, attempts, rfl⟩ := h
      exact Generic.turns_run Z _ initialBackoff attempts
  | eira =>
      obtain ⟨n, args, sessions, rfl⟩ := h
      exact Eira.turns_run args initialBackoff sessions

/-! ## Spacing -/

def WholeSeconds (backoff : Nat) : Prop := ∃ k, 0 < k ∧ backoff = k * 10 ^ 9

theorem wholeSeconds_initial : WholeSeconds initialBackoff := ⟨1, by decide, rfl⟩

theorem wholeSeconds_next {backoff : Nat} (h : WholeSeconds backoff) :
    WholeSeconds (nextBackoff backoff) := by
  obtain ⟨k, hk, rfl⟩ := h
  refine ⟨min (k * 2) 30, by omega, ?_⟩
  unfold nextBackoff
  omega

/-- What a WebSocket adapter waits.  After a subscription that could not be written nothing is
said. -/
def WsSpaced : Ended → Prop
  | (.unsubscribed, _) => True
  | (.failed (some r), wait) =>
      if r.status = 429 then 45 * 10 ^ 9 ≤ wait
      else r.retryAfter.elim (10 ^ 9 ≤ wait) fun s => wait = s * 10 ^ 9
  | (_, wait) => 10 ^ 9 ≤ wait

def Adapter.Spaced : Adapter → Ended → Prop
  | .eira, (_, wait) => 10 ^ 9 ≤ wait
  | _, turn => WsSpaced turn

theorem le_of_wholeSeconds {backoff : Nat} (h : WholeSeconds backoff) : 10 ^ 9 ≤ backoff := by
  obtain ⟨k, hk, rfl⟩ := h
  omega

theorem wsSpaced_rejected {backoff : Nat} (h : WholeSeconds backoff) (r : Rejected) :
    WsSpaced (.failed (some r), retryDelay (.rejected r) backoff) := by
  unfold WsSpaced retryDelay
  dsimp only
  split
  · exact Nat.mul_le_mul_right _ (Nat.le_max_right _ _)
  · cases r.retryAfter with
    | none =>
        -- A backoff of whole seconds survives being rounded down to seconds.
        obtain ⟨k, hk, rfl⟩ := h
        rw [Option.elim_none, Option.getD_none, Nat.mul_div_cancel k (by decide)]
        omega
    | some s => rfl

theorem wsSpaced_wait {backoff : Nat} (h : WholeSeconds backoff) (o : Outcome) :
    WsSpaced (o, wsWait backoff o) := by
  cases o with
  | failed r =>
      cases r with
      | none => exact le_of_wholeSeconds h
      | some r => exact wsSpaced_rejected h r
  | unsubscribed => exact trivial
  | lost => exact le_rfl

theorem Adapter.spaced_policy (a : Adapter) {backoff : Nat} (h : WholeSeconds backoff)
    (o : Outcome) : a.Spaced (o, a.policy.out backoff o) := by
  cases a with
  | eira => exact le_of_wholeSeconds h
  | nitro | wsjson | wsraw => exact wsSpaced_wait h o

theorem Adapter.wholeSeconds_policy (a : Adapter) {backoff : Nat} (h : WholeSeconds backoff)
    (o : Outcome) : WholeSeconds (a.policy.next backoff o) := by
  cases a with
  | eira => exact wholeSeconds_next h
  | nitro | wsjson | wsraw =>
      cases o with
      | failed r => exact wholeSeconds_next h
      | unsubscribed | lost => exact wholeSeconds_initial

/-- Whatever the turns come to, the adapter waits after each. -/
theorem Adapter.spaced_of_turns (a : Adapter) (turns : List Ended) (h : a.Turns turns) :
    ∀ turn ∈ turns, a.Spaced turn :=
  h.run.forall_mem (fun _ o hb => a.wholeSeconds_policy hb o) (fun _ o hb => a.spaced_policy hb o)
    wholeSeconds_initial

/-! ### Short waits -/

def sampleArgs : Nitro.Args 1 where
  index := ⟨0, Nat.one_pos⟩
  src := { name := "feed".toList, url := "ws://feed/".toList }
  offer := .none
  stamp := .arrival

def sampleSource : WsJson.WsJsonSource where
  name := "feed".toList
  url := "ws://feed/".toList
  path := "result".toList
  headers := []
  subscribe := some "{}".toList

/-- A dial that is answered with these lines, over a connection on which every later write
fails. -/
def answered (head : String) : Attempt where
  dial := Client.sampleDial
  reads := [.bytes 1 (Text.asBytes head.toList)]
  env := {
    mask := fun _ => .replicate 4 0
    writeError := fun _ => some .writeTimeout
    decoded := id }
  polls := []
  up := 3
  down := 4

def busy : Attempt := answered "HTTP/1.1 503 Busy\r\nRetry-After: 0\r\n\r\n"

def limited : Attempt := answered "HTTP/1.1 429 Slow down\r\n\r\n"

def welcome : Attempt :=
  answered "HTTP/1.1 101 Switching Protocols\r\nSec-WebSocket-Accept: a\r\n\r\n"

/-- A dial that is told to come back at once, and the next one, which is told to slow down. -/
theorem spaced_of_turns_limited :
    Adapter.nitro.Spaced (.failed (some ⟨503, "HTTP/1.1 503 Busy".toList, some 0⟩), 0) ∧
      Adapter.nitro.Spaced
        (.failed (some ⟨429, "HTTP/1.1 429 Slow down".toList, none⟩), 45 * 10 ^ 9) := by
  have hspaced := Adapter.spaced_of_turns .nitro [_, _]
    ⟨1, sampleNitro, sampleArgs, Client.noDeflate, [busy, limited], rfl⟩
  exact ⟨hspaced _ List.mem_cons_self, hspaced _ (List.mem_cons_of_mem _ List.mem_cons_self)⟩

/-- A server that asks for no wait gets none, and neither does one that drops the connection
before the subscription is written. -/
theorem turns_backToBack :
    Adapter.nitro.Turns
      (.replicate 2 (.failed (some ⟨503, "HTTP/1.1 503 Busy".toList, some 0⟩), 0)) ∧
    Adapter.wsjson.Turns (.replicate 2 (.unsubscribed, 0)) := by
  refine ⟨⟨1, sampleNitro, sampleArgs, Client.noDeflate, [busy, busy], ?_⟩,
    1, sampleRaw.toCodec, fun _ => none, 0, sampleSource, .arrival, Client.noDeflate,
    [welcome, welcome], ?_⟩
  · decide +kernel
  · decide +kernel

end FeedBench
