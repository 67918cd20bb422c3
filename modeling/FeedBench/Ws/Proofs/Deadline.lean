import FeedBench.Ws.Timed
import FeedBench.Ws.Proofs.Connect

/-!
# Detecting a dead peer

Each iteration of `next_message` begins a new read timer, also after a ping.  A silent peer
is detected in time as long as no ping comes later than the last read and the entry into the
call; after any later ping the call can outlive `read_timeout`.
-/

namespace FeedBench.Ws

open Inflate Lib

namespace Timed

variable {Z : Decompress} {env : Env} {s s' : Timed Z} {c : Client Z} {m : Move} {ms : List Move}

/-! ## One step -/

theorem ended_ne_waiting (e : Error) (entry start : Nat) :
    Phase.ended e ≠ .waiting entry start := by
  simp

theorem idle_ne_waiting (entry start : Nat) : Phase.idle ≠ .waiting entry start := by
  simp

/-- What `resume` does: the clock parts of the client stay, and a call that waits starts its
iteration now, with no complete frame buffered. -/
theorem resume_spec (env : Env) (s : Timed Z) (c : Client Z) (entry : Nat) :
    (s.resume env c entry).now = s.now ∧ c.SameClock (s.resume env c entry).client ∧
      ((s.resume env c entry).phase = .waiting entry s.now ∧
          parseFrame (s.resume env c entry).client.buf (s.resume env c entry).client.max =
            .ok none ∨
        ∀ entry' start, (s.resume env c entry).phase ≠ .waiting entry' start) := by
  have hsame := Client.drain_same env c
  unfold resume
  rcases hd : c.drain env with ⟨c', e | _ | m⟩
  all_goals rw [hd] at hsame
  · exact ⟨rfl, hsame, .inr (ended_ne_waiting e)⟩
  · exact ⟨rfl, hsame, .inl ⟨rfl, Client.drain_rest hd⟩⟩
  · exact ⟨rfl, hsame, .inr idle_ne_waiting⟩

structure Follows (s s' : Timed Z) : Prop where
  now : s'.now = s.now
  pingEvery : s'.client.pingEvery = s.client.pingEvery
  readTimeout : s'.client.readTimeout = s.client.readTimeout
  nextPing : s'.client.nextPing = s.client.nextPing ∨
    s'.client.nextPing = s.now + s.client.pingEvery

inductive Cause (s s' : Timed Z) (entry : Nat) : Move → Prop where
  | call (h : entry = s.now) : Cause s s' entry .call
  | bytes (start : Nat) (data : List UInt8) (h : s.phase = .waiting entry start)
      (hread : s'.client.lastRead = s.now) : Cause s s' entry (.poll (.read (.bytes s.now data)))
  | ping (start : Nat) (h : s.phase = .waiting entry start)
      (hread : s'.client.lastRead = s.client.lastRead) : Cause s s' entry (.poll (.pingDue s.now))

/-- Everything a step can do. -/
inductive Stepped (s s' : Timed Z) : Move → Prop where
  | delayed (d : Nat) (h : s' = { s with now := s.now + d })
      (htimers : ∀ {entry start}, s.phase = .waiting entry start →
        s.now + d ≤ start + s.client.readTimeout ∧ s.now + d ≤ s.client.nextPing) :
      Stepped s s' (.delay d)
  | leaves {m : Move} (h : Follows s s') (hphase : ∀ entry start, s'.phase ≠ .waiting entry start) :
      Stepped s s' m
  | waits {m : Move} (entry : Nat) (h : Follows s s') (hphase : s'.phase = .waiting entry s.now)
      (hbuf : parseFrame s'.client.buf s'.client.max = .ok none) (hcause : Cause s s' entry m) :
      Stepped s s' m

theorem stepped_resume {entry : Nat} (hpingEvery : c.pingEvery = s.client.pingEvery)
    (hreadTimeout : c.readTimeout = s.client.readTimeout)
    (hnextPing : c.nextPing = s.client.nextPing ∨ c.nextPing = s.now + s.client.pingEvery)
    (hcause : c.lastRead = (s.resume env c entry).client.lastRead →
      Cause s (s.resume env c entry) entry m) :
    Stepped s (s.resume env c entry) m := by
  obtain ⟨hnow, hsame, hphase⟩ := resume_spec env s c entry
  have hfollows : Follows s (s.resume env c entry) := by
    refine ⟨hnow, hsame.pingEvery.trans hpingEvery, hsame.readTimeout.trans hreadTimeout, ?_⟩
    rw [hsame.nextPing]
    exact hnextPing
  rcases hphase with ⟨hwaits, hbuf⟩ | hover
  · exact .waits entry hfollows hwaits hbuf (hcause hsame.lastRead.symm)
  · exact .leaves hfollows hover

theorem step_cases (h : s.step env m = some s') : Stepped s s' m := by
  cases m with
  | call =>
      simp only [step] at h
      split at h
      · cases h
        exact stepped_resume rfl rfl (.inl rfl) fun _ => .call rfl
      · cases h
  | delay d =>
      refine .delayed d (step_delay h) ?_
      intro entry start hphase
      simp only [step, hphase] at h
      split at h
      · assumption
      · cases h
  | poll p =>
      simp only [step] at h
      split at h
      · next entry start hphase =>
        split at h
        · next hdue =>
          rcases p with ⟨⟨now, data⟩ | e | _⟩ | now
          · have hnow : now = s.now := by simpa [due] using hdue
            subst hnow
            simp only [Client.onPoll] at h
            by_cases hdata : data = []
            · rw [if_pos hdata] at h
              cases h
              exact .leaves ⟨rfl, rfl, rfl, .inl rfl⟩ (ended_ne_waiting _)
            · rw [if_neg hdata] at h
              cases h
              exact stepped_resume rfl rfl (.inl rfl) fun hread =>
                .bytes start data hphase hread.symm
          · cases h
            exact .leaves ⟨rfl, rfl, rfl, .inl rfl⟩ (ended_ne_waiting _)
          · cases h
            exact .leaves ⟨rfl, rfl, rfl, .inl rfl⟩ (ended_ne_waiting _)
          · obtain ⟨hnow, -⟩ : now = s.now ∧ s.client.nextPing ≤ s.now := by simpa [due] using hdue
            subst hnow
            have hsame := Client.write_same env
              { s.client with nextPing := s.now + s.client.pingEvery } [] opPing
            simp only [Client.onPoll] at h
            rcases hw : Client.write env
              { s.client with nextPing := s.now + s.client.pingEvery } [] opPing with ⟨c, e | _⟩
            all_goals
              rw [hw] at h hsame
              cases h
            · exact .leaves ⟨rfl, hsame.pingEvery, hsame.readTimeout, .inr hsame.nextPing⟩
                (ended_ne_waiting _)
            · exact stepped_resume hsame.pingEvery hsame.readTimeout (.inr hsame.nextPing)
                fun hread => .ping start hphase (hread.symm.trans hsame.lastRead)
        · cases h
      · cases h

/-! ## Pings in time -/

structure InTime (s : Timed Z) : Prop where
  start_le : ∀ {entry start}, s.phase = .waiting entry start → start ≤ s.base
  now_le : ∀ {entry start}, s.phase = .waiting entry start →
    s.now ≤ start + s.client.readTimeout

theorem base_waiting {entry start : Nat} (h : s.phase = .waiting entry start) :
    s.base = max s.client.lastRead entry := by
  unfold base
  rw [h]

theorem InTime.not_overdue (h : s.InTime) : s.overdue = false := by
  unfold overdue
  split
  · next entry start hphase =>
    have hstart := h.start_le hphase
    have hnow := h.now_le hphase
    rw [decide_eq_false_iff_not]
    omega
  · rfl

theorem InTime.step (h : s.InTime) (hping : ∀ now, m = .poll (.pingDue now) → s.now ≤ s.base)
    (hstep : s.step env m = some s') : s'.InTime := by
  cases step_cases hstep with
  | delayed d hs' htimers =>
      subst hs'
      constructor
      · intro entry start hphase
        exact h.start_le hphase
      · intro entry start hphase
        exact (htimers hphase).1
  | leaves _ hphase =>
      constructor
      · intro entry start hwaits
        exact absurd hwaits (hphase entry start)
      · intro entry start hwaits
        exact absurd hwaits (hphase entry start)
  | waits entry hfollows hphase _ hcause =>
      constructor
      · intro entry' start hwaits
        have hboth := hphase.symm.trans hwaits
        simp only [Phase.waiting.injEq] at hboth
        obtain ⟨rfl, rfl⟩ := hboth
        rw [base_waiting hphase]
        cases hcause with
        | call hentry => omega
        | bytes start data hwait hread => omega
        | ping start hwait hread =>
            have hbase := hping s.now rfl
            rw [base_waiting hwait] at hbase
            omega
      · intro entry' start hwaits
        have hboth := hphase.symm.trans hwaits
        simp only [Phase.waiting.injEq] at hboth
        obtain ⟨rfl, rfl⟩ := hboth
        rw [hfollows.now]
        omega

/-- Every ping of the run comes by the later of the last read and the entry into the call. -/
def PingsInTime (env : Env) (s : Timed Z) (ms : List Move) : Prop :=
  ∀ before now after s', ms = before ++ .poll (.pingDue now) :: after →
    s.run env before = some s' → s'.now ≤ s'.base

theorem InTime.run (h : s.InTime) (hpings : PingsInTime env s ms) (hrun : s.run env ms = some s') :
    s'.InTime := by
  induction ms generalizing s with
  | nil =>
      cases hrun
      exact h
  | cons m ms ih =>
      rw [Timed.run] at hrun
      obtain ⟨s₁, hstep, hrest⟩ := Option.bind_eq_some_iff.mp hrun
      have hping : ∀ now, m = .poll (.pingDue now) → s.now ≤ s.base := by
        intro now hm
        exact hpings [] now ms s (by rw [hm]; rfl) rfl
      apply ih (h.step hping hstep) _ hrest
      intro before now after s₂ hsplit hbefore
      apply hpings (m :: before) now after s₂
      · rw [hsplit]
        rfl
      · rw [Timed.run, hstep]
        exact hbefore

/-! ## Late pings -/

def pinged (env : Env) (c : Client Z) (now : Nat) : Client Z :=
  { c with
    nextPing := now + c.pingEvery
    written := c.written ++ [⟨[], opPing, env.mask c.written.length⟩] }

/-- A call that waits in an iteration begun just now, after the later of the last read and the
entry, with the next ping a whole period away. -/
structure Restarted (s : Timed Z) : Prop where
  phase : ∃ entry, s.phase = .waiting entry s.now
  late : s.base < s.now
  nextPing : s.client.nextPing = s.now + s.client.pingEvery
  buf : parseFrame s.client.buf s.client.max = .ok none

theorem step_pinged (hwrites : ∀ k, env.writeError k = none) {entry start : Nat}
    (hphase : s.phase = .waiting entry start) (hdue : s.client.nextPing ≤ s.now)
    (hbuf : parseFrame s.client.buf s.client.max = .ok none) :
    s.step env (.poll (.pingDue s.now)) =
      some { s with client := pinged env s.client s.now, phase := .waiting entry s.now } := by
  have hwrite : s.client.onPoll env (.pingDue s.now) = (pinged env s.client s.now, .ok ()) := by
    simp only [Client.onPoll, Client.write, hwrites, pinged]
  have hdrain : (pinged env s.client s.now).drain env =
      (pinged env s.client s.now, .ok none) := Client.drain_of_none hbuf
  have hisDue : s.due start (.pingDue s.now) = true := by simp [due, hdue]
  simp only [step, hphase, hisDue, if_true, hwrite, resume, hdrain]

theorem step_ping (hwrites : ∀ k, env.writeError k = none) {entry start : Nat}
    (hphase : s.phase = .waiting entry start) (hdue : s.client.nextPing ≤ s.now)
    (hbuf : parseFrame s.client.buf s.client.max = .ok none) (hlate : s.base < s.now) :
    ∃ s', s.step env (.poll (.pingDue s.now)) = some s' ∧ s'.Restarted ∧ s'.now = s.now ∧
      s'.base = s.base ∧ s'.client.pingEvery = s.client.pingEvery ∧
      s'.client.readTimeout = s.client.readTimeout := by
  have hbase : { s with
      client := pinged env s.client s.now, phase := Phase.waiting entry s.now }.base = s.base := by
    rw [base_waiting hphase]
    rfl
  exact ⟨_, step_pinged hwrites hphase hdue hbuf,
    ⟨⟨entry, rfl⟩, by rw [hbase]; exact hlate, rfl, hbuf⟩, rfl, hbase, rfl, rfl⟩

theorem step_wait (env : Env) {d entry start : Nat} (hphase : s.phase = .waiting entry start)
    (hread : s.now + d ≤ start + s.client.readTimeout) (hping : s.now + d ≤ s.client.nextPing) :
    s.step env (.delay d) = some { s with now := s.now + d } := by
  simp only [step, hphase, hread, hping, and_self, if_true]

theorem Restarted.overdue (hwrites : ∀ k, env.writeError k = none) (h : s.Restarted)
    (hping : 0 < s.client.pingEvery) :
    ∃ ms s', s.run env ms = some s' ∧ s'.overdue = true := by
  -- by the time that is left until the deadline the read timer should have had
  induction hn : s.base + s.client.readTimeout + 1 - s.now using Nat.strongRecOn generalizing s with
  | ind n ih =>
      obtain ⟨entry, hphase⟩ := h.phase
      have hlate := h.late
      have hnext := h.nextPing
      by_cases hover : s.base + s.client.readTimeout < s.now
      · refine ⟨[], s, rfl, ?_⟩
        simp only [Timed.overdue, hphase, hover, decide_true]
      by_cases hshort : s.client.readTimeout ≤ s.client.pingEvery
      · have hwait := step_wait env (d := s.client.readTimeout) hphase (by omega) (by omega)
        refine ⟨[.delay s.client.readTimeout], _, by rw [Timed.run, hwait]; rfl, ?_⟩
        have hbase := base_waiting hphase
        simp only [Timed.overdue, hphase, base, decide_eq_true_eq]
        omega
      · have hwait := step_wait env (d := s.client.pingEvery) hphase (by omega) (by omega)
        have hbase : { s with now := s.now + s.client.pingEvery }.base = s.base := rfl
        obtain ⟨s₁, hstep, hrestarted, hnow, hbase₁, hpingEvery, hreadTimeout⟩ :=
          step_ping (s := { s with now := s.now + s.client.pingEvery }) hwrites hphase
            (by dsimp only; omega) h.buf (by rw [hbase]; dsimp only; omega)
        dsimp only at hnow hpingEvery hreadTimeout
        rw [hbase] at hbase₁
        obtain ⟨ms, s', hrun, hoverdue⟩ := ih _ (by omega) hrestarted (by omega) rfl
        refine ⟨.delay s.client.pingEvery :: .poll (.pingDue (s.now + s.client.pingEvery)) :: ms,
          s', ?_, hoverdue⟩
        rw [Timed.run, hwait, Option.bind_some, Timed.run, hstep, Option.bind_some]
        exact hrun

/-! ## Runs -/

def Drained (s : Timed Z) : Prop :=
  ∀ entry start, s.phase = .waiting entry start →
    parseFrame s.client.buf s.client.max = .ok none

theorem Drained.step (h : s.Drained) (hstep : s.step env m = some s') :
    s'.Drained ∧ s'.client.pingEvery = s.client.pingEvery ∧
      s'.client.readTimeout = s.client.readTimeout := by
  cases step_cases hstep with
  | delayed d hs' _ =>
      subst hs'
      exact ⟨h, rfl, rfl⟩
  | leaves hfollows hphase =>
      exact ⟨fun entry start hwaits => absurd hwaits (hphase entry start), hfollows.pingEvery,
        hfollows.readTimeout⟩
  | waits _ hfollows _ hbuf _ =>
      exact ⟨fun _ _ _ => hbuf, hfollows.pingEvery, hfollows.readTimeout⟩

theorem Drained.run (h : s.Drained) (hrun : s.run env ms = some s') :
    s'.Drained ∧ s'.client.pingEvery = s.client.pingEvery ∧
      s'.client.readTimeout = s.client.readTimeout := by
  induction ms generalizing s with
  | nil =>
      cases hrun
      exact ⟨h, rfl, rfl⟩
  | cons m ms ih =>
      rw [Timed.run] at hrun
      obtain ⟨s₁, hstep, hrest⟩ := Option.bind_eq_some_iff.mp hrun
      obtain ⟨h₁, hpingEvery₁, hreadTimeout₁⟩ := h.step hstep
      obtain ⟨h₂, hpingEvery₂, hreadTimeout₂⟩ := ih h₁ hrest
      exact ⟨h₂, hpingEvery₂.trans hpingEvery₁, hreadTimeout₂.trans hreadTimeout₁⟩

theorem PingsInTime.before {before : List Move} (h : PingsInTime env s ms)
    (hpre : before <+: ms) : PingsInTime env s before := by
  obtain ⟨rest, rfl⟩ := hpre
  intro before' now after s' hsplit hrun
  exact h before' now (after ++ rest) s' (by rw [hsplit]; simp) hrun

/-! ## The deadline -/

/-- When the call must have ended, if nothing arrives. -/
def deadline (s : Timed Z) : Nat := s.base + s.client.readTimeout

/-- A call that waits is in time, and at the deadline time stands still until the read timer,
which is due, ends the call. -/
structure Detects (env : Env) (s : Timed Z) : Prop where
  in_time : s.overdue = false
  fires : ∀ {entry start}, s.phase = .waiting entry start → s.deadline ≤ s.now →
    s.step env (.poll (.read .timeout)) =
      some { s with phase := .ended (.noData s.client.readTimeout) }
  stands : ∀ {entry start}, s.phase = .waiting entry start → s.deadline ≤ s.now →
    ∀ d, 0 < d → s.step env (.delay d) = none

theorem InTime.detects (h : s.InTime) : s.Detects env := by
  refine ⟨h.not_overdue, ?_, ?_⟩
  · intro entry start hphase hdeadline
    have hstart := h.start_le hphase
    have hdue : s.due start (.read .timeout) = true := by
      unfold deadline at hdeadline
      simp only [due, decide_eq_true_eq]
      omega
    simp only [Timed.step, hphase, hdue, if_true, Client.onPoll]
  · intro entry start hphase hdeadline d hd
    have hstart := h.start_le hphase
    unfold deadline at hdeadline
    simp only [Timed.step, hphase]
    rw [if_neg (by omega)]

def silent : Move → Bool
  | .delay _ => true
  | .poll (.read .timeout) => true
  | .poll (.pingDue _) => true
  | _ => false

/-- The call waits as it did, with `base` as its last sign of life, or the read timer ended it. -/
inductive Awaits (base timeout : Nat) (s : Timed Z) : Prop where
  | waits {entry start : Nat} (hphase : s.phase = .waiting entry start) (hbase : s.base = base)
      (htimeout : s.client.readTimeout = timeout)
      (hbuf : parseFrame s.client.buf s.client.max = .ok none) : Awaits base timeout s
  | ended (h : s.phase = .ended (.noData timeout)) : Awaits base timeout s

theorem poll_due {p : Poll} (h : s.step env (.poll p) = some s') :
    ∃ entry start, s.phase = .waiting entry start ∧ s.due start p = true := by
  simp only [step] at h
  split at h
  · next entry start hphase =>
    split at h
    · next hdue => exact ⟨entry, start, hphase, hdue⟩
    · cases h
  · cases h

theorem Awaits.step {base timeout : Nat} (h : s.Awaits base timeout)
    (hwrites : ∀ k, env.writeError k = none) (hsilent : silent m = true)
    (hstep : s.step env m = some s') : s'.Awaits base timeout := by
  cases m with
  | call => exact absurd hsilent Bool.false_ne_true
  | delay d =>
      rw [step_delay hstep]
      cases h with
      | waits hphase hbase htimeout hbuf => exact .waits hphase hbase htimeout hbuf
      | ended h => exact .ended h
  | poll p =>
      obtain ⟨entry, start, hphase, hdue⟩ := poll_due hstep
      cases h with
      | ended h =>
          rw [h] at hphase
          cases hphase
      | waits _ hbase htimeout hbuf =>
          rcases p with ⟨⟨now, data⟩ | e | _⟩ | now
          · exact absurd hsilent Bool.false_ne_true
          · exact absurd hsilent Bool.false_ne_true
          · simp only [Timed.step, hphase, hdue, if_true, Client.onPoll, htimeout] at hstep
            cases hstep
            exact .ended rfl
          · obtain ⟨rfl, hping⟩ : now = s.now ∧ s.client.nextPing ≤ s.now := by
              simpa [due] using hdue
            rw [step_pinged hwrites hphase hping hbuf] at hstep
            cases hstep
            refine .waits rfl ?_ htimeout hbuf
            rw [← hbase, base_waiting hphase]
            rfl

theorem Awaits.run {base timeout : Nat} (h : s.Awaits base timeout)
    (hwrites : ∀ k, env.writeError k = none) (hsilent : ∀ m ∈ ms, silent m = true)
    (hrun : s.run env ms = some s') : s'.Awaits base timeout := by
  induction ms generalizing s with
  | nil =>
      cases hrun
      exact h
  | cons m ms ih =>
      rw [Timed.run] at hrun
      obtain ⟨s₁, hstep, hrest⟩ := Option.bind_eq_some_iff.mp hrun
      have hnext := h.step hwrites (hsilent m List.mem_cons_self) hstep
      exact ih hnext (fun m' hmem => hsilent m' (List.mem_cons_of_mem m hmem)) hrest

/-- A silent call has ended by the deadline, for want of data. -/
theorem ended_of_silence (hwrites : ∀ k, env.writeError k = none) (hdrained : s.Drained)
    (hwaits : ∃ entry start, s.phase = .waiting entry start) (hsilent : ∀ m ∈ ms, silent m = true)
    (hrun : s.run env ms = some s') (hintime : s'.InTime) (hlate : s.deadline < s'.now) :
    s'.phase = .ended (.noData s.client.readTimeout) := by
  obtain ⟨entry, start, hphase⟩ := hwaits
  have hstart : s.Awaits s.base s.client.readTimeout :=
    .waits hphase rfl rfl (hdrained entry start hphase)
  cases hstart.run hwrites hsilent hrun with
  | ended h => exact h
  | waits hphase' hbase htimeout _ =>
      have hle := hintime.now_le hphase'
      have hbefore := hintime.start_le hphase'
      unfold deadline at hlate
      omega

/-! ## The callers' periods -/

/-- The next ping is at most a period away, and a call that waits has not passed it. -/
structure PingFirst (s : Timed Z) : Prop where
  nextPing_le : s.client.nextPing ≤ s.now + s.client.pingEvery
  waits : ∀ {entry start}, s.phase = .waiting entry start →
    s.client.nextPing ≤ start + s.client.pingEvery ∧ (s.now ≤ start ∨ s.now ≤ s.client.nextPing)

theorem PingFirst.step (h : s.PingFirst) (hstep : s.step env m = some s') : s'.PingFirst := by
  have hle := h.nextPing_le
  cases step_cases hstep with
  | delayed d hs' htimers =>
      subst hs'
      constructor
      · dsimp only
        omega
      · intro entry start hphase
        exact ⟨(h.waits hphase).1, .inr (htimers hphase).2⟩
  | leaves hfollows hphase =>
      have hnow := hfollows.now
      have hpingEvery := hfollows.pingEvery
      constructor
      · rcases hfollows.nextPing with hnext | hnext <;> omega
      · intro entry start hwaits
        exact absurd hwaits (hphase entry start)
  | waits entry hfollows hphase _ _ =>
      have hnow := hfollows.now
      have hpingEvery := hfollows.pingEvery
      constructor
      · rcases hfollows.nextPing with hnext | hnext <;> omega
      · intro entry' start hwaits
        have hboth := hphase.symm.trans hwaits
        simp only [Phase.waiting.injEq] at hboth
        rcases hfollows.nextPing with hnext | hnext <;> omega

theorem PingFirst.run (h : s.PingFirst) (hrun : s.run env ms = some s') : s'.PingFirst := by
  induction ms generalizing s with
  | nil =>
      cases hrun
      exact h
  | cons m ms ih =>
      rw [Timed.run] at hrun
      obtain ⟨s₁, hstep, hrest⟩ := Option.bind_eq_some_iff.mp hrun
      exact ih (h.step hstep) hrest

/-- With a ping period below the read timeout, as the callers have it, the read timer is never
due. -/
theorem read_timer_never_due (hidle : s.phase = .idle)
    (hnext : s.client.nextPing ≤ s.now + s.client.pingEvery)
    (hperiods : s.client.pingEvery < s.client.readTimeout) (hrun : s.run env ms = some s') :
    s'.step env (.poll (.read .timeout)) = none := by
  have hdrained : s.Drained := by
    intro entry start hwaits
    rw [hidle] at hwaits
    cases hwaits
  have hstart : s.PingFirst := by
    constructor
    · exact hnext
    · intro entry start hwaits
      rw [hidle] at hwaits
      cases hwaits
  obtain ⟨-, hpingEvery, hreadTimeout⟩ := hdrained.run hrun
  have hfirst := hstart.run hrun
  simp only [Timed.step]
  split
  · next entry start hphase =>
    have hwaits := hfirst.waits hphase
    have hnot : s'.due start (.read .timeout) = false := by
      simp only [due, decide_eq_false_iff_not]
      omega
    rw [hnot]
    rfl
  · rfl

/-! ## Every run -/

theorem inTime_of_idle (h : s.phase = .idle) : s.InTime := by
  constructor
  · intro entry start hwaits
    rw [h] at hwaits
    cases hwaits
  · intro entry start hwaits
    rw [h] at hwaits
    cases hwaits

theorem drained_of_idle (h : s.phase = .idle) : s.Drained := by
  intro entry start hwaits
  rw [h] at hwaits
  cases hwaits

/-- A run whose pings come in time detects a dead peer: no call is overdue, at the deadline the
read timer is due and ends the call, and a call that stays silent has so ended by then.  After a
late ping the call can wait too long.  With the callers' periods the read timer is never due. -/
theorem dead_peer_detected (hwrites : ∀ k, env.writeError k = none) (hidle : s.phase = .idle)
    (hping : 0 < s.client.pingEvery) (hrun : s.run env ms = some s') :
    (PingsInTime env s ms →
        ∀ before after s₁ s₂, before ++ after <+: ms → s.run env before = some s₁ →
          s₁.run env after = some s₂ →
          s₁.Detects env ∧
            ((∃ entry start, s₁.phase = .waiting entry start) → (∀ m ∈ after, silent m = true) →
              s₁.deadline < s₂.now →
                s₂.phase = .ended (.noData s₁.client.readTimeout))) ∧
      (¬PingsInTime env s ms →
        ∃ before later s₁, before <+: ms ∧ s.run env (before ++ later) = some s₁ ∧
          s₁.overdue = true) ∧
      (s.client.nextPing ≤ s.now + s.client.pingEvery →
        s.client.pingEvery < s.client.readTimeout →
          s'.step env (.poll (.read .timeout)) = none) := by
  refine ⟨?_, ?_, fun hnext hperiods => read_timer_never_due hidle hnext hperiods hrun⟩
  · intro hpings before after s₁ s₂ hpre hbefore hafter
    have hstart := inTime_of_idle hidle
    have hmiddle : s₁.InTime :=
      hstart.run (hpings.before ((List.prefix_append before after).trans hpre)) hbefore
    have hboth : s.run env (before ++ after) = some s₂ := by
      rw [run_append, hbefore, Option.bind_some, hafter]
    have hend : s₂.InTime := hstart.run (hpings.before hpre) hboth
    have hdrained := ((drained_of_idle hidle).run hbefore).1
    exact ⟨hmiddle.detects, fun hwaits hsilent hlate =>
      ended_of_silence hwrites hdrained hwaits hsilent hafter hend hlate⟩
  · intro hpings
    unfold PingsInTime at hpings
    push Not at hpings
    obtain ⟨before, now, after, s₁, hsplit, hbefore, hlate⟩ := hpings
    obtain ⟨hdrained₁, hpingEvery, -⟩ := (drained_of_idle hidle).run hbefore
    rw [hsplit, run_append, hbefore, Option.bind_some, Timed.run] at hrun
    obtain ⟨s₂, hstep, -⟩ := Option.bind_eq_some_iff.mp hrun
    obtain ⟨entry, start, hphase, hdue⟩ := poll_due hstep
    obtain ⟨rfl, hnextPing⟩ : now = s₁.now ∧ s₁.client.nextPing ≤ s₁.now := by
      simpa [due] using hdue
    obtain ⟨s₃, hstep₃, hrestarted, -, -, hpingEvery₃, -⟩ :=
      step_ping hwrites hphase hnextPing (hdrained₁ entry start hphase) hlate
    obtain ⟨later, s₄, hlater, hoverdue⟩ := hrestarted.overdue hwrites (by omega)
    refine ⟨before ++ [.poll (.pingDue s₁.now)], later, s₄, ⟨after, by rw [hsplit]; simp⟩, ?_,
      hoverdue⟩
    rw [run_append, run_append, hbefore, Option.bind_some, Timed.run, hstep₃]
    exact hlater

def callerConfig : Config :=
  { Client.sampleConfig with pingEvery := 20 * 10 ^ 9, readTimeout := 60 * 10 ^ 9 }

def connected : Timed Client.noDeflate where
  now := 0
  client := Client.accepted callerConfig 0 [] [] none none
  phase := .idle

def silence : List Move :=
  [.call, .delay (20 * 10 ^ 9), .poll (.pingDue (20 * 10 ^ 9)), .delay (20 * 10 ^ 9),
    .poll (.pingDue (40 * 10 ^ 9)), .delay (20 * 10 ^ 9), .poll (.pingDue (60 * 10 ^ 9)),
    .delay (20 * 10 ^ 9)]

def sampleEnv : Env where
  mask _ := .replicate 4 0
  writeError _ := none
  decoded _ := 0

/-- After 80 s of silence the call still waits, with a read timeout of 60 s. -/
theorem silence_undetected :
    ¬∀ (env : Env) (s s' : Timed Client.noDeflate) (ms : List Move),
      (∀ k, env.writeError k = none) → s.phase = .idle → 0 < s.client.pingEvery →
        0 < s.client.readTimeout → s.run env ms = some s' → s'.overdue = false := by
  intro h
  have hoverdue : (connected.run sampleEnv silence).any Timed.overdue = true := by decide +kernel
  obtain ⟨s', hrun, hs'⟩ := (Option.any_eq_true _ _).mp hoverdue
  rw [h sampleEnv connected s' silence (fun _ => rfl) rfl (by decide) (by decide) hrun] at hs'
  cases hs'

/-- Just connected, with a ping period above the read timeout. -/
def patient : Timed Client.noDeflate where
  now := 0
  client := Client.accepted { callerConfig with pingEvery := 60 * 10 ^ 9, readTimeout := 20 * 10 ^ 9 }
    0 [] [] none none
  phase := .idle

def outlasted : List Move := [.delay (20 * 10 ^ 9), .poll (.read .timeout), .delay 1]

/-- A silent call without pings ends in time, and the call that pings is overdue in the end. -/
theorem dead_peer_detected_silence :
    (patient.run sampleEnv (.call :: outlasted)).map Timed.phase =
        some (.ended (.noData (20 * 10 ^ 9))) ∧
      (∃ before later s₁, before <+: silence ∧
        connected.run sampleEnv (before ++ later) = some s₁ ∧ s₁.overdue = true) ∧
      (connected.run sampleEnv silence).bind
        (fun s' => s'.step sampleEnv (.poll (.read .timeout))) = none := by
  have hwrites : ∀ k, sampleEnv.writeError k = none := fun _ => rfl
  obtain ⟨s', hrun⟩ := Option.isSome_iff_exists.mp (show (connected.run sampleEnv
    silence).isSome = true by decide +kernel)
  have hsilence := dead_peer_detected hwrites rfl (show 0 < connected.client.pingEvery by decide)
    hrun
  refine ⟨?_, hsilence.2.1 ?_, ?_⟩
  · have hcalled : (patient.run sampleEnv [.call]).any fun s =>
        s.phase = .waiting 0 0 ∧ s.deadline = 20 * 10 ^ 9 ∧ s.client.readTimeout = 20 * 10 ^ 9 := by
      decide +kernel
    obtain ⟨s₁, hcall, hs₁⟩ := (Option.any_eq_true _ _).mp hcalled
    obtain ⟨hphase, hdeadline, htimeout⟩ := of_decide_eq_true hs₁
    have hpassed : (patient.run sampleEnv (.call :: outlasted)).any fun s =>
        s.now = 20 * 10 ^ 9 + 1 := by
      decide +kernel
    obtain ⟨s₂, hall, hs₂⟩ := (Option.any_eq_true _ _).mp hpassed
    have hnow := of_decide_eq_true hs₂
    have hrest : s₁.run sampleEnv outlasted = some s₂ := by
      have happend : patient.run sampleEnv ([.call] ++ outlasted) =
          (patient.run sampleEnv [.call]).bind fun s => s.run sampleEnv outlasted :=
        patient.run_append [.call] outlasted
      rw [hcall, Option.bind_some] at happend
      exact happend.symm.trans hall
    have hpings : PingsInTime sampleEnv patient (.call :: outlasted) := by
      intro before now rest s₃ hsplit
      have hmem : Move.poll (.pingDue now) ∈ Move.call :: outlasted := by
        rw [hsplit]
        simp
      simp [outlasted] at hmem
    have hended := ((dead_peer_detected hwrites rfl (by decide) hall).1 hpings [.call] outlasted
      s₁ s₂ (List.prefix_refl _) hcall hrest).2 ⟨0, 0, hphase⟩ (by decide)
      (by rw [hdeadline, hnow]; omega)
    rw [hall, Option.map_some, hended, htimeout]
  · intro hpings
    have hlate : (connected.run sampleEnv [.call, .delay (20 * 10 ^ 9)]).any
        (fun s => decide (s.base < s.now)) = true := by decide +kernel
    obtain ⟨s₁, hbefore, hs₁⟩ := (Option.any_eq_true _ _).mp hlate
    have hle := hpings [.call, .delay (20 * 10 ^ 9)] (20 * 10 ^ 9) (silence.drop 3) s₁ rfl hbefore
    simp only [decide_eq_true_eq] at hs₁
    omega
  · rw [hrun, Option.bind_some]
    exact hsilence.2.2 (by decide) (by decide)

end Timed

end FeedBench.Ws
