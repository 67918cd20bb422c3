import FeedBench.Ws.Session

/-!
# The client against a clock

The calls of `next_message` as steps of a timed system.  Time passes only while no timer of
the `select!` is due.  A due timer fires at once, in any order with the other and with bytes
that arrive at the same instant.
-/

namespace FeedBench.Ws

open Inflate Lib

variable {Z : Decompress}

inductive Phase where
  /-- Between two calls. -/
  | idle
  /-- In a call entered at `entry`, waiting in the iteration of its loop begun at `start`. -/
  | waiting (entry start : Nat)
  | ended (e : Error)
  deriving DecidableEq

structure Timed (Z : Decompress) where
  now : Nat
  client : Client Z
  phase : Phase

inductive Move where
  /-- The caller calls `next_message`. -/
  | call
  /-- The `select!` ends. -/
  | poll (p : Poll)
  /-- Time passes. -/
  | delay (d : Nat)
  deriving DecidableEq

namespace Timed

variable (env : Env)

/-- Act on the buffered frames, and wait if they are no message. -/
def resume (s : Timed Z) (c : Client Z) (entry : Nat) : Timed Z :=
  match c.drain env with
  | (c, .error e) => { s with client := c, phase := .ended e }
  | (c, .ok (some _)) => { s with client := c, phase := .idle }
  | (c, .ok none) => { s with client := c, phase := .waiting entry s.now }

/-- Whether the `select!` of an iteration begun at `start` can end so now. -/
def due (s : Timed Z) (start : Nat) : Poll → Bool
  | .read (.bytes now _) => now = s.now
  | .read (.error _) => true
  | .read .timeout => start + s.client.readTimeout ≤ s.now
  | .pingDue now => now = s.now ∧ s.client.nextPing ≤ s.now

def step (s : Timed Z) : Move → Option (Timed Z)
  | .call => if s.phase = .idle then some (s.resume env s.client s.now) else none
  | .poll p =>
      match s.phase with
      | .waiting entry start =>
          if s.due start p then
            match s.client.onPoll env p with
            | (c, .error e) => some { s with client := c, phase := .ended e }
            | (c, .ok ()) => some (s.resume env c entry)
          else none
      | _ => none
  | .delay d =>
      match s.phase with
      | .waiting _ start =>
          if s.now + d ≤ start + s.client.readTimeout ∧ s.now + d ≤ s.client.nextPing then
            some { s with now := s.now + d }
          else none
      | _ => some { s with now := s.now + d }

def run (s : Timed Z) : List Move → Option (Timed Z)
  | [] => some s
  | m :: ms => (s.step env m).bind fun s' => run s' ms

/-- The later of the last read and the entry into the call. -/
def base (s : Timed Z) : Nat :=
  match s.phase with
  | .waiting entry _ => max s.client.lastRead entry
  | _ => s.client.lastRead

/-- The call still waits although `read_timeout` has passed since. -/
def overdue (s : Timed Z) : Bool :=
  match s.phase with
  | .waiting _ _ => s.base + s.client.readTimeout < s.now
  | _ => false

variable {env}

theorem run_append (s : Timed Z) (ms ms' : List Move) :
    s.run env (ms ++ ms') = (s.run env ms).bind fun s' => s'.run env ms' := by
  induction ms generalizing s with
  | nil => rfl
  | cons m ms ih =>
      rw [List.cons_append, run, run, Option.bind_assoc]
      cases s.step env m with
      | none => rfl
      | some s' => exact ih s'

/-! ## The calls -/

def polls (ms : List Move) : List Poll :=
  ms.filterMap fun m => match m with
    | .poll p => some p
    | _ => none

def Agrees (s : Timed Z) : Outcome Z → Prop
  | .message _ c _ => s.phase = .idle ∧ s.client = c
  | .waiting c => (∃ entry start, s.phase = .waiting entry start) ∧ s.client = c
  | .failed e c => s.phase = .ended e ∧ s.client = c

theorem Agrees.delayed {s : Timed Z} {o : Outcome Z} (h : s.Agrees o) (now : Nat) :
    { s with now := now }.Agrees o := by
  cases o <;> exact h

theorem agrees_resume (s : Timed Z) (c : Client Z) (entry : Nat) :
    (s.resume env c entry).Agrees (c.nextMessage env []) := by
  rw [Client.nextMessage, resume]
  rcases c.drain env with ⟨c', e | _ | m⟩
  · exact ⟨rfl, rfl⟩
  · exact ⟨⟨entry, s.now, rfl⟩, rfl⟩
  · exact ⟨rfl, rfl⟩

theorem step_delay {s s' : Timed Z} {d : Nat} (h : s.step env (.delay d) = some s') :
    s' = { s with now := s.now + d } := by
  simp only [step] at h
  split at h
  · split at h
    · exact (Option.some.inj h).symm
    · cases h
  · exact (Option.some.inj h).symm

theorem run_failed {s s' : Timed Z} {e : Error} {c : Client Z} {ms : List Move}
    (h : s.Agrees (.failed e c)) (hrun : s.run env ms = some s') : s'.Agrees (.failed e c) := by
  induction ms generalizing s with
  | nil =>
      cases hrun
      exact h
  | cons m ms ih =>
      rw [run] at hrun
      obtain ⟨s₁, hstep, hrest⟩ := Option.bind_eq_some_iff.mp hrun
      cases m with
      | call =>
          simp only [step] at hstep
          rw [if_neg (by rw [h.1]; simp)] at hstep
          cases hstep
      | poll p =>
          simp only [step, h.1] at hstep
          cases hstep
      | delay d =>
          rw [step_delay hstep] at hrest
          exact ih (h.delayed _) hrest

/-- The moves of a call are its polls: it ends in the state it has by them. -/
theorem nextMessage_of_run {s s' : Timed Z} {c : Client Z} {ms : List Move}
    (h : s.Agrees (c.nextMessage env [])) (hcall : .call ∉ ms) (hrun : s.run env ms = some s') :
    s'.Agrees (c.nextMessage env (polls ms)) := by
  induction ms generalizing s c with
  | nil =>
      cases hrun
      exact h
  | cons m ms ih =>
      have hcall' : .call ∉ ms := fun hmem => hcall (List.mem_cons_of_mem _ hmem)
      rw [run] at hrun
      obtain ⟨s₁, hstep, hrest⟩ := Option.bind_eq_some_iff.mp hrun
      cases m with
      | call => simp at hcall
      | delay d =>
          rw [step_delay hstep] at hrest
          exact ih (h.delayed _) hcall' hrest
      | poll p =>
          show s'.Agrees (c.nextMessage env (p :: polls ms))
          rw [Client.nextMessage] at h
          rw [Client.nextMessage]
          simp only [step] at hstep
          rcases hd : c.drain env with ⟨c', e | _ | m⟩
          all_goals rw [hd] at h
          · rw [h.1] at hstep
            cases hstep
          · obtain ⟨⟨entry, start, hwait⟩, hclient⟩ := h
            rw [hwait, hclient] at hstep
            dsimp only at hstep ⊢
            split at hstep
            · rcases hp : c'.onPoll env p with ⟨c₁, e | _⟩
              · rw [hp] at hstep
                cases hstep
                exact run_failed ⟨rfl, rfl⟩ hrest
              · rw [hp] at hstep
                cases hstep
                exact ih (agrees_resume s c₁ entry) hcall' hrest
            · cases hstep
          · rw [h.1] at hstep
            cases hstep

end Timed

end FeedBench.Ws
