import FeedBench.Proofs.Pacing

/-!
# Forgetting

Whether the waits after a session depend on what came before it.  The WebSocket adapters start
their backoff again once a handshake is done.  The Eira adapter never does.
-/

namespace FeedBench

open Lib

/-! ## Forgetting -/

/-- The outcomes of turns whose handshake was done, or that received an Ack. -/
def Outcome.Established : Outcome → Prop
  | .failed _ => False
  | .unsubscribed | .lost => True

/-- After a session that was established and lost, the waits are the same whichever of the two
histories came before it. -/
def Adapter.Forgets (a : Adapter) (before before' : List Outcome) : Prop :=
  ∀ o after turns turns', o.Established → a.Turns turns → a.Turns turns' →
    turns.map Prod.fst = before ++ o :: after → turns'.map Prod.fst = before' ++ o :: after →
    (turns.map Prod.snd).drop before.length = (turns'.map Prod.snd).drop before'.length

theorem wsPolicy_next_established (backoff : Nat) {o : Outcome} (h : o.Established) :
    wsPolicy.next backoff o = initialBackoff := by
  cases o with
  | failed r => exact h.elim
  | unsubscribed | lost => rfl

theorem wsPolicy_out_established (backoff backoff' : Nat) {o : Outcome} (h : o.Established) :
    wsPolicy.out backoff o = wsPolicy.out backoff' o := by
  cases o with
  | failed r => exact h.elim
  | unsubscribed | lost => rfl

/-! ## The backoff of the Eira adapter -/

def eiraBackoff (sessions : Nat) : Nat := min (2 ^ sessions) 30 * 10 ^ 9

theorem nextBackoff_eiraBackoff (sessions : Nat) :
    nextBackoff (eiraBackoff sessions) = eiraBackoff (sessions + 1) := by
  unfold nextBackoff eiraBackoff
  rw [Nat.pow_succ]
  omega

theorem eiraPolicy_after (sessions : Nat) (outcomes : List Outcome) :
    eiraPolicy.after (eiraBackoff sessions) outcomes =
      eiraBackoff (sessions + outcomes.length) := by
  induction outcomes generalizing sessions with
  | nil => rfl
  | cons o outcomes ih =>
      have hnext : eiraPolicy.next (eiraBackoff sessions) o = eiraBackoff (sessions + 1) :=
        nextBackoff_eiraBackoff sessions
      rw [Mealy.after_cons, hnext, ih, List.length_cons, Nat.add_right_comm, Nat.add_assoc]

/-- From the sixth session on the backoff does not grow. -/
theorem eiraBackoff_min (sessions : Nat) : eiraBackoff (min sessions 5) = eiraBackoff sessions := by
  rcases Nat.le_total sessions 5 with h | h
  · rw [Nat.min_eq_left h]
  · have hpow : 2 ^ 5 ≤ 2 ^ sessions := Nat.pow_le_pow_right (by decide) h
    rw [Nat.min_eq_right h]
    unfold eiraBackoff
    omega

theorem eiraBackoff_injOn :
    ∀ k ≤ 5, ∀ k' ≤ 5, eiraBackoff k = eiraBackoff k' → k = k' := by
  decide

theorem eiraBackoff_eq_iff (k k' : Nat) :
    eiraBackoff k = eiraBackoff k' ↔ min k 5 = min k' 5 := by
  rw [← eiraBackoff_min k, ← eiraBackoff_min k']
  exact ⟨eiraBackoff_injOn _ (Nat.min_le_right k 5) _ (Nat.min_le_right k' 5),
    fun h => congrArg eiraBackoff h⟩

/-! ## The sessions of a history -/

def Outcome.OfEira : Outcome → Prop
  | .failed none | .lost => True
  | _ => False

def sessionOf : Outcome → Eira.Session
  | .lost => { updates := [⟨0, .ack 0⟩], ending := some (1, "closed") }
  | _ => { updates := [], ending := some (1, "unavailable") }

variable {n : Nat} (args : Eira.Args n)

theorem outcome_sessionOf {o : Outcome} (h : o.OfEira) : Eira.outcome (sessionOf o) = o := by
  match o, h with
  | .failed none, _ | .lost, _ => rfl

theorem endedBy_sessionOf (backoff : Nat) {outcomes : List Outcome}
    (h : ∀ o ∈ outcomes, o.OfEira) :
    (endedBy (Eira.turn args) backoff (outcomes.map sessionOf)).map Prod.fst = outcomes := by
  induction outcomes generalizing backoff with
  | nil => rfl
  | cons o outcomes ih =>
      obtain ⟨ho, hrest⟩ := List.forall_mem_cons.mp h
      have hsleep : (Eira.turn args backoff (sessionOf o)).2.2 = some backoff := by
        cases o <;> rfl
      rw [List.map_cons, endedBy, hsleep]
      dsimp only
      rw [List.map_cons, ih _ hrest]
      exact congrArg (· :: outcomes) (outcome_sessionOf ho)

theorem ofEira_outcome (session : Eira.Session) : (Eira.outcome session).OfEira := by
  unfold Eira.outcome
  split
  · exact trivial
  · exact trivial

theorem ofEira_of_turns {turns : List Ended} (h : Adapter.eira.Turns turns) :
    ∀ o ∈ turns.map Prod.fst, o.OfEira := by
  obtain ⟨n, args, sessions, rfl⟩ := h
  exact forall_outcomes_endedBy _ (fun _ session => ofEira_outcome session) initialBackoff sessions

/-! ## When the past is forgotten -/

theorem wsPolicy_forgets {before before' after : List Outcome} {o : Outcome}
    {turns turns' : List Ended} (ho : o.Established) (h : wsPolicy.Run initialBackoff turns)
    (h' : wsPolicy.Run initialBackoff turns') (hturns : turns.map Prod.fst = before ++ o :: after)
    (hturns' : turns'.map Prod.fst = before' ++ o :: after) :
    (turns.map Prod.snd).drop before.length = (turns'.map Prod.snd).drop before'.length := by
  refine h.agree h' hturns hturns' ?_ (wsPolicy_out_established _ _ ho)
  rw [wsPolicy_next_established _ ho, wsPolicy_next_established _ ho]

theorem eira_drop {turns : List Ended} (h : Adapter.eira.Turns turns)
    {before after : List Outcome} (hturns : turns.map Prod.fst = before ++ after) :
    (turns.map Prod.snd).drop before.length =
      eiraPolicy.outputs (eiraBackoff before.length) after := by
  have hstart : initialBackoff = eiraBackoff 0 := rfl
  have hafter := eiraPolicy_after 0 before
  rw [Nat.zero_add, ← hstart] at hafter
  rw [h.run.drop hturns]
  exact congrArg (fun backoff => eiraPolicy.outputs backoff after) hafter

theorem eira_turns_of {outcomes : List Outcome} (h : ∀ o ∈ outcomes, o.OfEira) :
    ∃ turns, Adapter.eira.Turns turns ∧ turns.map Prod.fst = outcomes :=
  let args : Eira.Args 1 := ⟨0, .received, fun _ => 0⟩
  ⟨_, ⟨1, args, outcomes.map sessionOf, rfl⟩, endedBy_sessionOf args initialBackoff h⟩

theorem eira_forgets_iff {before before' : List Outcome} (h : ∀ o ∈ before, o.OfEira)
    (h' : ∀ o ∈ before', o.OfEira) :
    Adapter.eira.Forgets before before' ↔ min before.length 5 = min before'.length 5 := by
  rw [← eiraBackoff_eq_iff]
  constructor
  · intro hforgets
    have hlost : ∀ {outcomes : List Outcome}, (∀ o ∈ outcomes, o.OfEira) →
        ∀ o ∈ outcomes ++ [.lost], o.OfEira := fun h =>
      List.forall_mem_append.mpr ⟨h, List.forall_mem_singleton.mpr trivial⟩
    obtain ⟨turns, hturns, hfst⟩ := eira_turns_of (hlost h)
    obtain ⟨turns', hturns', hfst'⟩ := eira_turns_of (hlost h')
    have hwaits := hforgets .lost [] turns turns' trivial hturns hturns' hfst hfst'
    rw [eira_drop hturns hfst, eira_drop hturns' hfst'] at hwaits
    exact (List.cons.inj hwaits).1
  · intro hbackoff o after turns turns' _ hturns hturns' hfst hfst'
    rw [eira_drop hturns hfst, eira_drop hturns' hfst', hbackoff]

/-- The past is forgotten, except by the Eira adapter, which remembers how many of its first five
sessions there have been. -/
theorem Adapter.forgets_iff (a : Adapter) (before before' : List Outcome) :
    a.Forgets before before' ↔
      (a = .eira → (∀ o ∈ before ++ before', o.OfEira) →
        min before.length 5 = min before'.length 5) := by
  cases a with
  | nitro | wsjson | wsraw =>
      constructor
      · intro _ h
        cases h
      · intro _ o after turns turns' ho hturns hturns' hfst hfst'
        exact wsPolicy_forgets ho hturns.run hturns'.run hfst hfst'
  | eira =>
      constructor
      · intro hforgets _ hsees
        obtain ⟨h, h'⟩ := List.forall_mem_append.mp hsees
        exact (eira_forgets_iff h h').mp hforgets
      · intro hmin o after turns turns' ho hturns hturns' hfst hfst'
        -- The histories are of outcomes the adapter has, or there would be no such turns.
        have h := ofEira_of_turns hturns
        have h' := ofEira_of_turns hturns'
        rw [hfst] at h
        rw [hfst'] at h'
        have hbefore := (List.forall_mem_append.mp h).1
        have hbefore' := (List.forall_mem_append.mp h').1
        exact (eira_forgets_iff hbefore hbefore').mpr
          (hmin rfl (List.forall_mem_append.mpr ⟨hbefore, hbefore'⟩)) o after turns turns' ho
          hturns hturns' hfst hfst'

/-- Five failures are remembered after a session that was established. -/
theorem eira_remembers : ¬ Adapter.eira.Forgets [] (.replicate 5 (.failed none)) := by
  intro h
  have hmin := (eira_forgets_iff (by simp) (by simp [Outcome.OfEira])).mp h
  exact absurd hmin (by decide)

end FeedBench
