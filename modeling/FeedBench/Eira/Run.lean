import FeedBench.Adapter
import FeedBench.Eira.Session

/-!
# The loop of the Eira adapter

`run` of `eira.rs` with its waits between the sessions.
-/

namespace FeedBench.Eira

variable {n : Nat} (args : Args n)

/-- What one turn of `run` sent, and how long it slept, unless its session is still running. -/
structure Turn (n : Nat) where
  events : List (Event n)
  sleep : Option Nat

def visit (backoff : Nat) (session : Session) : Nat × Turn n :=
  (nextBackoff backoff,
    { events := loop args .start session.updates ++ session.down args
      sleep := session.ending.map fun _ => backoff })

def turns (backoff : Nat) : List Session → List (Turn n)
  | [] => []
  | session :: sessions =>
      let (backoff, turn) := visit args backoff session
      turn :: if turn.sleep.isSome then turns backoff sessions else []

theorem run_eq_turns (backoff : Nat) (sessions : List Session) :
    run args sessions = (turns args backoff sessions).flatMap Turn.events := by
  induction sessions generalizing backoff with
  | nil => rfl
  | cons session sessions ih =>
      rw [run, turns, visit]
      dsimp only
      rw [List.flatMap_cons, Option.isSome_map]
      split
      · rw [ih (nextBackoff backoff)]
      · rfl

end FeedBench.Eira
