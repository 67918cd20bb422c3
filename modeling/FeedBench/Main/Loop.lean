import FeedBench.Stats.Double
import FeedBench.Lib.Reports

/-!
# The main loop

`main` of `main.rs` between start-up and the final report: the loop takes either one event
off the channel or a tick of the summary timer, until the deadline, an interrupt or the end
of the channel.  A run is the list of the branches taken.  An event can be taken long after
it was stamped, and the clock does not run backwards.
-/

namespace FeedBench

open Stats

variable {n : Nat}

/-- One turn of the loop, with the clock at that turn. -/
inductive Turn (n : Nat) where
  /-- `rx.recv()` returned an event. -/
  | recv (now : Nat) (ev : Event n)
  /-- `ticker.tick()` fired. -/
  | tick (now : Nat)

def Turn.now : Turn n → Nat
  | .recv now _ => now
  | .tick now => now

def Turn.StampedBefore : Turn n → Prop
  | .recv now ev => ev.t ≤ now
  | .tick _ => True

structure Main (n : Nat) where
  col : Collector n
  lastSummary : Nat
  blockIntervals : List BlockSummary

namespace Main

/-- Seconds to no decimals: `{:.0}`. -/
def wholeSecs (d : Nat) : Nat := (Lib.roundEven (Double.secs d)).toNat

def init (col : Collector n) : Main n where
  col := col
  lastSummary := col.start
  blockIntervals := []

def label (m : Main n) (now : Nat) : String :=
  "+" ++ toString (wholeSecs (m.lastSummary - m.col.start)) ++ "s..+" ++
    toString (wholeSecs (now - m.col.start)) ++ "s"

def step (m : Main n) : Turn n → Main n
  | .recv _ ev => { m with col := (m.col.onEvent ev).1 }
  | .tick now =>
      { m with
        blockIntervals :=
          m.blockIntervals ++ [m.col.blockSummary (m.label now) (some m.lastSummary) now]
        lastSummary := now }

def run (m : Main n) (turns : List (Turn n)) : Main n := turns.foldl step m

@[simp] theorem run_nil (m : Main n) : m.run [] = m := rfl

theorem run_snoc (m : Main n) (turns : List (Turn n)) (turn : Turn n) :
    m.run (turns ++ [turn]) = (m.run turns).step turn := by
  simp [run]

/-- The clock does not run backwards, and an event is stamped before it is taken. -/
structure Clocked (start : Nat) (turns : List (Turn n)) : Prop where
  sorted : turns.Pairwise fun turn turn' => turn.now ≤ turn'.now
  started : ∀ turn ∈ turns, start ≤ turn.now
  stamped : ∀ turn ∈ turns, turn.StampedBefore

/-! ## Which blocks a summary counts -/

def keysCounted (c : Collector n) (since : Option Nat) (til : Nat) : List String :=
  Lib.keysWhere c.blocks fun entry => c.counts since til entry.2

theorem length_keysCounted (c : Collector n) (label : String) (since : Option Nat) (til : Nat) :
    (keysCounted c since til).length = (c.blockSummary label since til).completed := by
  rw [keysCounted, Lib.length_keysWhere, c.blockSummary_completed]

theorem mem_keysCounted {c : Collector n} {since : Option Nat} {til : Nat} {key : String} :
    key ∈ keysCounted c since til ↔
      ∃ r, c.blocks.lookup key = some r ∧ c.counts since til r = true :=
  Lib.mem_keysWhere

/-- The block keys counted by each of the rolling summaries of a run. -/
def rolled (m : Main n) : List (Turn n) → List (List String)
  | [] => []
  | .recv now ev :: turns => (m.step (.recv now ev)).rolled turns
  | .tick now :: turns =>
      keysCounted m.col (some m.lastSummary) now :: (m.step (.tick now)).rolled turns

def rolledBy (m : Main n) : Turn n → List (List String)
  | .recv _ _ => []
  | .tick now => [keysCounted m.col (some m.lastSummary) now]

theorem rolled_snoc (m : Main n) (turns : List (Turn n)) (turn : Turn n) :
    m.rolled (turns ++ [turn]) = m.rolled turns ++ (m.run turns).rolledBy turn := by
  induction turns generalizing m with
  | nil => cases turn <;> rfl
  | cons first turns ih =>
      cases first with
      | recv now ev => exact ih _
      | tick now =>
          have := ih (m.step (.tick now))
          rw [List.cons_append, rolled, this]
          rfl

theorem nodup_of_mem_rolled {m : Main n} {turns : List (Turn n)} :
    ∀ keys ∈ m.rolled turns, keys.Nodup := by
  induction turns generalizing m with
  | nil => simp [rolled]
  | cons first turns ih =>
      cases first with
      | recv now ev => exact ih
      | tick now =>
          intro keys hkeys
          rcases List.mem_cons.mp hkeys with heq | hmem
          · rw [heq]
            exact Lib.nodup_keysWhere _ _
          · exact ih keys hmem

theorem blockIntervals_run (m : Main n) (turns : List (Turn n)) :
    (m.run turns).blockIntervals.map BlockSummary.completed =
      m.blockIntervals.map BlockSummary.completed ++ (m.rolled turns).map List.length := by
  induction turns using List.reverseRecOn with
  | nil => simp [rolled]
  | append_singleton turns turn ih =>
      rw [run_snoc, rolled_snoc, List.map_append, ← List.append_assoc, ← ih]
      cases turn with
      | recv now ev => simp [step, rolledBy]
      | tick now =>
          simp only [step, rolledBy, List.map_append, List.map_singleton]
          rw [length_keysCounted _ ((m.run turns).label now)]

end Main

end FeedBench
