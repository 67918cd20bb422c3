import FeedBench.Event
import FeedBench.Ws.Session

/-!
# Adapters

What the WebSocket adapters have in common: a loop that dials, delivers one session and
sleeps.  The outside world of one turn of that loop is an `Attempt`, and what the turn did
is a `Visit`.
-/

namespace FeedBench

open Ws

def initialBackoff : Nat := 10 ^ 9

def nextBackoff (backoff : Nat) : Nat := min (backoff * 2) (30 * 10 ^ 9)

def Stamp.of (stamp : Stamp) (m : Message) : Nat :=
  match stamp with
  | .arrival => m.arrival
  | .decoded => m.decoded

structure Attempt where
  dial : Dial
  /-- The reads of the handshake, and of the session until they are used up. -/
  reads : List Read
  env : Env
  /-- What the session waits for after that. -/
  polls : List Poll
  /-- The clock when the session has begun. -/
  up : Nat
  /-- The clock when the session has ended. -/
  down : Nat

structure Visit (n : Nat) where
  /-- What was dialed with. -/
  config : Config
  /-- What `next_message` returned. -/
  messages : List Message
  /-- What was sent to the collector. -/
  events : List (Event n)
  /-- How long the turn sleeps at its end, unless the end has not come. -/
  sleep : Option Nat

end FeedBench
