import FeedBench.Nitro.Feed

/-!
# The generic adapters

The loop that `run` of `wsjson.rs` and `run` of `wsraw.rs` share: dial, subscribe, deliver one
session, sleep.  The receiver outlives the run: a send that fails would only cut the run off
there.
-/

namespace FeedBench

open Ws Inflate

structure Generic (n : Nat) where
  index : Fin n
  url : List Char
  headers : List (String × String)
  /-- The text that is sent first. -/
  subscribe : Option (List Char)
  /-- What the Connected event says. -/
  detail : Handshake → String
  /-- The events of one message. -/
  events : Message → List (Event n)

namespace Generic

variable {n : Nat} (src : Generic n)

def config : Config where
  url := src.url
  headers := src.headers
  offer := .standard
  maxMessage := Nitro.maxMessage
  pingEvery := 20 * 10 ^ 9
  readTimeout := 60 * 10 ^ 9

def subscribed {Z : Decompress} (env : Env) (c : Client Z) : Client Z × Except Ws.Error Unit :=
  match src.subscribe with
  | some text => c.sendText env text
  | none => (c, .ok ())

/-- One turn of the loop of `run`, and the backoff after it.  A turn that cannot subscribe does
not sleep. -/
def visit (Z : Decompress) (backoff : Nat) (attempt : Attempt) : Nat × Visit n :=
  let config := src.config
  match (Client.connect attempt.dial config attempt.reads : Dialed Z) with
  | .waiting => (backoff, { config, messages := [], events := [], sleep := none })
  | .failed e =>
      (nextBackoff backoff,
        { config, messages := [], events := [], sleep := some (retryDelay e backoff) })
  | .connected c left =>
      match src.subscribed attempt.env c with
      | (_, .error _) => (initialBackoff, { config, messages := [], events := [], sleep := some 0 })
      | (c, .ok ()) =>
          let (messages, _, ending) := c.session attempt.env (left.map .read ++ attempt.polls)
          let up : Event n := ⟨src.index, attempt.up, .connected (src.detail c.handshake)⟩
          let down := ending.toList.map fun e : Ws.Error =>
            (⟨src.index, attempt.down, .disconnected e.message⟩ : Event n)
          (initialBackoff,
            { config, messages
              events := up :: messages.flatMap src.events ++ down
              sleep := ending.map fun _ => 10 ^ 9 })

def run (Z : Decompress) (backoff : Nat) : List Attempt → List (Visit n)
  | [] => []
  | attempt :: attempts =>
      let (backoff, v) := src.visit Z backoff attempt
      v :: if v.sleep.isSome then run Z backoff attempts else []

end Generic

end FeedBench
