import FeedBench.Eira.Run
import FeedBench.Main.Program
import FeedBench.Main.Report

/-!
# The system

A program at work: each task runs its adapter against its own outside world, and the collector
takes the events of all of them off one channel.  The channel keeps the events of each task in
order and loses none, and whatever is on its way when the loop ends is never taken.
-/

namespace FeedBench.Main

open Stats Ws

structure Libraries where
  /-- `serde_json::from_slice` to a feed frame, by its messages. -/
  frameFromSlice : List UInt8 → Except String (List Nitro.FeedMessage)
  /-- `serde_json::from_slice` to a value. -/
  valueFromSlice : List UInt8 → Option WsJson.Value
  base64 : String → Except String (List UInt8)
  hexDecode : List Char → Option (List UInt8)
  keccak256 : List UInt8 → Hash
  decompress : Inflate.Decompress
  /-- The number of a commitment level on the wire. -/
  commitment : Eira.Level → Int

namespace Libraries

variable (L : Libraries)

def feedCodec : Nitro.Codec := ⟨L.frameFromSlice, L.base64, L.keccak256⟩

def keyCodec : WsJson.Codec := ⟨L.keccak256, L.hexDecode⟩

def rawCodec : WsRaw.Codec := { L.keyCodec with fromSlice := L.valueFromSlice }

end Libraries

namespace Job

/-- What a task meets: connections one after the other, or sessions. -/
def World : Job → Type
  | .eira _ _ => List Eira.Session
  | .nitro _ _ _ | .wsjson _ _ | .wsraw _ _ => List Attempt

variable {n : Nat} (L : Libraries) (index : Fin n)

def sends : (job : Job) → job.World → List (Event n)
  | .nitro src offer stamp, attempts =>
      (Nitro.run L.feedCodec ⟨index, src, offer, stamp⟩ L.decompress .start attempts).flatMap
        Visit.events
  | .eira _ level, sessions => Eira.run ⟨index, level, L.commitment⟩ sessions
  | .wsjson src stamp, attempts =>
      (WsJson.run L.keyCodec L.valueFromSlice index src stamp L.decompress attempts).flatMap
        Visit.events
  | .wsraw src stamp, attempts =>
      (WsRaw.run L.rawCodec index src stamp L.decompress attempts).flatMap Visit.events

end Job

namespace Program

variable (p : Program) (L : Libraries) (worlds : ∀ i : Fin p.n, (p.jobs.get i).World)

def sent (i : Fin p.n) : List (Event p.n) := (p.jobs.get i).sends L i (worlds i)

/-- The events taken off the channel: of each task the first ones it sent, in order. -/
def Taken (es : List (Event p.n)) : Prop :=
  ∀ i, es.filter (fun e => e.source = i) <+: p.sent L worlds i

def TakenAll (i : Fin p.n) (es : List (Event p.n)) : Prop :=
  es.filter (fun e => e.source = i) = p.sent L worlds i

end Program

end FeedBench.Main
