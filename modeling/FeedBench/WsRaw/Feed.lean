import FeedBench.Generic
import FeedBench.WsRaw.Keys

/-!
# The binary adapter

`run` of `wsraw.rs`: one Tx event for each key of a message, in the release profile.
-/

namespace FeedBench.WsRaw

open Ws Inflate

structure WsRawSource where
  name : List Char
  url : List Char
  headers : List (List Char × List Char)
  subscribe : Option (List Char)

variable {n : Nat} (codec : Codec)

def txEvent (index : Fin n) (t : Nat) (key : Hash × UInt32) : Event n :=
  { source := index, t, payload := .tx key.1 none none false key.2 }

def feed (index : Fin n) (src : WsRawSource) (stamp : Stamp) : Generic n where
  index
  url := src.url
  headers := src.headers.map fun h => (String.ofList h.1, String.ofList h.2)
  subscribe := src.subscribe
  detail h := "compression=" ++ h.compression ++ " format=binary-txs"
  events m := (messageKeys codec m.data).map (txEvent index (stamp.of m))

def run (index : Fin n) (src : WsRawSource) (stamp : Stamp) (Z : Decompress)
    (attempts : List Attempt) : List (Visit n) :=
  (feed codec index src stamp).run Z initialBackoff attempts

end FeedBench.WsRaw
