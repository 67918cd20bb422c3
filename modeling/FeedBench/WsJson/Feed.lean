import FeedBench.Generic
import FeedBench.WsJson.Path

/-!
# The JSON adapter

`run` of `wsjson.rs`: one Tx event for each key at the path in a message.  Reading JSON, hex
decoding and keccak256 are libraries the program calls.
-/

namespace FeedBench.WsJson

open Ws Inflate

structure WsJsonSource where
  name : List Char
  url : List Char
  path : List Char
  headers : List (List Char × List Char)
  subscribe : Option (List Char)

variable {n : Nat} (codec : Codec) (fromSlice : List UInt8 → Option Value)

def txEvent (index : Fin n) (t : Nat) (key : Hash × UInt32) : Event n :=
  { source := index, t, payload := .tx key.1 none none false key.2 }

def messageKeys (path : List Char) (m : Message) : List (Hash × UInt32) :=
  match fromSlice m.data with
  | none => []
  | some v => (extract v path).filterMap (keyFromValue codec)

def feed (index : Fin n) (src : WsJsonSource) (stamp : Stamp) : Generic n where
  index
  url := src.url
  headers := src.headers.map fun h => (String.ofList h.1, String.ofList h.2)
  subscribe := src.subscribe
  detail h := "compression=" ++ h.compression ++ " path=" ++ String.ofList src.path
  events m := (messageKeys codec fromSlice src.path m).map (txEvent index (stamp.of m))

def run (index : Fin n) (src : WsJsonSource) (stamp : Stamp) (Z : Decompress)
    (attempts : List Attempt) : List (Visit n) :=
  (feed codec fromSlice index src stamp).run Z initialBackoff attempts

end FeedBench.WsJson
