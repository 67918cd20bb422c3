import FeedBench.WsJson.Key
import FeedBench.WsRaw.Split

/-!
# Keys of a frame

What `run` of `wsraw.rs` makes of a message: the transactions it splits into, or else every
key in it read as JSON.  Reading JSON is a library the program calls.
-/

namespace FeedBench.WsRaw

open Usize WsJson

structure Codec extends WsJson.Codec where
  /-- `serde_json::from_slice` to a `Value`, by its result if there is one. -/
  fromSlice : List UInt8 → Option Value

variable (codec : Codec)

mutual

def jsonKeys : Value → List (Hash × UInt32)
  | .string text => (keyFromValue codec.toCodec (.string text)).toList
  | .array values => jsonKeysAll values
  | .object entries => jsonKeysEntries entries
  | .null | .bool _ | .number _ => []

def jsonKeysAll : List Value → List (Hash × UInt32)
  | [] => []
  | v :: values => jsonKeys v ++ jsonKeysAll values

def jsonKeysEntries : List (List Char × Value) → List (Hash × UInt32)
  | [] => []
  | (_, v) :: entries => jsonKeys v ++ jsonKeysEntries entries

end

/-- The keys of a message, in the release profile. -/
def messageKeys (data : List UInt8) : List (Hash × UInt32) :=
  let keys := (splitTxs wrappingAdd data).run.map fun tx =>
    (codec.keccak256 tx, UInt32.ofNat tx.length)
  if keys.isEmpty then ((codec.fromSlice data).map (jsonKeys codec)).getD [] else keys

end FeedBench.WsRaw
