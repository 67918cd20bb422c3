import FeedBench.Event
import FeedBench.Text

/-!
# Keys in JSON

`key_from_value` of `wsjson.rs`.  Hex decoding and keccak256 are libraries the program
calls.
-/

namespace FeedBench.WsJson

/-- `serde_json::Value`, an object by its entries in the order they are iterated in. -/
inductive Value where
  | null
  | bool (b : Bool)
  | number (text : List Char)
  | string (text : List Char)
  | array (values : List Value)
  | object (entries : List (List Char × Value))

structure Codec where
  keccak256 : List UInt8 → Hash
  /-- `hex::decode`. -/
  hexDecode : List Char → Option (List UInt8)

def Value.asStr : Value → Option (List Char)
  | string text => some text
  | _ => none

/-- A 32-byte hash, or the hash of a raw transaction and its length (0 when a hash was given).
Of text that is not all hex digits neither the length nor the parity matters. -/
def keyFromValue (codec : Codec) (v : Value) : Option (Hash × UInt32) := do
  let s := Text.trim (← v.asStr)
  let hexs := ((Text.stripPrefix ['0', 'x'] s).or (Text.stripPrefix ['0', 'X'] s)).getD s
  if hexs.isEmpty || hexs.length % 2 ≠ 0 || !hexs.all Text.isAsciiHexdigit then none
  else
    let bytes ← codec.hexDecode hexs
    if h : bytes.length = 32 then some (⟨bytes.toArray, h⟩, 0)
    else some (codec.keccak256 bytes, UInt32.ofNat bytes.length)

end FeedBench.WsJson
