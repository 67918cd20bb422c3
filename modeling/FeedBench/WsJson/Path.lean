import FeedBench.WsJson.Key

/-!
# Paths into JSON

`extract` of `wsjson.rs`.
-/

namespace FeedBench.WsJson

open Text

namespace Value

/-- `Value::get` with a name: the keys of an object are distinct. -/
def get (name : List Char) : Value → Option Value
  | object entries => (entries.find? fun entry => entry.1 = name).map Prod.snd
  | _ => none

def getIndex (i : Nat) : Value → Option Value
  | array values => values[i]?
  | _ => none

def asArray : Value → Option (List Value)
  | array values => some values
  | _ => none

end Value

/-- The loop of `extract` over the brackets of a segment, `none` when it returns early. -/
def extractBrackets (cur : List Value) : List (List Char) → Option (List Value)
  | [] => some cur
  | b :: bs =>
      let inner := b.dropWhile (· = '[')
      if inner.isEmpty then extractBrackets (cur.filterMap Value.asArray).flatten bs
      else
        match parseUnsigned (2 ^ 64) inner with
        | some i => extractBrackets (cur.filterMap (Value.getIndex i)) bs
        | none => none

def extractSegments (cur : List Value) : List (List Char) → Option (List Value)
  | [] => some cur
  | seg :: segs =>
      if seg.isEmpty then extractSegments cur segs
      else
        let name := seg.takeWhile (· ≠ '[')
        let brackets := seg.dropWhile (· ≠ '[')
        let cur := if name.isEmpty then cur else cur.filterMap (Value.get name)
        match extractBrackets cur ((split [']'] brackets).filter fun b => !b.isEmpty) with
        | some cur => extractSegments cur segs
        | none => none

def extract (v : Value) (path : List Char) : List Value :=
  (extractSegments [v] (split ['.'] path)).getD []

end FeedBench.WsJson
