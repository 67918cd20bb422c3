import FeedBench.WsJson.Feed
import FeedBench.WsRaw.Feed

/-!
# Source specs

`WsJsonSource::parse` and `WsRawSource::parse`.  The two functions are copies of one loop over
`key=value` options; what they do with an option differs.
-/

namespace FeedBench.Spec

open Text

inductive Error where
  | expectedKeyValue (rest : List Char)
  | header (value : List Char)
  | unexpectedToken (token : List Char)
  | unknownKey (kind : String) (key : List Char)
  | needsUrl (kind : String)
  | needsPath
  deriving DecidableEq

def Error.message (debug : List Char → String) : Error → String
  | .expectedKeyValue rest => "expected key=value in " ++ debug rest
  | .header value => "header must be K:V, got " ++ debug value
  | .unexpectedToken token => "unexpected token " ++ debug token ++ " in wsjson spec"
  | .unknownKey kind key => "unknown key " ++ debug key ++ " in " ++ kind ++ " spec"
  | .needsUrl kind => kind ++ " spec needs name=wss://url"
  | .needsPath => "wsjson spec needs path=<dotted JSON path to the tx hash or raw tx>"

/-- The value of an option and the rest of the spec after its comma. -/
def valueOf (after : List Char) : List Char × List Char :=
  (splitOnce [','] after).getD (after, [])

theorem valueOf_length_le (after : List Char) : (valueOf after).2.length ≤ after.length := by
  unfold valueOf
  cases hsplit : splitOnce [','] after with
  | none => exact Nat.zero_le _
  | some pair =>
      rw [splitOnce_eq_append hsplit]
      simp only [Option.getD_some, List.length_append]
      omega

section Loop

variable {Source : Type} (set : Source → List Char → List Char → Except Error Source)
  (subscribe : Source → List Char → Source)

/-- The loop over the options: `set` takes a key and its value, and `subscribe` the whole rest. -/
def loop (src : Source) (rest : List Char) : Except Error Source :=
  if rest.isEmpty then .ok src
  else
    match _hsplit : splitOnce ['='] rest with
    | none => .error (.expectedKeyValue rest)
    | some (key, after) =>
        if trim key = "subscribe".toList then .ok (subscribe src after)
        else
          match set src (trim key) (valueOf after).1 with
          | .error e => .error e
          | .ok src => loop src (valueOf after).2
termination_by rest.length
decreasing_by
  have hle := valueOf_length_le after
  rw [splitOnce_eq_append _hsplit]
  simp only [List.length_append, List.length_singleton]
  omega

end Loop

def headerOf (value : List Char) : Except Error (List Char × List Char) :=
  match splitOnce [':'] value with
  | none => .error (.header value)
  | some (k, v) => .ok (trim k, trim v)

end FeedBench.Spec

namespace FeedBench.WsJson.WsJsonSource

open Text Spec

def set (src : WsJsonSource) (key value : List Char) : Except Spec.Error WsJsonSource :=
  if key = "name".toList then .ok { src with name := value }
  else if key = "url".toList then .ok { src with url := value }
  else if key = "path".toList then .ok { src with path := value }
  else if key = "header".toList then do
    let header ← headerOf value
    return { src with headers := src.headers ++ [header] }
  else if contains "://".toList key || key.isEmpty then .error (.unexpectedToken key)
  -- An unknown key with a URL value names the source.
  else if contains "://".toList value && src.name.isEmpty then
    .ok { src with name := key, url := value }
  else .error (.unknownKey "wsjson" key)

/-- `name=wss://url,path=a.b[].c[,header=K:V...][,subscribe=<text, must be last>]` -/
def parse (spec : List Char) : Except Spec.Error WsJsonSource := do
  let src ← loop set (fun src text => { src with subscribe := some text })
    { name := [], url := [], path := [], headers := [], subscribe := none } spec
  if src.name.isEmpty || src.url.isEmpty then .error (.needsUrl "wsjson")
  else if src.path.isEmpty then .error .needsPath
  else return src

end FeedBench.WsJson.WsJsonSource

namespace FeedBench.WsRaw.WsRawSource

open Text Spec

def set (src : WsRawSource) (key value : List Char) : Except Spec.Error WsRawSource :=
  if key = "name".toList then .ok { src with name := value }
  else if key = "url".toList then .ok { src with url := value }
  else if key = "header".toList then do
    let header ← headerOf value
    return { src with headers := src.headers ++ [header] }
  else if contains "://".toList value && src.name.isEmpty then
    .ok { src with name := key, url := value }
  else .error (.unknownKey "wsraw" key)

/-- `name=wss://url[,header=K:V...][,subscribe=<text, must be last>]` -/
def parse (spec : List Char) : Except Spec.Error WsRawSource := do
  let src ← loop set (fun src text => { src with subscribe := some text })
    { name := [], url := [], headers := [], subscribe := none } spec
  if src.name.isEmpty || src.url.isEmpty then .error (.needsUrl "wsraw")
  else return src

end FeedBench.WsRaw.WsRawSource
