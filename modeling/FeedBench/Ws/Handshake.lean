import FeedBench.Inflate.Inflater

/-!
# The handshake

What `Client::connect` of `ws.rs` sends, and how it reads the head of the response.  The
network, the random key and the digest of the key are arguments (`Dial`).
-/

namespace FeedBench.Ws

open Inflate Text

/-! ## Configuration -/

def nitroExtension : String := "Arbitrum-permessage-deflate"
def standardExtension : String := "permessage-deflate"
def extensionParams : String := "server_no_context_takeover; client_no_context_takeover"

/-- Which compression extensions to offer in the handshake. -/
inductive Offer where
  | auto
  | nitro
  | standard
  | none
  deriving DecidableEq

def Offer.headerValue (offer : Offer) : Option String :=
  let nitro := nitroExtension ++ "; " ++ extensionParams
  let standard := standardExtension ++ "; " ++ extensionParams
  match offer with
  | .auto => some (nitro ++ ", " ++ standard)
  | .nitro => some nitro
  | .standard => some standard
  | .none => Option.none

structure Config where
  url : List Char
  headers : List (String × String)
  offer : Offer
  /-- Limit on both the wire size and the inflated size of one message. -/
  maxMessage : Nat
  pingEvery : Nat
  readTimeout : Nat

structure Rejected where
  status : Nat
  reason : List Char
  /-- `Retry-After` in seconds, when the server sent one. -/
  retryAfter : Option Nat
  deriving DecidableEq

inductive ConnectError where
  | noScheme (url : List Char)
  | unsupportedScheme (scheme : List Char)
  | badPort (port : List Char)
  | noHost (url : List Char)
  | dial (e : String)
  | headTooLarge
  | readTimeout
  | closed
  | io (e : String)
  | notUtf8
  | rejected (r : Rejected)
  | badAccept
  | unknownExtension (name : List Char)
  | notOffered (name : List Char)
  | unsupportedParameter (key : List Char)
  | inflate (e : Inflate.Error)
  deriving DecidableEq

/-- Time to wait before dialing again after a failed connect. -/
def retryDelay (e : ConnectError) (backoff : Nat) : Nat :=
  match e with
  | .rejected r =>
      if r.status = 429 then Max.max (r.retryAfter.getD 45) 45 * 10 ^ 9
      else r.retryAfter.getD (backoff / 10 ^ 9) * 10 ^ 9
  | _ => backoff

structure Handshake where
  compression : String
  serverHeaders : List (List Char × List Char)

def findHeader (headers : List (List Char × List Char)) (name : String) : Option (List Char) :=
  (headers.find? fun h => eqIgnoreAsciiCase h.1 name.toList).map Prod.snd

def Handshake.header (h : Handshake) (name : String) : Option (List Char) :=
  findHeader h.serverHeaders name

/-! ## The request -/

structure Url where
  tls : Bool
  host : List Char
  port : Nat
  path : List Char
  deriving DecidableEq

def parseUrl (s : List Char) : Except ConnectError Url := do
  let (scheme, rest) ← (splitOnce "://".toList s).elim (.error (.noScheme s)) .ok
  let scheme := toAsciiLowercase scheme
  let tls ←
    if scheme = "wss".toList ∨ scheme = "https".toList then .ok true
    else if scheme = "ws".toList ∨ scheme = "http".toList then .ok false
    else .error (.unsupportedScheme scheme)
  let (authority, path) :=
    if '/' ∈ rest then (rest.takeWhile (· ≠ '/'), rest.dropWhile (· ≠ '/')) else (rest, ['/'])
  let default := (authority, if tls then 443 else 80)
  let (host, port) ←
    match rsplitOnce ':' authority with
    | some (h, p) =>
        if ']' ∉ h ∨ h.getLast? = some ']' then
          (parseUnsigned 65536 p).elim (.error (.badPort p)) fun port => .ok (h, port)
        else .ok default
    | none => .ok default
  if host = [] then .error (.noHost s)
  .ok { tls, host := trimMatches (fun c => c = '[' || c = ']') host, port, path }

example : parseUrl "wss://feed.example.com".toList =
    .ok ⟨true, "feed.example.com".toList, 443, ['/']⟩ := by decide

def request (cfg : Config) (url : Url) (key : String) : String :=
  let host := String.ofList url.host
  let addr := host ++ ":" ++ toString url.port
  let hostHeader := if (url.tls ∧ url.port = 443) ∨ (¬url.tls ∧ url.port = 80) then host else addr
  "GET " ++ String.ofList url.path ++ " HTTP/1.1\r\nHost: " ++ hostHeader ++
    "\r\nUpgrade: websocket\r\nConnection: Upgrade\r\nSec-WebSocket-Key: " ++ key ++
    "\r\nSec-WebSocket-Version: 13\r\n" ++
    cfg.offer.headerValue.elim "" (fun offer => "Sec-WebSocket-Extensions: " ++ offer ++ "\r\n") ++
    String.join (cfg.headers.map fun h => h.1 ++ ": " ++ h.2 ++ "\r\n") ++
    "User-Agent: feedbench/0.1.2\r\n\r\n"

/-! ## The response -/

/-- How `timeout(d, read_buf)` ends. -/
inductive Read where
  /-- No bytes at all at the end of the stream. -/
  | bytes (now : Nat) (bytes : List UInt8)
  | error (e : String)
  | timeout
  deriving DecidableEq

def blankLine : List UInt8 := [0x0D, 0x0A, 0x0D, 0x0A]

def headEnd : List UInt8 → Option Nat
  | [] => none
  | b :: buf => if blankLine.isPrefixOf (b :: buf) then some 0 else (headEnd buf).map (· + 1)

/-- The loop of `connect` that reads the head: the bytes read and the reads left, or `none`
while the head is not all there. -/
def readHead (buf : List UInt8) (reads : List Read) :
    Option (Except ConnectError (Nat × List UInt8 × List Read)) :=
  match headEnd buf with
  | some i => some (.ok (i, buf, reads))
  | none =>
      if 64 * 1024 < buf.length then some (.error .headTooLarge)
      else
        match reads with
        | [] => none
        | .bytes _ bytes :: reads =>
            if bytes = [] then some (.error .closed) else readHead (buf ++ bytes) reads
        | .error e :: _ => some (.error (.io e))
        | .timeout :: _ => some (.error .readTimeout)

/-- Whether the parameters of an extension turn the server's context takeover off. -/
def takeoverParameters (off : Bool) : List (List Char) → Except ConnectError Bool
  | [] => .ok off
  | p :: ps =>
      let key := toAsciiLowercase (trim ((split ['='] p).headD []))
      if key = "server_no_context_takeover".toList then takeoverParameters true ps
      else if key = "client_no_context_takeover".toList ∨ key = "server_max_window_bits".toList ∨
          key = "client_max_window_bits".toList then takeoverParameters off ps
      else .error (.unsupportedParameter key)

def negotiatedModeOf (offer : Offer) : List (List Char) → Except ConnectError (Option Mode)
  | [] => .ok none
  | ext :: exts =>
      match (split [';'] ext).map trim with
      | [] => negotiatedModeOf offer exts
      | name :: parts => do
          let nitro := eqIgnoreAsciiCase name nitroExtension.toList
          let standard := eqIgnoreAsciiCase name standardExtension.toList
          if !nitro && !standard then .error (.unknownExtension name)
          let offered :=
            match offer with
            | .auto => true
            | .nitro => nitro
            | .standard => standard
            | .none => false
          if !offered then .error (.notOffered name)
          let off ← takeoverParameters false (parts.filter fun p => !p.isEmpty)
          return some (if nitro then .nitro else .standard off)

def negotiatedMode (reply : List Char) (offer : Offer) : Except ConnectError (Option Mode) :=
  negotiatedModeOf offer (split [','] reply)

example :
    negotiatedMode "permessage-deflate; server_max_window_bits=15".toList .auto =
      .ok (some (.standard false)) ∧
    negotiatedMode "permessage-deflate".toList .nitro =
      .error (.notOffered "permessage-deflate".toList) := by decide

/-- The head of the response, once it is all there: the headers and the compression agreed on.
`expected` is the digest of the key. -/
def acceptHead (expected : List Char) (offer : Offer) (head : List UInt8) :
    Except ConnectError (List (List Char × List Char) × Option Mode) := do
  let head ← (fromUtf8 head).elim (.error .notUtf8) .ok
  let lines := split "\r\n".toList head
  let statusLine := lines.headD []
  let status := ((splitWhitespace statusLine)[1]?.bind (parseUnsigned (2 ^ 16))).getD 0
  let headers := lines.tail.filterMap fun l =>
    (splitOnce [':'] l).map fun (k, v) => (trim k, trim v)
  if status ≠ 101 then
    let retryAfter := (findHeader headers "retry-after").bind fun v =>
      parseUnsigned (2 ^ 64) (trim v)
    .error (.rejected { status, reason := statusLine, retryAfter })
  if findHeader headers "sec-websocket-accept" ≠ some expected then .error .badAccept
  let mode ←
    match findHeader headers "sec-websocket-extensions" with
    | some reply => negotiatedMode reply offer
    | none => .ok none
  return (headers, mode)

/-- The outside world of `connect`. -/
structure Dial where
  /-- Why TCP or TLS to the host fails, or writing the request, if they do. -/
  failure : Url → String → Option String
  /-- The random `Sec-WebSocket-Key`. -/
  key : String
  /-- The `Sec-WebSocket-Accept` that answers a key. -/
  accept : String → List Char
  /-- The clock when the head has been accepted. -/
  now : Nat

end FeedBench.Ws
