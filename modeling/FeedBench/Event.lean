/-!
# Events

What every source adapter sends into the single collector channel.  Instants are
nanoseconds of the process's one monotonic clock, durations are nanoseconds, and the
source of an event is an index into the collector's sources.
-/

namespace FeedBench

/-- A keccak256 hash, `[u8; 32]` in the source. -/
abbrev Hash := Vector UInt8 32

inductive Payload where
  /-- One block (one feed message) became visible on this source. -/
  | block (key : String) (seq : Option UInt64) (hash : Option String)
      (txCount : Option UInt32) (wireLen : UInt64)
  /-- One signed transaction became visible on this source. -/
  | tx (hash : Hash) (blockKey : Option String) (txCount : Option UInt32)
      (syntheticSwap : Bool) (rawLen : UInt32)
  /-- The source is delivering data. -/
  | connected (detail : String)
  | disconnected (reason : String)
  deriving DecidableEq

structure Event (n : Nat) where
  source : Fin n
  /-- Arrival stamp, taken before decoding. -/
  t : Nat
  payload : Payload
  deriving DecidableEq

/-- Which instant a raw-feed source stamps its events with. -/
inductive Stamp where
  | arrival
  | decoded
  deriving DecidableEq

namespace Event

variable {n : Nat}

def isBlockFrom (key : String) (s : Fin n) (e : Event n) : Bool :=
  match e.payload with
  | .block k _ _ _ _ => k == key && e.source == s
  | _ => false

def isTxFrom (hash : Hash) (s : Fin n) (e : Event n) : Bool :=
  match e.payload with
  | .tx h _ _ _ _ => h == hash && e.source == s
  | _ => false

def blockKey (e : Event n) : Option String :=
  match e.payload with
  | .block key _ _ _ _ => some key
  | _ => none

def link (e : Event n) : Option Bool :=
  match e.payload with
  | .connected _ => some true
  | .disconnected _ => some false
  | _ => none

/-! ## What an event reports about one record -/

def seqFor (key : String) (e : Event n) : Option UInt64 :=
  match e.payload with
  | .block k seq _ _ _ => if k = key then seq else none
  | _ => none

def hashFor (key : String) (e : Event n) : Option String :=
  match e.payload with
  | .block k _ hash _ _ => if k = key then hash else none
  | _ => none

def countFor (key : String) (e : Event n) : Option UInt32 :=
  match e.payload with
  | .block k _ _ txCount _ => if k = key then txCount else none
  | _ => none

def blockKeyFor (hash : Hash) (e : Event n) : Option String :=
  match e.payload with
  | .tx h blockKey _ _ _ => if h = hash then blockKey else none
  | _ => none

def txCountFor (hash : Hash) (e : Event n) : Option UInt32 :=
  match e.payload with
  | .tx h _ txCount _ _ => if h = hash then txCount else none
  | _ => none

def swapFor (hash : Hash) (e : Event n) : Bool :=
  match e.payload with
  | .tx h _ _ swap _ => h == hash && swap
  | _ => false

end Event

end FeedBench
