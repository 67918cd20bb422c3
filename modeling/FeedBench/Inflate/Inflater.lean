import FeedBench.Text

/-!
# Per-message deflate

`inflate.rs`.  The decompressor is a library the program calls, so it is a parameter: what
one call consumes and appends, within the input and the spare capacity it is given.
-/

namespace FeedBench.Inflate

/-- The empty stored block that ends a message and that the sender strips. -/
def tail : List UInt8 := [0x00, 0x00, 0xff, 0xff]

inductive Mode where
  /-- Fresh context and the static dictionary for every message. -/
  | nitro
  | standard (serverNoContextTakeover : Bool)
  deriving DecidableEq

def Mode.name : Mode → String
  | .nitro => "Arbitrum-permessage-deflate"
  | .standard _ => "permessage-deflate"

inductive Status where
  | ok
  | bufError
  | streamEnd
  deriving DecidableEq

structure Call (State : Type) where
  status : Status
  consumed : Nat
  appended : List UInt8
  state : State

/-- The decompressor, with the static dictionary it is given. -/
structure Decompress where
  State : Type
  /-- `Decompress::new(false)`. -/
  new : State
  reset : State → State
  /-- `set_dictionary(NITRO_DICTIONARY)`. -/
  setDictionary : State → Except String State
  /-- `decompress_vec(input, out, FlushDecompress::None)`, by the spare capacity of `out`. -/
  decompress : State → List UInt8 → Nat → Except String (Call State)
  consumed_le : ∀ st input spare call, decompress st input spare = .ok call →
    call.consumed ≤ input.length
  appended_le : ∀ st input spare call, decompress st input spare = .ok call →
    call.appended.length ≤ spare

inductive Error where
  | setDictionary (e : String)
  | inflate (e : String)
  | tooLong (max : Nat)
  | noProgress
  deriving DecidableEq

def Error.message : Error → String
  | .setDictionary e => "set dictionary: " ++ e
  | .inflate e => "inflate: " ++ e
  | .tooLong max => "inflated message exceeds " ++ toString max ++ " bytes"
  | .noProgress => "inflate made no progress"

structure Inflater (Z : Decompress) where
  de : Z.State
  mode : Mode
  max : Nat
  /-- The previous message ended the stream, so the next one needs a fresh context. -/
  ended : Bool

namespace Inflater

variable {Z : Decompress}

def reset (inf : Inflater Z) : Except Error (Inflater Z) :=
  let de := Z.reset inf.de
  if inf.mode = .nitro then
    match Z.setDictionary de with
    | .error e => .error (.setDictionary e)
    | .ok de => .ok { inf with de := de, ended := false }
  else
    .ok { inf with de := de, ended := false }

def new (mode : Mode) (max : Nat) : Except Error (Inflater Z) :=
  reset { de := Z.new, mode := mode, max := max, ended := false }

/-- The capacity of a vector of `len` bytes after `reserve(additional)`. -/
def reserved (len cap additional : Nat) : Nat :=
  if cap - len < additional then Max.max (2 * cap) (len + additional) else cap

/-- Push `input` through the inflater; `true` when the stream reached its final block. -/
def run (inf : Inflater Z) (input out : List UInt8) (cap : Nat) :
    Except Error (Bool × Inflater Z × List UInt8 × Nat) :=
  let cap := if cap - out.length < 4096 then reserved out.length cap (32 * 1024) else cap
  match _hcall : Z.decompress inf.de input (cap - out.length) with
  | .error e => .error (.inflate e)
  | .ok call =>
      let input' := input.drop call.consumed
      let out' := out ++ call.appended
      let inf' := { inf with de := call.state }
      if inf.max < out'.length then .error (.tooLong inf.max)
      else if call.status = .streamEnd then .ok (true, { inf' with ended := true }, out', cap)
      else if input'.isEmpty ∧ call.appended.isEmpty then .ok (false, inf', out', cap)
      else if call.consumed = 0 ∧ call.appended.isEmpty then .error .noProgress
      else run inf' input' out' cap
termination_by input.length + (inf.max - out.length)
decreasing_by
  rename_i hlong _ _ hprogress
  have hle := Z.consumed_le _ _ _ _ _hcall
  rw [List.isEmpty_iff, ← List.length_eq_zero_iff] at hprogress
  have hout : out'.length = out.length + call.appended.length := List.length_append
  simp only [List.length_drop, List.length_append]
  omega

def inflateMessage (inf : Inflater Z) (z : List UInt8) :
    Except Error (List UInt8 × Inflater Z) := do
  let fresh := match inf.mode with
    | .nitro => true
    | .standard serverNoContextTakeover => serverNoContextTakeover
  let inf ← if fresh || inf.ended then inf.reset else pure inf
  let (last, inf, out, cap) ← inf.run z [] (Max.max (4 * z.length) 4096)
  if last then return (out, inf)
  let (_, inf, out, _) ← inf.run tail out cap
  return (out, inf)

end Inflater

end FeedBench.Inflate
