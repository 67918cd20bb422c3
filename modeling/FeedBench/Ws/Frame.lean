import FeedBench.Inflate.Inflater

/-!
# Frames

`parse_frame` and `client_frame` of `ws.rs`, and the errors that end a session.  A buffer
is the list of its bytes; lengths are natural numbers.
-/

namespace FeedBench.Ws

def opCont : UInt8 := 0x0
def opText : UInt8 := 0x1
def opBinary : UInt8 := 0x2
def opClose : UInt8 := 0x8
def opPing : UInt8 := 0x9
def opPong : UInt8 := 0xA

inductive Error where
  | reservedBits
  | frameTooLong (len max : Nat)
  | dataInsideMessage
  | notNegotiated
  | strayContinuation
  | messageTooLong (max : Nat)
  | noInflater
  | inflate (e : Inflate.Error)
  | closedByServer (code : Option Nat) (reason : List UInt8)
  | unknownOpcode (opcode : UInt8)
  | noData (readTimeout : Nat)
  | closed
  | writeTimeout
  | io (e : String)
  deriving DecidableEq

def Error.message : Error → String
  | .reservedBits => "reserved bits RSV2/RSV3 set"
  | .frameTooLong len max =>
      "frame of " ++ toString len ++ " bytes exceeds the " ++ toString max ++ " byte limit"
  | .dataInsideMessage => "data frame inside a fragmented message"
  | .notNegotiated => "compressed frame but no compression was negotiated"
  | .strayContinuation => "continuation frame without a message in progress"
  | .messageTooLong max => "message exceeds " ++ toString max ++ " bytes"
  | .noInflater => "compressed frame but no inflater"
  | .inflate e => e.message
  | .closedByServer code reason =>
      "closed by server: code " ++ code.elim "-" toString ++ " " ++
        String.ofList (Text.fromUtf8Lossy reason)
  | .unknownOpcode opcode => "unknown opcode " ++ toString opcode.toNat
  | .noData readTimeout => "no data for " ++ Text.durationDebug readTimeout
  | .closed => "connection closed"
  | .writeTimeout => "write timeout"
  | .io e => e

structure Frame where
  fin : Bool
  rsv1 : Bool
  opcode : UInt8
  payload : List UInt8
  wireLen : Nat
  deriving DecidableEq

def Frame.isData (f : Frame) : Bool :=
  f.opcode = opText ∨ f.opcode = opBinary ∨ f.opcode = opCont

/-! ## Numbers and masks -/

def beNat (bytes : List UInt8) : Nat := bytes.foldl (fun acc b => acc * 256 + b.toNat) 0

def beBytes : Nat → Nat → List UInt8
  | 0, _ => []
  | width + 1, n => beBytes width (n / 256) ++ [UInt8.ofNat (n % 256)]

def applyMask (mask payload : List UInt8) : List UInt8 :=
  payload.mapIdx fun i b => b ^^^ mask.getD (i % 4) 0

/-! ## Server frames -/

/-- The payload length and the size of the header without the mask, when the bytes that say
them are there. -/
def lengthField (buf : List UInt8) (b1 : UInt8) : Option (Nat × Nat) :=
  let len := (b1 &&& 0x7f).toNat
  if len = 126 then
    if buf.length < 4 then none else some (beNat ((buf.drop 2).take 2), 4)
  else if len = 127 then
    if buf.length < 10 then none else some (beNat ((buf.drop 2).take 8), 10)
  else some (len, 2)

/-- Take one complete frame off the front of `buf`, if it is all there. -/
def parseFrame (buf : List UInt8) (max : Nat) : Except Error (Option (Frame × List UInt8)) :=
  match buf with
  | b0 :: b1 :: _ =>
      if b0 &&& 0x30 ≠ 0 then .error .reservedBits
      else
        match lengthField buf b1 with
        | none => .ok none
        | some (len, hl) =>
            let masked := b1 &&& 0x80 ≠ 0
            let hl := if masked then hl + 4 else hl
            if max < len then .error (.frameTooLong len max)
            else if buf.length < hl + len then .ok none
            else
              let mask := (buf.drop (hl - 4)).take 4
              let payload := (buf.drop hl).take len
              .ok (some
                ({ fin := b0 &&& 0x80 ≠ 0
                   rsv1 := b0 &&& 0x40 ≠ 0
                   opcode := b0 &&& 0x0f
                   payload := if masked then applyMask mask payload else payload
                   wireLen := hl + len },
                  buf.drop (hl + len)))
  | _ => .ok none

/-! ## Client frames -/

/-- A frame written to the server: its payload, its opcode and the random mask. -/
structure Sent where
  payload : List UInt8
  opcode : UInt8
  mask : Vector UInt8 4
  deriving DecidableEq

def clientFrame (payload : List UInt8) (opcode : UInt8) (mask : Vector UInt8 4) : List UInt8 :=
  let n := payload.length
  (0x80 ||| opcode) ::
    (if n < 126 then [0x80 ||| UInt8.ofNat n]
      else if n < 65536 then (0x80 ||| 126) :: beBytes 2 n
      else (0x80 ||| 127) :: beBytes 8 n) ++
    mask.toList ++ applyMask mask.toList payload

def Sent.bytes (sent : Sent) : List UInt8 := clientFrame sent.payload sent.opcode sent.mask

end FeedBench.Ws
