import FeedBench.Ws.Proofs.Frame

/-!
# Frames on the wire

The encodings RFC 6455 allows for a frame: masked or not, and any length form that can hold
the length.  `parse_frame` reads each of them back.
-/

namespace FeedBench.Ws

/-! ## Numbers and masks -/

theorem beNat_concat (bytes : List UInt8) (b : UInt8) :
    beNat (bytes ++ [b]) = beNat bytes * 256 + b.toNat := by
  simp [beNat]

@[simp] theorem length_beBytes (width n : Nat) : (beBytes width n).length = width := by
  induction width generalizing n with
  | zero => rfl
  | succ width ih => rw [beBytes, List.length_append, ih, List.length_singleton]

theorem beNat_beBytes {width n : Nat} (h : n < 256 ^ width) : beNat (beBytes width n) = n := by
  induction width generalizing n with
  | zero =>
      rw [Nat.pow_zero] at h
      have : n = 0 := by omega
      rw [this]
      rfl
  | succ width ih =>
      have hdiv : n / 256 < 256 ^ width := by
        apply Nat.div_lt_of_lt_mul
        rw [Nat.pow_succ] at h
        omega
      have hbyte : (UInt8.ofNat (n % 256)).toNat = n % 256 := by
        rw [UInt8.toNat_ofNat']
        omega
      rw [beBytes, beNat_concat, ih hdiv, hbyte]
      omega

@[simp] theorem length_applyMask (mask payload : List UInt8) :
    (applyMask mask payload).length = payload.length := by
  rw [applyMask, List.length_mapIdx]

/-- Masking twice is not masking. -/
theorem applyMask_applyMask (mask payload : List UInt8) :
    applyMask mask (applyMask mask payload) = payload := by
  apply List.ext_getElem
  · rw [length_applyMask, length_applyMask]
  · intro i h₁ h₂
    simp only [applyMask, List.getElem_mapIdx]
    rw [UInt8.xor_assoc, UInt8.xor_self, UInt8.xor_zero]

/-! ## Encodings -/

inductive LengthForm where
  | short
  | medium
  | long
  deriving DecidableEq

namespace LengthForm

def width : LengthForm → Nat
  | short => 0
  | medium => 2
  | long => 8

def bound : LengthForm → Nat
  | short => 126
  | medium => 2 ^ 16
  | long => 2 ^ 64

def code : LengthForm → Nat → Nat
  | short, n => n
  | medium, _ => 126
  | long, _ => 127

theorem code_lt {form : LengthForm} {n : Nat} (h : n < form.bound) : form.code n < 128 := by
  cases form
  · simp only [bound, code] at *
    omega
  · show 126 < 128
    omega
  · show 127 < 128
    omega

end LengthForm

/-- A frame with a choice of encoding. -/
structure WireFrame where
  fin : Bool
  rsv1 : Bool
  opcode : UInt8
  payload : List UInt8
  mask : Option (Vector UInt8 4)
  form : LengthForm
  opcode_lt : opcode.toNat < 16
  holds : payload.length < form.bound

namespace WireFrame

def maskBytes (w : WireFrame) : List UInt8 := w.mask.elim [] Vector.toList

def firstByte (w : WireFrame) : UInt8 :=
  (if w.fin then 0x80 else 0) ||| (if w.rsv1 then 0x40 else 0) ||| w.opcode

def secondByte (w : WireFrame) : UInt8 :=
  (if w.mask.isSome then 0x80 else 0) ||| UInt8.ofNat (w.form.code w.payload.length)

def header (w : WireFrame) : List UInt8 :=
  w.firstByte :: w.secondByte :: beBytes w.form.width w.payload.length

def body (w : WireFrame) : List UInt8 :=
  w.mask.elim w.payload fun mask => applyMask mask.toList w.payload

def bytes (w : WireFrame) : List UInt8 := w.header ++ w.maskBytes ++ w.body

def frame (w : WireFrame) : Frame where
  fin := w.fin
  rsv1 := w.rsv1
  opcode := w.opcode
  payload := w.payload
  wireLen := w.bytes.length

theorem firstByte_bits (w : WireFrame) :
    w.firstByte &&& 0x30 = 0 ∧ (w.firstByte &&& 0x80 ≠ 0 ↔ w.fin = true) ∧
      (w.firstByte &&& 0x40 ≠ 0 ↔ w.rsv1 = true) ∧ w.firstByte &&& 0x0f = w.opcode := by
  have hbits : ∀ (fin rsv1 : Bool) (o : Fin 16),
      let b : UInt8 := (if fin then 0x80 else 0) ||| (if rsv1 then 0x40 else 0) ||| UInt8.ofNat o
      b &&& 0x30 = 0 ∧ (b &&& 0x80 ≠ 0 ↔ fin = true) ∧ (b &&& 0x40 ≠ 0 ↔ rsv1 = true) ∧
        b &&& 0x0f = UInt8.ofNat o := by decide
  have hopcode : UInt8.ofNat w.opcode.toNat = w.opcode := UInt8.ofNat_toNat
  have h := hbits w.fin w.rsv1 ⟨w.opcode.toNat, w.opcode_lt⟩
  rw [hopcode] at h
  exact h

theorem secondByte_bits (w : WireFrame) :
    (w.secondByte &&& 0x7f).toNat = w.form.code w.payload.length ∧
      (w.secondByte &&& 0x80 ≠ 0 ↔ w.mask.isSome = true) := by
  have hbits : ∀ (masked : Bool) (n : Fin 128),
      let b : UInt8 := (if masked then 0x80 else 0) ||| UInt8.ofNat n
      (b &&& 0x7f).toNat = n ∧ (b &&& 0x80 ≠ 0 ↔ masked = true) := by decide +kernel
  exact hbits w.mask.isSome ⟨w.form.code w.payload.length, LengthForm.code_lt w.holds⟩

theorem length_header (w : WireFrame) : w.header.length = 2 + w.form.width := by
  simp only [header, List.length_cons, length_beBytes]
  omega

theorem length_maskBytes (w : WireFrame) : w.maskBytes.length = if w.mask.isSome then 4 else 0 := by
  unfold maskBytes
  rcases w.mask with _ | mask
  · rfl
  · exact mask.size_toArray

theorem length_body (w : WireFrame) : w.body.length = w.payload.length := by
  unfold body
  rcases w.mask with _ | mask
  · rfl
  · exact length_applyMask _ _

theorem headerSize_secondByte (w : WireFrame) :
    headerSize w.secondByte (2 + w.form.width) = w.header.length + w.maskBytes.length := by
  unfold headerSize
  rw [length_header, length_maskBytes]
  by_cases hmask : w.mask.isSome = true
  · rw [if_pos ((secondByte_bits w).2.mpr hmask), if_pos hmask]
  · rw [if_neg fun h => hmask ((secondByte_bits w).2.mp h), if_neg hmask]
    omega

/-! ## Reading back -/

theorem lengthField_bytes (w : WireFrame) (more : List UInt8) :
    lengthField (w.bytes ++ more) w.secondByte = some (w.payload.length, 2 + w.form.width) := by
  have hcode := (secondByte_bits w).1
  have hlong : 2 + w.form.width ≤ (w.bytes ++ more).length := by
    simp only [bytes, List.length_append, length_header]
    omega
  have hdrop : (w.bytes ++ more).drop 2 =
      beBytes w.form.width w.payload.length ++ (w.maskBytes ++ w.body ++ more) := by
    simp [bytes, header]
  have hlen : ((w.bytes ++ more).drop 2).take w.form.width =
      beBytes w.form.width w.payload.length := by
    rw [hdrop, List.take_left' (length_beBytes _ _)]
  have hholds := w.holds
  unfold lengthField
  dsimp only
  rw [hcode]
  cases hform : w.form with
  | short =>
      rw [hform] at hholds
      show (if w.payload.length = 126 then _ else if w.payload.length = 127 then _ else _) = _
      have h126 : w.payload.length < 126 := hholds
      rw [if_neg (show ¬w.payload.length = 126 by omega),
        if_neg (show ¬w.payload.length = 127 by omega)]
      rfl
  | medium =>
      rw [hform] at hholds hlong hlen
      show (if (w.bytes ++ more).length < 4 then none
        else some (beNat (((w.bytes ++ more).drop 2).take 2), 4)) = _
      have hfour : 4 ≤ (w.bytes ++ more).length := hlong
      have hfield : ((w.bytes ++ more).drop 2).take 2 = beBytes 2 w.payload.length := hlen
      rw [if_neg (show ¬(w.bytes ++ more).length < 4 by omega), hfield, beNat_beBytes hholds]
      rfl
  | long =>
      rw [hform] at hholds hlong hlen
      show (if (w.bytes ++ more).length < 10 then none
        else some (beNat (((w.bytes ++ more).drop 2).take 8), 10)) = _
      have hten : 10 ≤ (w.bytes ++ more).length := hlong
      have hfield : ((w.bytes ++ more).drop 2).take 8 = beBytes 8 w.payload.length := hlen
      rw [if_neg (show ¬(w.bytes ++ more).length < 10 by omega), hfield, beNat_beBytes hholds]
      rfl

theorem length_bytes (w : WireFrame) :
    w.bytes.length = w.header.length + w.maskBytes.length + w.payload.length := by
  rw [bytes, List.length_append, List.length_append, length_body]

theorem frameAt_bytes (w : WireFrame) (more : List UInt8) :
    frameAt (w.bytes ++ more) w.firstByte w.secondByte (w.header.length + w.maskBytes.length)
      w.payload.length = w.frame := by
  have hbits := firstByte_bits w
  have hmask := (secondByte_bits w).2
  have hbody : ((w.bytes ++ more).drop (w.header.length + w.maskBytes.length)).take
      w.payload.length = w.body :=
    calc ((w.bytes ++ more).drop (w.header.length + w.maskBytes.length)).take w.payload.length
        = (w.body ++ more).take w.payload.length := by
          rw [bytes, List.append_assoc, List.drop_left' (by rw [List.length_append])]
      _ = w.body := List.take_left' (length_body w)
  have hpayload : (frameAt (w.bytes ++ more) w.firstByte w.secondByte
      (w.header.length + w.maskBytes.length) w.payload.length).payload = w.payload := by
    unfold frameAt
    dsimp only
    rw [hbody]
    rcases hm : w.mask with _ | mask
    · rw [if_neg (by rw [hmask, hm]; simp), body, hm]
      rfl
    · have hbytes : w.maskBytes = mask.toList := by rw [maskBytes, hm]; rfl
      have hfour : w.maskBytes.length = 4 := by rw [length_maskBytes, hm]; rfl
      have hdrop : ((w.bytes ++ more).drop
          (w.header.length + w.maskBytes.length - 4)).take 4 = mask.toList :=
        calc ((w.bytes ++ more).drop (w.header.length + w.maskBytes.length - 4)).take 4
            = ((w.header ++ (w.maskBytes ++ (w.body ++ more))).drop w.header.length).take 4 := by
              rw [hfour, Nat.add_sub_cancel, bytes, List.append_assoc, List.append_assoc]
          _ = (w.maskBytes ++ (w.body ++ more)).take 4 := by rw [List.drop_left' rfl]
          _ = mask.toList := by rw [List.take_left' hfour, hbytes]
      rw [if_pos (by rw [hmask, hm]; rfl), hdrop, body, hm]
      exact applyMask_applyMask _ _
  unfold frameAt at hpayload ⊢
  unfold frame
  rw [Frame.mk.injEq]
  refine ⟨?_, ?_, hbits.2.2.2, hpayload, (length_bytes w).symm⟩
  · simp only [hbits.2.1, Bool.decide_eq_true]
  · simp only [hbits.2.2.1, Bool.decide_eq_true]

/-- A frame too long for the limit is refused as soon as it is there, any other is taken. -/
theorem parseFrame_bytes (w : WireFrame) (more : List UInt8) (max : Nat) :
    parseFrame (w.bytes ++ more) max =
      if max < w.payload.length then .error (.frameTooLong w.payload.length max)
      else .ok (some (w.frame, more)) := by
  have hcons : w.bytes ++ more = w.firstByte :: w.secondByte ::
      (beBytes w.form.width w.payload.length ++ w.maskBytes ++ w.body ++ more) := rfl
  have hlen := length_bytes w
  rw [hcons, parseFrame_cons, ← hcons, if_neg (by simp [(firstByte_bits w).1]),
    lengthField_bytes]
  dsimp only
  rw [headerSize_secondByte, frameAt_bytes]
  split
  · rfl
  · rw [if_neg (by rw [List.length_append]; omega), List.drop_left' hlen]

end WireFrame

/-! ## The client's frames -/

/-- The shortest form that holds a length. -/
def LengthForm.of (n : Nat) : LengthForm :=
  if n < 126 then .short else if n < 65536 then .medium else .long

theorem LengthForm.of_holds {n : Nat} (h : n < 2 ^ 64) : n < (of n).bound := by
  unfold of
  split
  · assumption
  split
  · assumption
  · exact h

namespace Sent

def wire (sent : Sent) (hopcode : sent.opcode.toNat < 16) (hlen : sent.payload.length < 2 ^ 64) :
    WireFrame where
  fin := true
  rsv1 := false
  opcode := sent.opcode
  payload := sent.payload
  mask := some sent.mask
  form := .of sent.payload.length
  opcode_lt := hopcode
  holds := LengthForm.of_holds hlen

theorem wire_bytes (sent : Sent) (hopcode : sent.opcode.toNat < 16)
    (hlen : sent.payload.length < 2 ^ 64) : (sent.wire hopcode hlen).bytes = sent.bytes := by
  have hfirst : (sent.wire hopcode hlen).firstByte = 0x80 ||| sent.opcode := by
    simp [WireFrame.firstByte, wire]
  have hsecond : (sent.wire hopcode hlen).secondByte =
      0x80 ||| UInt8.ofNat ((LengthForm.of sent.payload.length).code sent.payload.length) := rfl
  have hform : (sent.wire hopcode hlen).form = .of sent.payload.length := rfl
  unfold WireFrame.bytes WireFrame.header
  rw [hfirst, hsecond, hform, bytes, clientFrame]
  unfold LengthForm.of
  split
  · rfl
  split
  · rfl
  · rfl

end Sent

end FeedBench.Ws
