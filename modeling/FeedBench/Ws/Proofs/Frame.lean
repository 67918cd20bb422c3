import FeedBench.Ws.Frame
import FeedBench.Lib.Incremental

/-!
# Frames are decoded incrementally

`parse_frame` answers from the bytes of the frame alone, so that it is a `Decoder`.
-/

namespace FeedBench.Ws

open Lib

variable {buf more rest : List UInt8} {b0 b1 : UInt8} {max len hl : Nat} {f : Frame} {e : Error}

theorem lengthField_le (h : lengthField buf b1 = some (len, hl)) : 2 ≤ hl ∧ hl ≤ 10 := by
  unfold lengthField at h
  dsimp only at h
  split at h
  · split at h
    · cases h
    · cases h; omega
  · split at h
    · split at h
      · cases h
      · cases h; omega
    · cases h; omega

theorem lengthField_append (h : lengthField buf b1 = some (len, hl)) :
    lengthField (buf ++ more) b1 = some (len, hl) := by
  unfold lengthField at h ⊢
  dsimp only at h ⊢
  have hslice : ∀ k, 2 + k ≤ buf.length →
      ((buf ++ more).drop 2).take k = (buf.drop 2).take k := by
    intro k hk
    rw [List.drop_append_of_le_length (by omega),
      List.take_append_of_le_length (by rw [List.length_drop]; omega)]
  split at h
  · next h126 =>
    rw [if_pos h126]
    split at h
    · cases h
    · next hlen =>
      rw [if_neg (by rw [List.length_append]; omega), hslice 2 (by omega), h]
  · next h126 =>
    rw [if_neg h126]
    split at h
    · next h127 =>
      rw [if_pos h127]
      split at h
      · cases h
      · next hlen =>
        rw [if_neg (by rw [List.length_append]; omega), hslice 8 (by omega), h]
    · next h127 => rw [if_neg h127, h]

theorem lengthField_of_append (h : lengthField (buf ++ more) b1 = some (len, hl))
    (hle : hl ≤ buf.length) : lengthField buf b1 = some (len, hl) := by
  cases hbuf : lengthField buf b1 with
  | some p =>
      obtain ⟨len', hl'⟩ := p
      rw [lengthField_append hbuf] at h
      exact h
  | none =>
      exfalso
      unfold lengthField at h hbuf
      dsimp only at h hbuf
      split at hbuf
      · next h126 =>
        rw [if_pos h126] at h
        split at hbuf
        · split at h
          · cases h
          · cases h; omega
        · cases hbuf
      · next h126 =>
        rw [if_neg h126] at h
        split at hbuf
        · next h127 =>
          rw [if_pos h127] at h
          split at hbuf
          · split at h
            · cases h
            · cases h; omega
          · cases hbuf
        · cases hbuf

def headerSize (b1 : UInt8) (hl : Nat) : Nat := if b1 &&& 0x80 ≠ 0 then hl + 4 else hl

/-- The frame at the front of a buffer that holds it. -/
def frameAt (buf : List UInt8) (b0 b1 : UInt8) (hl len : Nat) : Frame where
  fin := b0 &&& 0x80 ≠ 0
  rsv1 := b0 &&& 0x40 ≠ 0
  opcode := b0 &&& 0x0f
  payload :=
    if b1 &&& 0x80 ≠ 0 then applyMask ((buf.drop (hl - 4)).take 4) ((buf.drop hl).take len)
    else (buf.drop hl).take len
  wireLen := hl + len

theorem parseFrame_cons (tl : List UInt8) :
    parseFrame (b0 :: b1 :: tl) max =
      if b0 &&& 0x30 ≠ 0 then .error .reservedBits
      else
        match lengthField (b0 :: b1 :: tl) b1 with
        | none => .ok none
        | some (len, hl) =>
            if max < len then .error (.frameTooLong len max)
            else if (b0 :: b1 :: tl).length < headerSize b1 hl + len then .ok none
            else .ok (some (frameAt (b0 :: b1 :: tl) b0 b1 (headerSize b1 hl) len,
              (b0 :: b1 :: tl).drop (headerSize b1 hl + len))) := rfl

/-- What `parse_frame` found when it took a frame. -/
theorem parseFrame_eq_some (h : parseFrame buf max = .ok (some (f, rest))) :
    ∃ b0 b1 tl len hl, buf = b0 :: b1 :: tl ∧ b0 &&& 0x30 = 0 ∧
      lengthField buf b1 = some (len, hl) ∧ len ≤ max ∧ headerSize b1 hl + len ≤ buf.length ∧
      f = frameAt buf b0 b1 (headerSize b1 hl) len ∧
      rest = buf.drop (headerSize b1 hl + len) := by
  match buf with
  | [] => cases h
  | [_] => cases h
  | b0 :: b1 :: tl =>
      rw [parseFrame_cons] at h
      split at h
      · cases h
      · next hrsv =>
        split at h
        · cases h
        · next len hl hfield =>
          split at h
          · cases h
          · next hmax =>
            split at h
            · cases h
            · next hlong =>
              cases h
              exact ⟨b0, b1, tl, len, hl, rfl, by simpa using hrsv, hfield, by omega, by omega,
                rfl, rfl⟩

theorem headerSize_le (b1 : UInt8) (hl : Nat) :
    hl ≤ headerSize b1 hl ∧ headerSize b1 hl ≤ hl + 4 := by
  unfold headerSize
  split <;> omega

theorem frameAt_append (h2 : 2 ≤ hl) (h : headerSize b1 hl + len ≤ buf.length) :
    frameAt (buf ++ more) b0 b1 (headerSize b1 hl) len =
      frameAt buf b0 b1 (headerSize b1 hl) len := by
  have hpayload : ((buf ++ more).drop (headerSize b1 hl)).take len =
      (buf.drop (headerSize b1 hl)).take len := by
    rw [List.drop_append_of_le_length (by omega),
      List.take_append_of_le_length (by rw [List.length_drop]; omega)]
  unfold frameAt
  by_cases hmask : b1 &&& 0x80 ≠ 0
  · have hsize : headerSize b1 hl = hl + 4 := if_pos hmask
    have hbytes : ((buf ++ more).drop (headerSize b1 hl - 4)).take 4 =
        (buf.drop (headerSize b1 hl - 4)).take 4 := by
      rw [List.drop_append_of_le_length (by omega),
        List.take_append_of_le_length (by rw [List.length_drop]; omega)]
    rw [hpayload, hbytes]
  · rw [if_neg hmask, if_neg hmask, hpayload]

theorem parseFrame_used (h : parseFrame buf max = .ok (some (f, rest))) :
    ∃ u, u ≠ [] ∧ buf = u ++ rest := by
  obtain ⟨b0, b1, tl, len, hl, hbuf, -, hfield, -, hlong, -, hrest⟩ := parseFrame_eq_some h
  have hsize := (headerSize_le b1 hl).1
  have h2 := (lengthField_le hfield).1
  refine ⟨buf.take (headerSize b1 hl + len), ?_, ?_⟩
  · intro hnil
    have := congrArg List.length hnil
    rw [List.length_take, List.length_nil] at this
    omega
  · rw [hrest, List.take_append_drop]

theorem parseFrame_more (more : List UInt8) (h : parseFrame buf max = .ok (some (f, rest))) :
    parseFrame (buf ++ more) max = .ok (some (f, rest ++ more)) := by
  obtain ⟨b0, b1, tl, len, hl, hbuf, hrsv, hfield, hmax, hlong, hf, hrest⟩ := parseFrame_eq_some h
  have hfield' : lengthField (buf ++ more) b1 = some (len, hl) := lengthField_append hfield
  have hframe : frameAt (buf ++ more) b0 b1 (headerSize b1 hl) len =
      frameAt buf b0 b1 (headerSize b1 hl) len := frameAt_append (lengthField_le hfield).1 hlong
  subst hbuf
  rw [List.cons_append, List.cons_append] at hfield' hframe ⊢
  rw [parseFrame_cons, if_neg (by simpa using hrsv), hfield']
  dsimp only
  rw [if_neg (by omega), if_neg (by simp only [List.length_cons, List.length_append] at *; omega),
    hframe, hf, hrest, ← List.cons_append, ← List.cons_append,
    List.drop_append_of_le_length hlong]

theorem parseFrame_fails (more : List UInt8) (h : parseFrame buf max = .error e) :
    parseFrame (buf ++ more) max = .error e := by
  match buf with
  | [] => cases h
  | [_] => cases h
  | b0 :: b1 :: tl =>
      rw [parseFrame_cons] at h
      rw [List.cons_append, List.cons_append, parseFrame_cons]
      split at h
      · next hrsv => rw [if_pos hrsv, h]
      · next hrsv =>
        rw [if_neg hrsv]
        split at h
        · cases h
        · next len hl hfield =>
          have hfield' : lengthField (b0 :: b1 :: tl ++ more) b1 = some (len, hl) :=
            lengthField_append hfield
          rw [List.cons_append, List.cons_append] at hfield'
          rw [hfield']
          dsimp only
          split at h
          · next hmax => rw [if_pos hmax, h]
          · split at h <;> cases h

theorem parseFrame_less (h : parseFrame (buf ++ more) max = .ok (some (f, rest ++ more))) :
    parseFrame buf max = .ok (some (f, rest)) := by
  obtain ⟨b0, b1, tl, len, hl, hbuf, hrsv, hfield, hmax, hlong, -, hrest⟩ := parseFrame_eq_some h
  have hsize := (headerSize_le b1 hl).1
  have h2 := (lengthField_le hfield).1
  have hlen : headerSize b1 hl + len ≤ buf.length := by
    have := congrArg List.length hrest
    simp only [List.length_append, List.length_drop] at this hlong
    omega
  have hsome : ∃ p, parseFrame buf max = .ok (some p) := by
    have hfield' := lengthField_of_append hfield (by omega)
    match buf with
    | [] => simp only [List.length_nil] at hlen; omega
    | [_] => simp only [List.length_cons, List.length_nil] at hlen; omega
    | b0' :: b1' :: tl' =>
        rw [List.cons_append, List.cons_append] at hbuf
        cases hbuf
        rw [parseFrame_cons, if_neg (by simpa using hrsv), hfield']
        dsimp only
        rw [if_neg (by omega), if_neg (by omega)]
        exact ⟨_, rfl⟩
  obtain ⟨⟨f', rest'⟩, hp⟩ := hsome
  have hmore := parseFrame_more more hp
  rw [h] at hmore
  simp only [Except.ok.injEq, Option.some.injEq, Prod.mk.injEq, List.append_left_inj] at hmore
  rw [hp, hmore.1, hmore.2]

def frameDecoder (max : Nat) : Decoder UInt8 Frame Error where
  take buf := parseFrame buf max
  used := parseFrame_used
  more := parseFrame_more
  less := parseFrame_less
  fails := parseFrame_fails

end FeedBench.Ws
