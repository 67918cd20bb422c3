import FeedBench.Usize
import FeedBench.Ws.Wire

/-!
# What the client writes

`parse_frame` reads a client frame back once it is all there, and before that it waits, unless
the length it has read is over the limit.
-/

namespace FeedBench.Ws

open Usize

def bufferAfter (buf : List UInt8) (max : Nat) : List UInt8 :=
  match parseFrame buf max with
  | .ok (some (_, rest)) => rest
  | _ => buf

def lengthHeader (n : Nat) : Nat := if n < 126 then 2 else if n < 65536 then 4 else 10

theorem lengthHeader_eq (n : Nat) : lengthHeader n = 2 + (LengthForm.of n).width := by
  unfold lengthHeader LengthForm.of
  split
  · rfl
  split
  · rfl
  · rfl

variable {buf pre : List UInt8} {max : Nat}

theorem parseFrame_short (h : buf.length < 2) : parseFrame buf max = .ok none := by
  match buf with
  | [] => rfl
  | [_] => rfl
  | _ :: _ :: _ =>
      simp only [List.length_cons] at h
      omega

namespace WireFrame

variable (w : WireFrame)

theorem lengthField_short (h2 : 2 ≤ buf.length) (h : buf.length < 2 + w.form.width) :
    lengthField buf w.secondByte = none := by
  unfold lengthField
  dsimp only
  rw [(secondByte_bits w).1]
  cases hform : w.form with
  | short =>
      rw [hform] at h
      have hwidth : buf.length < 2 := h
      omega
  | medium =>
      rw [hform] at h
      exact if_pos h
  | long =>
      rw [hform] at h
      exact if_pos h

theorem exists_cons_of_prefix {more : List UInt8} (h : pre <+: w.bytes ++ more)
    (h2 : 2 ≤ pre.length) : ∃ tl, pre = w.firstByte :: w.secondByte :: tl := by
  match pre with
  | [] => simp only [List.length_nil] at h2; omega
  | [_] => simp only [List.length_cons, List.length_nil] at h2; omega
  | b0 :: b1 :: tl =>
      obtain ⟨h0, htail⟩ := List.cons_prefix_cons.mp h
      obtain ⟨h1, -⟩ := List.cons_prefix_cons.mp htail
      exact ⟨tl, by rw [h0, h1]⟩

theorem parseFrame_before_length {more : List UInt8} (h : pre <+: w.bytes ++ more)
    (hshort : pre.length < 2 + w.form.width) : parseFrame pre max = .ok none := by
  by_cases h2 : pre.length < 2
  · exact parseFrame_short h2
  · obtain ⟨tl, rfl⟩ := w.exists_cons_of_prefix h (by omega)
    rw [parseFrame_cons, if_neg (by simp [(firstByte_bits w).1]),
      w.lengthField_short (by omega) hshort]

theorem parseFrame_from_length {more : List UInt8} (h : pre <+: w.bytes ++ more)
    (hlong : 2 + w.form.width ≤ pre.length) (hshort : pre.length < w.bytes.length) :
    parseFrame pre max =
      if max < w.payload.length then .error (.frameTooLong w.payload.length max)
      else .ok none := by
  have hlen := length_bytes w
  obtain ⟨rest, hrest⟩ := h
  have hfield : lengthField pre w.secondByte = some (w.payload.length, 2 + w.form.width) :=
    lengthField_of_append (hrest ▸ w.lengthField_bytes more) hlong
  obtain ⟨tl, rfl⟩ := w.exists_cons_of_prefix ⟨rest, hrest⟩ (by omega)
  rw [parseFrame_cons, if_neg (by simp [(firstByte_bits w).1]), hfield]
  dsimp only
  rw [headerSize_secondByte, ← hlen, if_pos hshort]

/-- A frame that may be taken is waited for to its last byte. -/
theorem parseFrame_waiting (hmax : w.payload.length ≤ max) (h : pre <+: w.bytes)
    (hne : pre ≠ w.bytes) : parseFrame pre max = .ok none := by
  have hshort : pre.length < w.bytes.length := by
    apply Nat.lt_of_le_of_ne h.length_le
    exact fun heq => hne (h.eq_of_length heq)
  have hprefix : pre <+: w.bytes ++ [] := by rwa [List.append_nil]
  by_cases hlong : 2 + w.form.width ≤ pre.length
  · rw [w.parseFrame_from_length hprefix hlong hshort, if_neg (by omega)]
  · exact w.parseFrame_before_length hprefix (by omega)

theorem parseFrame_refused {more : List UInt8} (hmax : max < w.payload.length)
    (h : pre <+: w.bytes ++ more) (hlong : 2 + w.form.width ≤ pre.length) :
    parseFrame pre max = .error (.frameTooLong w.payload.length max) := by
  by_cases hshort : pre.length < w.bytes.length
  · rw [w.parseFrame_from_length h hlong hshort, if_pos hmax]
  · have hbytes : w.bytes <+: pre :=
      List.prefix_of_prefix_length_le (List.prefix_append _ _) h (by omega)
    obtain ⟨rest, rfl⟩ := hbytes
    rw [parseFrame_bytes, if_pos hmax]

end WireFrame

/-! ## The client's frames -/

/-- A client frame is read back, waited for as long as a byte of it is missing, and refused
from its length on when it is over the limit. -/
theorem parseFrame_clientFrame (payload : Slice) (opcode : UInt8) (hopcode : opcode.toNat < 16)
    (mask : Vector UInt8 4) (max : Nat) (rest : List UInt8) :
    let sent := clientFrame payload.bytes opcode mask
    let n := payload.bytes.length
    (n ≤ max →
      parseFrame (sent ++ rest) max = .ok (some
        ({ fin := true, rsv1 := false, opcode, payload := payload.bytes,
           wireLen := sent.length }, rest)) ∧
      bufferAfter (sent ++ rest) max = rest ∧
      ∀ pre, pre <+: sent → pre ≠ sent →
        parseFrame pre max = .ok none ∧ bufferAfter pre max = pre) ∧
    (max < n → ∀ pre, pre <+: sent ++ rest →
      parseFrame pre max =
        if pre.length < lengthHeader n then .ok none else .error (.frameTooLong n max)) := by
  intro sent n
  have hn : n < 2 ^ 64 := Nat.lt_trans payload.length_lt (by decide)
  let w := Sent.wire { payload := payload.bytes, opcode, mask } hopcode hn
  have hbytes : w.bytes = sent := Sent.wire_bytes _ hopcode hn
  have hform : lengthHeader n = 2 + w.form.width := lengthHeader_eq n
  rw [← hbytes, hform]
  refine ⟨fun hmax => ?_, fun hmax pre hpre => ?_⟩
  · have hread : parseFrame (w.bytes ++ rest) max = .ok (some (w.frame, rest)) := by
      rw [WireFrame.parseFrame_bytes]
      exact if_neg (Nat.not_lt.mpr hmax)
    refine ⟨hread, by rw [bufferAfter, hread], fun pre hpre hne => ?_⟩
    have hwait : parseFrame pre max = .ok none := w.parseFrame_waiting hmax hpre hne
    exact ⟨hwait, by rw [bufferAfter, hwait]⟩
  · split
    · next hshort => exact w.parseFrame_before_length hpre hshort
    · next hshort => exact w.parseFrame_refused hmax hpre (Nat.not_lt.mp hshort)

theorem parseFrame_clientFrame_ping :
    parseFrame (clientFrame [0x68, 0x69] opPing #v[1, 2, 3, 4] ++ [0x81]) 2 = .ok (some
      ({ fin := true, rsv1 := false, opcode := opPing, payload := [0x68, 0x69],
         wireLen := (clientFrame [0x68, 0x69] opPing #v[1, 2, 3, 4]).length }, [0x81])) :=
  ((parseFrame_clientFrame ⟨[0x68, 0x69], by decide⟩ opPing (by decide) #v[1, 2, 3, 4] 2
    [0x81]).1 (by decide)).1

end FeedBench.Ws
