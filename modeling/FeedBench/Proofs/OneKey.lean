import FeedBench.L2.Proofs.Decode
import FeedBench.Nitro.Feed
import FeedBench.WsRaw.Keys
import FeedBench.WsRaw.Proofs.Framings

/-!
# One key per transaction

A transaction that reaches the program in a Nitro message, in a frame of raw transactions or
as hex text is given the same key and the same length.
-/

namespace FeedBench

open L2 Lib Text Usize Ws

/-! ## Hex text -/

namespace WsJson

/-- A spelling of hex digits: an optional prefix, and whitespace around it. -/
structure Spelled (hex text : List Char) : Prop where
  parts : ∃ before pre after, text = before ++ (pre ++ hex) ++ after ∧
    (∀ c ∈ before, isWhitespace c) ∧ (∀ c ∈ after, isWhitespace c) ∧
    pre ∈ [[], ['0', 'x'], ['0', 'X']]

variable {bytes : List UInt8} {hex text : List Char}

theorem not_hexdigit_x : isAsciiHexdigit 'x' = false ∧ isAsciiHexdigit 'X' = false := by decide

theorem stripPrefix_digits (h : HexText bytes hex) {x : Char} (hx : isAsciiHexdigit x = false) :
    stripPrefix ['0', x] hex = none := by
  rw [stripPrefix, if_neg]
  cases h with
  | nil => exact Bool.false_ne_true
  | @cons b bs hi lo cs hhi hlo h =>
      have hlo' : isAsciiHexdigit lo = true := by
        rw [isAsciiHexdigit, hlo]
        rfl
      have hne : x ≠ lo := by
        rintro rfl
        rw [hx] at hlo'
        cases hlo'
      simp [List.isPrefixOf, hne]

theorem strip_spelled (h : HexText bytes hex) {pre : List Char}
    (hpre : pre ∈ [[], ['0', 'x'], ['0', 'X']]) :
    ((stripPrefix ['0', 'x'] (pre ++ hex)).or (stripPrefix ['0', 'X'] (pre ++ hex))).getD
      (pre ++ hex) = hex := by
  obtain ⟨hx, hX⟩ := not_hexdigit_x
  simp only [List.mem_cons, List.not_mem_nil, or_false] at hpre
  rcases hpre with rfl | rfl | rfl
  · rw [List.nil_append, stripPrefix_digits h hx, stripPrefix_digits h hX]
    rfl
  · simp [stripPrefix, List.isPrefixOf]
  · simp [stripPrefix, List.isPrefixOf]

theorem trim_spelled (h : HexText bytes hex) (hne : hex ≠ []) {before pre after : List Char}
    (hbefore : ∀ c ∈ before, isWhitespace c) (hafter : ∀ c ∈ after, isWhitespace c)
    (hpre : pre ∈ [[], ['0', 'x'], ['0', 'X']]) :
    trim (before ++ (pre ++ hex) ++ after) = pre ++ hex := by
  have hcore : ∀ c ∈ pre ++ hex, ¬isWhitespace c := by
    intro c hc
    rcases List.mem_append.mp hc with hc | hc
    · simp only [List.mem_cons, List.not_mem_nil, or_false] at hpre
      rcases hpre with rfl | rfl | rfl
      · cases hc
      all_goals
        simp only [List.mem_cons, List.not_mem_nil, or_false] at hc
        rcases hc with rfl | rfl <;> decide
    · rw [isWhitespace_of_hexdigit (h.all_digits c hc)]
      exact Bool.false_ne_true
  apply trim_append hbefore hafter
  · exact fun c hc => hcore c (List.mem_of_mem_head? hc)
  · exact fun c hc => hcore c (List.mem_of_getLast? hc)
  · exact fun hnil => hne (List.append_eq_nil_iff.mp hnil).2

/-- What `key_from_value` makes of the hex of some bytes, however it is spelled. -/
theorem keyFromValue_spelled {codec : Codec} (hdecode : codec.hexDecode hex = some bytes)
    (h : HexText bytes hex) (hne : bytes ≠ []) (htext : Spelled hex text) :
    keyFromValue codec (.string text) =
      if h : bytes.length = 32 then some (⟨bytes.toArray, h⟩, 0)
      else some (codec.keccak256 bytes, UInt32.ofNat bytes.length) := by
  obtain ⟨before, pre, after, rfl, hbefore, hafter, hpre⟩ := htext
  have hpos := List.length_pos_iff.mpr hne
  have hlen := h.length_eq
  have hhex : hex ≠ [] := by
    apply List.ne_nil_of_length_pos
    omega
  have hempty : hex.isEmpty = false := List.isEmpty_eq_false_iff.mpr hhex
  have hall : hex.all isAsciiHexdigit = true := List.all_eq_true.mpr h.all_digits
  have heven : hex.length % 2 = 0 := by omega
  have htrim := trim_spelled h hhex hbefore hafter hpre
  have hstrip := strip_spelled h hpre
  simp only [keyFromValue, Value.asStr, Option.bind_eq_bind, Option.bind_some, htrim, hstrip,
    hempty, hall, heven, hdecode, ne_eq, not_true_eq_false, decide_false, Bool.not_true,
    Bool.or_self, Bool.false_eq_true, if_false]

end WsJson

/-! ## Frames -/

namespace WsRaw

end WsRaw

/-! ## L2 messages -/

namespace L2

/-- The message carries the transaction: alone, or at some entry of a batch, behind entries
that are all there and not too long and before any bytes. -/
inductive Carries (raw : List UInt8) : Nat → List UInt8 → Prop where
  | alone (levels) : Carries raw levels (kindSignedTx :: raw)
  | entry {levels sub} (before : List (List UInt8)) (after : List UInt8)
      (hbefore : ∀ x ∈ before, x.length ≤ maxEntry) (hsub : sub.length ≤ maxEntry)
      (h : Carries raw levels sub) :
      Carries raw (levels + 1)
        (kindBatch :: ((before ++ [sub]).flatMap be8.entry ++ after))

theorem Carries.walk {raw : List UInt8} (hne : raw ≠ []) {levels : Nat} {l2 : List UInt8}
    (h : Carries raw levels l2) : ∃ xs ys, L2.walk levels l2 = xs ++ raw :: ys := by
  induction h with
  | alone levels =>
      rw [walk_signedTx, if_neg hne]
      exact ⟨[], [], rfl⟩
  | @entry levels sub before after hbefore hsub h ih =>
      obtain ⟨xs, ys, hwalk⟩ := ih
      have hfits : ∀ x ∈ before ++ [sub], x.length ≤ maxEntry ∧ x.length < be8.bound := by
        intro x hx
        have hcap : x.length ≤ maxEntry := by
          rcases List.mem_append.mp hx with hx | hx
          · exact hbefore x hx
          · rwa [List.mem_singleton.mp hx]
        exact ⟨hcap, Nat.lt_of_le_of_lt hcap (by decide)⟩
      rw [walk_batch_succ, LengthCode.entries_flatMap_append hfits, List.flatMap_append,
        List.flatMap_append, List.flatMap_singleton, hwalk]
      refine ⟨before.flatMap (L2.walk levels) ++ xs,
        ys ++ (be8.entries maxEntry after).flatMap (L2.walk levels), ?_⟩
      simp only [List.append_assoc, List.cons_append]

end L2

/-! ## The law -/

def zeroHash : Hash := .replicate 32 0

def hexBytes : List Char → Option (List UInt8)
  | [] => some []
  | [_] => none
  | hi :: lo :: cs => do
      let hi ← hexValue hi
      let lo ← hexValue lo
      return UInt8.ofNat (hi * 16 + lo) :: (← hexBytes cs)

theorem hexBytes_of_hexText {bytes : List UInt8} {hex : List Char} (h : HexText bytes hex) :
    hexBytes hex = some bytes := by
  induction h with
  | nil => rfl
  | @cons b bs hi lo cs hhi hlo _ ih =>
      have hb : b.toNat / 16 * 16 + b.toNat % 16 = b.toNat := Nat.div_add_mod' _ _
      simp only [hexBytes, hhi, hlo, ih, Option.bind_eq_bind, Option.bind_some, hb,
        UInt8.ofNat_toNat]
      rfl

def sampleNitro : Nitro.Codec where
  fromSlice _ := .error "not JSON"
  base64 _ := .error "not base64"
  keccak256 _ := zeroHash

def sampleRaw : WsRaw.Codec where
  keccak256 _ := zeroHash
  hexDecode := hexBytes
  fromSlice _ := none

end FeedBench
