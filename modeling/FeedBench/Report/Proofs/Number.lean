import FeedBench.Report.Number
import FeedBench.Text.Pieces
import Mathlib.Algebra.Order.Field.Rat

/-!
# Numbers read back

A printed number is read back as the number at its decimals.
-/

namespace FeedBench.Report

open Text Lib

variable {d k : Nat}

/-! ## Digits -/

theorem zeroPad_natCast (d k : Nat) :
    zeroPad d k = List.replicate (d - (Nat.toDigits 10 k).length) '0' ++ Nat.toDigits 10 k := by
  have hpos : ¬(k : Int) < 0 := by omega
  rw [zeroPad, if_neg hpos, List.length_nil, Nat.sub_zero, List.nil_append, Int.natAbs_natCast]

theorem decimalValue_toDigits (k : Nat) : decimalValue (Nat.toDigits 10 k) = k := by
  rw [decimalValue_eq]
  exact Nat.ofDigitChars_ten_toDigits

theorem decimalValue_zeroPad (d k : Nat) : decimalValue (zeroPad d k) = k := by
  rw [zeroPad_natCast, decimalValue_eq, Nat.ofDigitChars_append, Nat.ofDigitChars_replicate_zero,
    Nat.mul_zero]
  exact Nat.ofDigitChars_ten_toDigits

theorem length_zeroPad (hd : 0 < d) (hk : k < 10 ^ d) : (zeroPad d k).length = d := by
  have hle : (Nat.toDigits 10 k).length ≤ d :=
    (Nat.length_toDigits_le_iff (by omega) hd).mpr hk
  rw [zeroPad_natCast, List.length_append, List.length_replicate]
  omega

theorem all_isDigit_toDigits (k : Nat) : (Nat.toDigits 10 k).all Char.isDigit = true :=
  List.all_eq_true.mpr fun _ hc => Nat.isDigit_of_mem_toDigits (by omega) (by omega) hc

theorem all_isDigit_zeroPad (d k : Nat) : (zeroPad d k).all Char.isDigit = true := by
  rw [zeroPad_natCast, List.all_append, all_isDigit_toDigits, Bool.and_true, List.all_eq_true]
  intro c hc
  rw [List.eq_of_mem_replicate hc]
  rfl

theorem readNat_of_digits {s : List Char} (hne : s ≠ []) (h : s.all Char.isDigit = true) :
    readNat s = some (decimalValue s) := if_pos ⟨hne, h⟩

@[simp] theorem readNat_toDigits (k : Nat) : readNat (Nat.toDigits 10 k) = some k := by
  rw [readNat_of_digits Nat.toDigits_ne_nil (all_isDigit_toDigits k), decimalValue_toDigits]

@[simp] theorem readNat_toString (k : Nat) : readNat (toString k).toList = some k := by
  rw [toList_toString, readNat_toDigits]

theorem readNat_zeroPad (d k : Nat) : readNat (zeroPad d k) = some k := by
  have hne : zeroPad d k ≠ [] := by
    rw [zeroPad_natCast]
    exact fun hnil => Nat.toDigits_ne_nil (List.append_eq_nil_iff.mp hnil).2
  rw [readNat_of_digits hne (all_isDigit_zeroPad d k), decimalValue_zeroPad]

/-! ## Decimals -/

theorem not_mem_of_digits {c : Char} {s : List Char} (h : s.all Char.isDigit = true)
    (hc : c.isDigit = false) : c ∉ s := by
  intro hmem
  rw [List.all_eq_true.mp h c hmem] at hc
  cases hc

theorem readUnsigned_unsigned (d k : Nat) :
    readUnsigned (unsigned d k) = some (k / 10 ^ d : ℚ) := by
  have hdot : ∀ j, '.' ∉ Nat.toDigits 10 j := fun j =>
    not_mem_of_digits (all_isDigit_toDigits j) (by decide)
  by_cases hd : d = 0
  · subst hd
    rw [unsigned, if_pos rfl, List.append_nil, readUnsigned, splitOnce_eq_none (hdot _)]
    simp
  · have hpow : (10 ^ d : ℚ) ≠ 0 := by positivity
    have hmod : k % 10 ^ d < 10 ^ d := Nat.mod_lt _ (Nat.pow_pos (by omega))
    have hsplit : splitOnce ['.']
        (Nat.toDigits 10 (k / 10 ^ d) ++ ['.'] ++ zeroPad d (k % 10 ^ d : Nat)) =
          some (Nat.toDigits 10 (k / 10 ^ d), zeroPad d (k % 10 ^ d : Nat)) :=
      splitOnce_append (hdot (k / 10 ^ d))
    have hvalue : ((k / 10 ^ d : Nat) : ℚ) + (k % 10 ^ d : Nat) / 10 ^ d = k / 10 ^ d := by
      have hdiv : ((10 ^ d * (k / 10 ^ d) + k % 10 ^ d : Nat) : ℚ) = k := by
        rw [Nat.div_add_mod]
      rw [← hdiv]
      push_cast
      field_simp
    rw [List.append_assoc, List.singleton_append] at hsplit
    rw [unsigned, if_neg hd, readUnsigned, hsplit]
    simp only [readNat_toDigits, readNat_zeroPad, length_zeroPad (by omega) hmod]
    exact congrArg some hvalue

theorem readDecimal_of_digit {c : Char} (h : c.isDigit = true) (s : List Char) :
    readDecimal (c :: s) = readUnsigned (c :: s) := by
  unfold readDecimal
  split
  next heq =>
    cases heq
    cases h
  next heq =>
    cases heq
    cases h
  next => rfl

theorem unsigned_eq_cons (d k : Nat) : ∃ c s, unsigned d k = c :: s ∧ c.isDigit = true := by
  obtain ⟨c, s, hcons⟩ := List.exists_cons_of_ne_nil (Nat.toDigits_ne_nil (b := 10)
    (n := k / 10 ^ d))
  have hdigit : c.isDigit = true := by
    apply List.all_eq_true.mp (all_isDigit_toDigits (k / 10 ^ d))
    rw [hcons]
    exact List.mem_cons_self
  refine ⟨c, s ++ if d = 0 then [] else '.' :: zeroPad d (k % 10 ^ d : Nat), ?_, hdigit⟩
  rw [unsigned, hcons]
  rfl

theorem readDecimal_unsigned (d k : Nat) : readDecimal (unsigned d k) = some (k / 10 ^ d : ℚ) := by
  obtain ⟨c, s, hcons, hdigit⟩ := unsigned_eq_cons d k
  rw [hcons, readDecimal_of_digit hdigit, ← hcons, readUnsigned_unsigned]

theorem units_of_nonneg {x : ℚ} (h : 0 ≤ x) (d : Nat) :
    ((roundEven (|x| * 10 ^ d)).toNat : ℚ) / 10 ^ d = toDecimals d x := by
  have hpos : 0 ≤ roundEven (x * 10 ^ d) := roundEven_nonneg (by positivity)
  have hcast : (((roundEven (x * 10 ^ d)).toNat : ℤ) : ℚ) = (roundEven (x * 10 ^ d) : ℚ) := by
    rw [Int.toNat_of_nonneg hpos]
  rw [abs_of_nonneg h, toDecimals, ← hcast]
  rfl

@[simp] theorem readDecimal_fixed (d : Nat) (x : ℚ) :
    readDecimal (fixed d x) = some (toDecimals d x) := by
  by_cases hx : x < 0
  · have hunits := units_of_nonneg (neg_nonneg.mpr hx.le) d
    rw [abs_neg] at hunits
    rw [fixed, if_pos hx, List.singleton_append, readDecimal, readUnsigned_unsigned, hunits,
      toDecimals_neg, Option.map_some, neg_neg]
  · rw [fixed, if_neg hx, List.nil_append, readDecimal_unsigned, units_of_nonneg (not_lt.mp hx)]

@[simp] theorem readDecimal_f2 (x : ℚ) : readDecimal (f2 x) = some (toDecimals 2 x) :=
  readDecimal_fixed 2 x

@[simp] theorem readDecimal_signed2 (x : ℚ) :
    readDecimal (signed2 x) = some (toDecimals 2 x) := by
  by_cases hx : x < 0
  · rw [signed2, if_pos hx, List.nil_append, readDecimal_fixed]
  · rw [signed2, if_neg hx, fixed, if_neg hx, List.nil_append, List.singleton_append, readDecimal,
      readUnsigned_unsigned, units_of_nonneg (not_lt.mp hx)]

@[simp] theorem readPercent_pc (x : ℚ) : readPercent (pc x) = some (toDecimals 1 x) := by
  rw [readPercent, pc, stripSuffix_append, Option.bind_some, readDecimal_fixed]

/-! ## What numbers are written with -/

theorem isWhitespace_of_isDigit {c : Char} (h : c.isDigit = true) : isWhitespace c = false := by
  have hrange : 48 ≤ c.toNat ∧ c.toNat ≤ 57 := Char.isDigit_iff_toNat.mp h
  simp only [isWhitespace, Bool.or_eq_false_iff, Bool.and_eq_false_iff, decide_eq_false_iff_not]
  omega

theorem isWhitespace_of_digits {s : List Char} (h : s.all Char.isDigit = true) {c : Char}
    (hc : c ∈ s) : isWhitespace c = false :=
  isWhitespace_of_isDigit (List.all_eq_true.mp h c hc)

theorem isWhitespace_unsigned {c : Char} (h : c ∈ unsigned d k) : isWhitespace c = false := by
  rcases List.mem_append.mp h with hwhole | hfraction
  · exact isWhitespace_of_digits (all_isDigit_toDigits _) hwhole
  · split at hfraction
    next => cases hfraction
    next =>
      rcases List.mem_cons.mp hfraction with rfl | hdigit
      · rfl
      · exact isWhitespace_of_digits (all_isDigit_zeroPad _ _) hdigit

theorem isWhitespace_fixed {x : ℚ} {c : Char} (h : c ∈ fixed d x) : isWhitespace c = false := by
  rcases List.mem_append.mp h with hsign | hunsigned
  · split at hsign
    next =>
      rw [List.mem_singleton.mp hsign]
      rfl
    next => cases hsign
  · exact isWhitespace_unsigned hunsigned

theorem fixed_ne_nil (d : Nat) (x : ℚ) : fixed d x ≠ [] := by
  obtain ⟨c, s, hcons, -⟩ := unsigned_eq_cons d (roundEven (|x| * 10 ^ d)).toNat
  rw [fixed, hcons]
  exact List.append_ne_nil_of_right_ne_nil _ (List.cons_ne_nil c s)

end FeedBench.Report
