import Mathlib.Algebra.GroupWithZero.Nat
import Mathlib.Data.List.Basic

/-!
# Text

The string functions of the source's standard library that the program's messages and
parsers use, on lists of characters.
-/

namespace FeedBench.Text

/-! ## UTF-8 -/

def continuations (lead : UInt8) : Option (List (UInt8 × UInt8)) :=
  if lead < 0x80 then some []
  else if lead < 0xC2 then none
  else if lead < 0xE0 then some [(0x80, 0xBF)]
  else if lead = 0xE0 then some [(0xA0, 0xBF), (0x80, 0xBF)]
  else if lead = 0xED then some [(0x80, 0x9F), (0x80, 0xBF)]
  else if lead < 0xF0 then some [(0x80, 0xBF), (0x80, 0xBF)]
  else if lead = 0xF0 then some [(0x90, 0xBF), (0x80, 0xBF), (0x80, 0xBF)]
  else if lead < 0xF4 then some [(0x80, 0xBF), (0x80, 0xBF), (0x80, 0xBF)]
  else if lead = 0xF4 then some [(0x80, 0x8F), (0x80, 0xBF), (0x80, 0xBF)]
  else none

def matched : List (UInt8 × UInt8) → List UInt8 → Nat
  | (lo, hi) :: ranges, b :: bytes => if lo ≤ b ∧ b ≤ hi then matched ranges bytes + 1 else 0
  | _, _ => 0

def decodeChar (lead : UInt8) (tail : List UInt8) : Char :=
  let bits := if tail.length = 0 then lead.toNat else lead.toNat % 2 ^ (6 - tail.length)
  Char.ofNat (tail.foldl (fun acc b => acc * 64 + b.toNat % 64) bits)

/-- One character, or `none` for a maximal ill-formed piece, and the bytes after it. -/
def utf8Piece (lead : UInt8) (bytes : List UInt8) : Option Char × List UInt8 :=
  match continuations lead with
  | none => (none, bytes)
  | some ranges =>
      let k := matched ranges bytes
      (if k = ranges.length then some (decodeChar lead (bytes.take k)) else none, bytes.drop k)

theorem utf8Piece_length_le (lead : UInt8) (bytes : List UInt8) :
    (utf8Piece lead bytes).2.length ≤ bytes.length := by
  unfold utf8Piece
  split
  · exact Nat.le_refl _
  · simp

def fromUtf8Lossy : List UInt8 → List Char
  | [] => []
  | lead :: bytes =>
      (utf8Piece lead bytes).1.getD (Char.ofNat 0xFFFD) :: fromUtf8Lossy (utf8Piece lead bytes).2
termination_by bytes => bytes.length
decreasing_by
  have := utf8Piece_length_le lead bytes
  simp only [List.length_cons]
  omega

/-- `str::from_utf8` in the middle of a character: the ranges of the bytes it still needs and
the bits it has so far. -/
def fromUtf8From : List (UInt8 × UInt8) → Nat → List UInt8 → Option (List Char)
  | [], _, [] => some []
  | [], _, lead :: bytes =>
      match continuations lead with
      | none => none
      | some [] => (fromUtf8From [] 0 bytes).map (decodeChar lead [] :: ·)
      | some ranges => fromUtf8From ranges (lead.toNat % 2 ^ (6 - ranges.length)) bytes
  | _ :: _, _, [] => none
  | [(lo, hi)], bits, b :: bytes =>
      if lo ≤ b ∧ b ≤ hi then
        (fromUtf8From [] 0 bytes).map (Char.ofNat (bits * 64 + b.toNat % 64) :: ·)
      else none
  | (lo, hi) :: ranges, bits, b :: bytes =>
      if lo ≤ b ∧ b ≤ hi then fromUtf8From ranges (bits * 64 + b.toNat % 64) bytes else none

def fromUtf8 (bytes : List UInt8) : Option (List Char) := fromUtf8From [] 0 bytes

example : fromUtf8 [0x68, 0xC3, 0xA9, 0xE2, 0x82, 0xAC] = some ['h', 'é', '€'] ∧
    fromUtf8 [0xE2, 0x82] = none := by decide

def asBytes (s : List Char) : List UInt8 := s.flatMap String.utf8EncodeChar

/-! ## Slices of text -/

def isWhitespace (c : Char) : Bool :=
  let n := c.toNat
  (9 ≤ n && n ≤ 13) || n = 32 || n = 0x85 || n = 0xA0 || n = 0x1680 ||
    (0x2000 ≤ n && n ≤ 0x200A) || n = 0x2028 || n = 0x2029 || n = 0x202F || n = 0x205F ||
    n = 0x3000

def trimMatches (p : Char → Bool) (s : List Char) : List Char :=
  ((s.dropWhile p).reverse.dropWhile p).reverse

def trim (s : List Char) : List Char := trimMatches isWhitespace s

theorem dropWhile_append_of_head {p : Char → Bool} {s : List Char} (t : List Char) (hne : s ≠ [])
    (hhead : ∀ c ∈ s.head?, ¬p c) : (s ++ t).dropWhile p = s ++ t := by
  obtain ⟨c, s, rfl⟩ := List.exists_cons_of_ne_nil hne
  exact List.dropWhile_cons_of_neg (hhead c rfl)

theorem trimMatches_append {p : Char → Bool} {before core after : List Char}
    (hbefore : ∀ c ∈ before, p c) (hafter : ∀ c ∈ after, p c) (hhead : ∀ c ∈ core.head?, ¬p c)
    (hlast : ∀ c ∈ core.getLast?, ¬p c) (hne : core ≠ []) :
    trimMatches p (before ++ core ++ after) = core := by
  have hreverse : ∀ c ∈ core.reverse.head?, ¬p c := by
    rw [List.head?_reverse]
    exact hlast
  have hne' : core.reverse ≠ [] := fun h => hne (List.reverse_eq_nil_iff.mp h)
  have hend := dropWhile_append_of_head [] hne' hreverse
  rw [List.append_nil] at hend
  rw [trimMatches, List.append_assoc, List.dropWhile_append_of_pos hbefore,
    dropWhile_append_of_head after hne hhead, List.reverse_append,
    List.dropWhile_append_of_pos fun c h => hafter c (List.mem_reverse.mp h), hend,
    List.reverse_reverse]

theorem trim_append {before core after : List Char} (hbefore : ∀ c ∈ before, isWhitespace c)
    (hafter : ∀ c ∈ after, isWhitespace c) (hhead : ∀ c ∈ core.head?, ¬isWhitespace c)
    (hlast : ∀ c ∈ core.getLast?, ¬isWhitespace c) (hne : core ≠ []) :
    trim (before ++ core ++ after) = core :=
  trimMatches_append hbefore hafter hhead hlast hne

def trimEnd (s : List Char) : List Char := (s.reverse.dropWhile isWhitespace).reverse

def stripPrefix (pre s : List Char) : Option (List Char) :=
  if pre.isPrefixOf s then some (s.drop pre.length) else none

def stripSuffix (suf s : List Char) : Option (List Char) :=
  if suf.isSuffixOf s then some (s.take (s.length - suf.length)) else none

def splitWhitespace (s : List Char) : List (List Char) :=
  (s.splitOnP isWhitespace).filter fun w => !w.isEmpty

def splitOnce (sep : List Char) : List Char → Option (List Char × List Char)
  | [] => if sep.isEmpty then some ([], []) else none
  | c :: s =>
      if sep.isPrefixOf (c :: s) then some ([], (c :: s).drop sep.length)
      else (splitOnce sep s).map fun (before, after) => (c :: before, after)

def contains (sub s : List Char) : Bool := (splitOnce sub s).isSome

theorem splitOnce_eq_append {sep s before after : List Char}
    (h : splitOnce sep s = some (before, after)) : s = before ++ sep ++ after := by
  induction s generalizing before with
  | nil =>
      rw [splitOnce] at h
      split at h
      next hsep =>
        cases h
        rw [List.isEmpty_iff.mp hsep]
        rfl
      next => cases h
  | cons c s ih =>
      rw [splitOnce] at h
      split at h
      next hpre =>
        cases h
        exact (List.prefix_iff_eq_append.mp (List.isPrefixOf_iff_prefix.mp hpre)).symm
      next =>
        obtain ⟨⟨before', after'⟩, hrest, heq⟩ := Option.map_eq_some_iff.mp h
        cases heq
        rw [ih hrest]
        rfl

/-- `str::rsplit_once`: around the last match of a character. -/
def rsplitOnce (sep : Char) (s : List Char) : Option (List Char × List Char) :=
  (splitOnce [sep] s.reverse).map fun (after, before) => (before.reverse, after.reverse)

/-- The pieces of `str::split`, with the piece begun and how much of a match is left to skip. -/
def splitFrom (sep : List Char) : Nat → List Char → List Char → List (List Char)
  | _, piece, [] => [piece]
  | skip + 1, piece, _ :: s => splitFrom sep skip piece s
  | 0, piece, c :: s =>
      if sep.isPrefixOf (c :: s) then piece :: splitFrom sep (sep.length - 1) [] s
      else splitFrom sep 0 (piece ++ [c]) s

def split (sep s : List Char) : List (List Char) := splitFrom sep 0 [] s

example : split "\r\n".toList "a\r\n\r\nb".toList = ["a".toList, [], "b".toList] ∧
    rsplitOnce ':' "[::1]:80".toList = some ("[::1]".toList, "80".toList) := by decide

def toAsciiLowercase (s : List Char) : List Char := s.map Char.toLower

def eqIgnoreAsciiCase (s t : List Char) : Bool := toAsciiLowercase s == toAsciiLowercase t

def decimalValue (digits : List Char) : Nat :=
  digits.foldl (fun n c => n * 10 + (c.toNat - '0'.toNat)) 0

/-- `str::parse` to an unsigned integer below `bound`. -/
def parseUnsigned (bound : Nat) (s : List Char) : Option Nat :=
  let digits := if s.head? = some '+' then s.tail else s
  if digits ≠ [] ∧ digits.all Char.isDigit ∧ decimalValue digits < bound then
    some (decimalValue digits)
  else none

example : parseUnsigned 65536 "+443".toList = some 443 ∧ parseUnsigned 65536 "65536".toList = none ∧
    parseUnsigned 65536 "+".toList = none := by decide

theorem toString_inj {k l : Nat} : toString k = toString l ↔ k = l := by
  constructor
  · intro h
    have hdigits : Nat.toDigits 10 k = Nat.toDigits 10 l := by
      rw [← Nat.toList_repr, ← Nat.toList_repr]
      exact congrArg String.toList h
    calc
      k = Nat.ofDigitChars 10 (Nat.toDigits 10 k) 0 :=
        (Nat.ofDigitChars_toDigits (by omega) (by omega)).symm
      _ = Nat.ofDigitChars 10 (Nat.toDigits 10 l) 0 := by rw [hdigits]
      _ = l := Nat.ofDigitChars_toDigits (by omega) (by omega)
  · intro h
    rw [h]

/-! ## Hexadecimal digits -/

def hexValue (c : Char) : Option Nat :=
  if '0' ≤ c ∧ c ≤ '9' then some (c.toNat - '0'.toNat)
  else if 'a' ≤ c ∧ c ≤ 'f' then some (c.toNat - 'a'.toNat + 10)
  else if 'A' ≤ c ∧ c ≤ 'F' then some (c.toNat - 'A'.toNat + 10)
  else none

def isAsciiHexdigit (c : Char) : Bool := (hexValue c).isSome

/-- Two hexadecimal digits for each byte, in either case. -/
inductive HexText : List UInt8 → List Char → Prop where
  | nil : HexText [] []
  | cons {b bs hi lo cs} (hhi : hexValue hi = some (b.toNat / 16))
      (hlo : hexValue lo = some (b.toNat % 16)) (h : HexText bs cs) :
      HexText (b :: bs) (hi :: lo :: cs)

theorem HexText.all_digits {bs : List UInt8} {cs : List Char} (h : HexText bs cs) :
    ∀ c ∈ cs, isAsciiHexdigit c = true := by
  induction h with
  | nil => exact fun _ h => absurd h List.not_mem_nil
  | cons hhi hlo _ ih =>
      intro c hc
      rcases List.mem_cons.mp hc with rfl | hc
      · rw [isAsciiHexdigit, hhi]
        rfl
      rcases List.mem_cons.mp hc with rfl | hc
      · rw [isAsciiHexdigit, hlo]
        rfl
      · exact ih c hc

theorem HexText.length_eq {bs : List UInt8} {cs : List Char} (h : HexText bs cs) :
    cs.length = 2 * bs.length := by
  induction h with
  | nil => rfl
  | cons _ _ _ ih =>
      rw [List.length_cons, List.length_cons, List.length_cons, ih]
      omega

theorem hexdigit_range {c : Char} (h : isAsciiHexdigit c = true) :
    (48 ≤ c.toNat ∧ c.toNat ≤ 57) ∨ (65 ≤ c.toNat ∧ c.toNat ≤ 70) ∨
      (97 ≤ c.toNat ∧ c.toNat ≤ 102) := by
  unfold isAsciiHexdigit hexValue at h
  split at h
  · next hc => exact .inl hc
  · split at h
    · next hc => exact .inr (.inr hc)
    · split at h
      · next hc => exact .inr (.inl hc)
      · cases h

theorem isWhitespace_of_hexdigit {c : Char} (h : isAsciiHexdigit c = true) :
    isWhitespace c = false := by
  have hrange := hexdigit_range h
  simp only [isWhitespace, Bool.or_eq_false_iff, Bool.and_eq_false_iff, decide_eq_false_iff_not]
  omega

/-! ## Durations -/

def fractionDigits : Nat → Nat → Nat → String
  | 0, _, _ => ""
  | digits + 1, part, divisor =>
      if part = 0 then ""
      else toString (part / divisor) ++ fractionDigits digits (part % divisor) (divisor / 10)

def decimal (whole part divisor : Nat) (suffix : String) : String :=
  toString whole ++ (if part = 0 then "" else "." ++ fractionDigits 9 part divisor) ++ suffix

/-- `{:?}` of a duration in nanoseconds. -/
def durationDebug (d : Nat) : String :=
  if 10 ^ 9 ≤ d then decimal (d / 10 ^ 9) (d % 10 ^ 9) (10 ^ 8) "s"
  else if 10 ^ 6 ≤ d then decimal (d / 10 ^ 6) (d % 10 ^ 6) (10 ^ 5) "ms"
  else if 10 ^ 3 ≤ d then decimal (d / 10 ^ 3) (d % 10 ^ 3) (10 ^ 2) "µs"
  else decimal d 0 1 "ns"

example : durationDebug 60000000000 = "60s" ∧ durationDebug 1500000 = "1.5ms" := by decide

end FeedBench.Text
