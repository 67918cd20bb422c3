import FeedBench.Text
import Mathlib.Data.List.DropRight

/-!
# Pieces of text

Splitting at a character is `List.splitOn`, the first match of a separator is found behind
text it cannot start in, decimal digits are parsed back, and what is trimmed is whitespace.
-/

namespace FeedBench.Text

/-! ## Split at every match -/

theorem isPrefixOf_singleton (c d : Char) (s : List Char) :
    [c].isPrefixOf (d :: s) = (d == c) := by
  rw [List.isPrefixOf, List.isPrefixOf, Bool.and_true, Bool.beq_comm]

theorem modifyHead_nil_append (pieces : List (List Char)) :
    pieces.modifyHead ([] ++ ·) = pieces := by
  cases pieces with
  | nil => rfl
  | cons piece pieces => rfl

theorem splitFrom_singleton (c : Char) (piece s : List Char) :
    splitFrom [c] 0 piece s = (s.splitOn c).modifyHead (piece ++ ·) := by
  induction s generalizing piece with
  | nil => simp [splitFrom]
  | cons d s ih =>
      have hnext : splitFrom [c] 0 [] s = s.splitOn c := by
        rw [ih, modifyHead_nil_append]
      rw [splitFrom, isPrefixOf_singleton, List.splitOn_cons_eq_if_modifyHead]
      by_cases hd : (d == c) = true
      · rw [if_pos hd, if_pos hd, List.modifyHead_cons, List.append_nil]
        exact congrArg (piece :: ·) hnext
      · rw [if_neg hd, if_neg hd, ih, List.modifyHead_modifyHead]
        congr 1
        funext x
        exact List.append_assoc piece [d] x

theorem split_singleton (c : Char) (s : List Char) : split [c] s = s.splitOn c := by
  rw [split, splitFrom_singleton, modifyHead_nil_append]

theorem split_ne_nil (c : Char) (s : List Char) : split [c] s ≠ [] := by
  rw [split_singleton]
  exact List.splitOn_ne_nil c s

theorem splitOn_flatMap_append {A : Type*} [BEq A] [LawfulBEq A] {c : A} {lines : List (List A)}
    (h : ∀ line ∈ lines, c ∉ line) (s : List A) :
    ((lines.flatMap fun line => line ++ [c]) ++ s).splitOn c = lines ++ s.splitOn c := by
  induction lines with
  | nil => rfl
  | cons line lines ih =>
      have hline : c ∉ line := h line List.mem_cons_self
      rw [List.flatMap_cons, List.append_assoc, List.append_assoc, List.singleton_append,
        List.splitOn_append_cons_self_of_not_mem hline,
        ih fun line' hmem => h line' (List.mem_cons_of_mem line hmem)]
      rfl

variable {x c : Char} {pre s sep : List Char}

theorem splitFrom_skip {piece : List Char} (t : List Char) :
    splitFrom sep t.length piece (t ++ s) = splitFrom sep 0 piece s := by
  induction t with
  | nil => rfl
  | cons c t ih => exact ih

theorem splitFrom_append {piece : List Char} (h : x ∉ pre) :
    splitFrom (x :: sep) 0 piece (pre ++ (x :: sep) ++ s) =
      (piece ++ pre) :: splitFrom (x :: sep) 0 [] s := by
  induction pre generalizing piece with
  | nil =>
      have hpre : (x :: sep).isPrefixOf (x :: (sep ++ s)) = true :=
        List.isPrefixOf_iff_prefix.mpr (List.prefix_append (x :: sep) s)
      rw [List.nil_append, List.cons_append, splitFrom, if_pos hpre, List.append_nil]
      exact congrArg (piece :: ·) (splitFrom_skip sep)
  | cons c pre ih =>
      have hc : x ≠ c := fun heq => h (heq ▸ List.mem_cons_self)
      have hnot : ¬(x :: sep).isPrefixOf (c :: (pre ++ (x :: sep) ++ s)) := by
        rw [List.isPrefixOf_iff_prefix]
        exact fun hpre => hc (List.cons_prefix_cons.mp hpre).1
      rw [List.cons_append, List.cons_append, splitFrom, if_neg hnot,
        ih fun hmem => h (List.mem_cons_of_mem c hmem), List.append_assoc]
      rfl

theorem split_flatMap_append {lines : List (List Char)} (h : ∀ line ∈ lines, x ∉ line) :
    split (x :: sep) ((lines.flatMap fun line => line ++ (x :: sep)) ++ s) =
      lines ++ split (x :: sep) s := by
  induction lines with
  | nil => rfl
  | cons line lines ih =>
      rw [List.flatMap_cons, List.append_assoc, split, splitFrom_append (h line List.mem_cons_self)]
      exact congrArg (line :: ·) (ih fun line' hmem => h line' (List.mem_cons_of_mem line hmem))

/-! ## Split once -/

theorem splitOnce_append (h : x ∉ pre) :
    splitOnce (x :: sep) (pre ++ (x :: sep) ++ s) = some (pre, s) := by
  induction pre with
  | nil =>
      have hpre : (x :: sep).isPrefixOf (x :: sep ++ s) = true :=
        List.isPrefixOf_iff_prefix.mpr (List.prefix_append _ _)
      rw [List.nil_append, List.cons_append, splitOnce, ← List.cons_append, if_pos hpre,
        List.drop_left]
  | cons d pre ih =>
      have hd : x ≠ d := fun heq => h (heq ▸ List.mem_cons_self)
      have hnot : ¬(x :: sep).isPrefixOf (d :: (pre ++ (x :: sep) ++ s)) := by
        rw [List.isPrefixOf_iff_prefix]
        exact fun hpre => hd (List.cons_prefix_cons.mp hpre).1
      rw [List.cons_append, List.cons_append, splitOnce, if_neg hnot,
        ih fun hmem => h (List.mem_cons_of_mem d hmem)]
      rfl

theorem splitOnce_eq_none (h : x ∉ s) : splitOnce [x] s = none := by
  induction s with
  | nil => rfl
  | cons d s ih =>
      have hd : x ≠ d := fun heq => h (heq ▸ List.mem_cons_self)
      have hnot : ¬[x].isPrefixOf (d :: s) := by
        rw [List.isPrefixOf_iff_prefix]
        exact fun hpre => hd (List.cons_prefix_cons.mp hpre).1
      rw [splitOnce, if_neg hnot, ih fun hmem => h (List.mem_cons_of_mem d hmem)]
      rfl

theorem rsplitOnce_append (h : c ∉ s) : rsplitOnce c (pre ++ c :: s) = some (pre, s) := by
  have hreverse : (pre ++ c :: s).reverse = s.reverse ++ [c] ++ pre.reverse := by
    rw [List.reverse_append, List.reverse_cons]
  have hmem : c ∉ s.reverse := fun hmem => h (List.mem_reverse.mp hmem)
  rw [rsplitOnce, hreverse, splitOnce_append hmem, Option.map_some]
  simp only [List.reverse_reverse]

theorem rsplitOnce_eq_none (h : c ∉ s) : rsplitOnce c s = none := by
  have hmem : c ∉ s.reverse := fun hmem => h (List.mem_reverse.mp hmem)
  rw [rsplitOnce, splitOnce_eq_none hmem, Option.map_none]

theorem fst_rsplitOnce_subset {before after : List Char}
    (h : rsplitOnce c s = some (before, after)) : before ⊆ s := by
  obtain ⟨⟨last, front⟩, hsplit, heq⟩ := Option.map_eq_some_iff.mp h
  cases heq
  intro d hmem
  rw [← List.mem_reverse, splitOnce_eq_append hsplit]
  exact List.mem_append_right _ (List.mem_reverse.mp hmem)

/-! ## Prefixes and suffixes -/

@[simp] theorem stripPrefix_append (t s : List Char) : stripPrefix t (t ++ s) = some s := by
  rw [stripPrefix, if_pos (List.isPrefixOf_iff_prefix.mpr (List.prefix_append t s)),
    List.drop_left]

@[simp] theorem stripPrefix_singleton_cons (c : Char) (s : List Char) :
    stripPrefix [c] (c :: s) = some s := stripPrefix_append [c] s

@[simp] theorem stripSuffix_append (t s : List Char) : stripSuffix t (s ++ t) = some s := by
  rw [stripSuffix, if_pos (List.isSuffixOf_iff_suffix.mpr (List.suffix_append s t)),
    List.length_append, Nat.add_sub_cancel, List.take_left]

/-! ## Decimal digits -/

theorem decimalValue_eq (digits : List Char) :
    decimalValue digits = Nat.ofDigitChars 10 digits 0 := by
  rw [Nat.ofDigitChars_eq_foldl, decimalValue]
  congr 1
  funext n c
  rw [Nat.mul_comm]

theorem toList_toString (k : Nat) : (toString k).toList = Nat.toDigits 10 k := by
  rw [Nat.toString_eq_ofList_toDigits, String.toList_ofList]

theorem isDigit_of_mem_toString {k : Nat} (h : c ∈ (toString k).toList) : c.isDigit = true := by
  rw [toList_toString] at h
  exact Nat.isDigit_of_mem_toDigits (by omega) (by omega) h

theorem toString_ne_nil (k : Nat) : (toString k).toList ≠ [] := by
  rw [toList_toString]
  exact Nat.toDigits_ne_nil

theorem not_mem_toString {k : Nat} (h : c.isDigit = false) : c ∉ (toString k).toList := by
  intro hmem
  rw [isDigit_of_mem_toString hmem] at h
  cases h

theorem parseUnsigned_toString {bound k : Nat} (h : k < bound) :
    parseUnsigned bound (toString k).toList = some k := by
  have hplus : (toString k).toList.head? ≠ some '+' := by
    intro hhead
    exact not_mem_toString (by decide) (List.mem_of_mem_head? hhead)
  have hvalue : decimalValue (toString k).toList = k := by
    rw [decimalValue_eq, toList_toString]
    exact Nat.ofDigitChars_ten_toDigits
  have hdigits : (toString k).toList.all Char.isDigit = true :=
    List.all_eq_true.mpr fun c => isDigit_of_mem_toString
  rw [parseUnsigned, if_neg hplus, hvalue, if_pos ⟨toString_ne_nil k, hdigits, h⟩]

theorem parseUnsigned_eq_none {bound : Nat} (h : c ∈ s) (hplus : c ≠ '+')
    (hdigit : c.isDigit = false) : parseUnsigned bound s = none := by
  have hmem : c ∈ if s.head? = some '+' then s.tail else s := by
    split
    · next hhead =>
      obtain ⟨d, tail, rfl⟩ := List.exists_cons_of_ne_nil (List.ne_nil_of_mem h)
      cases hhead
      exact (List.mem_cons.mp h).resolve_left hplus
    · exact h
  rw [parseUnsigned, if_neg]
  rintro ⟨-, hall, -⟩
  rw [List.all_eq_true.mp hall c hmem] at hdigit
  cases hdigit

/-! ## Whitespace at the ends -/

theorem trimMatches_subset (p : Char → Bool) (s : List Char) : trimMatches p s ⊆ s := by
  intro c hmem
  have hreverse := (List.dropWhile_sublist p).subset (List.mem_reverse.mp hmem)
  exact (List.dropWhile_sublist p).subset (List.mem_reverse.mp hreverse)

theorem trimEnd_eq_rdropWhile (s : List Char) : trimEnd s = s.rdropWhile isWhitespace := rfl

theorem trimEnd_append_trimmed (s : List Char) :
    ∃ w, trimEnd s ++ w = s ∧ ∀ c ∈ w, isWhitespace c = true :=
  ⟨s.rtakeWhile isWhitespace, List.rdropWhile_append_rtakeWhile, fun _ => List.mem_rtakeWhile_imp⟩

@[simp] theorem trimEnd_trimEnd (s : List Char) : trimEnd (trimEnd s) = trimEnd s :=
  List.rdropWhile_idempotent isWhitespace s

theorem trimEnd_append (s t : List Char) :
    trimEnd (s ++ t) = if (trimEnd t).isEmpty then trimEnd s else s ++ trimEnd t := by
  unfold trimEnd
  rw [List.reverse_append, List.dropWhile_append, List.isEmpty_reverse]
  split
  · rfl
  · rw [List.reverse_append, List.reverse_reverse]

theorem trimEnd_append_of_whitespace {s w : List Char} (hw : ∀ c ∈ w, isWhitespace c = true) :
    trimEnd (s ++ w) = trimEnd s := by
  have hnil : trimEnd w = [] := List.rdropWhile_eq_nil_iff.mpr hw
  rw [trimEnd_append, hnil]
  rfl

theorem trimEnd_append_of_trimEnd {s t : List Char} (hne : t ≠ []) (ht : trimEnd t = t) :
    trimEnd (s ++ t) = s ++ t := by
  rw [trimEnd_append, ht, if_neg (by simpa using hne)]

theorem prefix_trimEnd {p s : List Char} (h : p <+: s) (hp : trimEnd p = p) : p <+: trimEnd s := by
  obtain ⟨q, rfl⟩ := h
  rw [trimEnd_append]
  split
  · exact ⟨[], by rw [List.append_nil, hp]⟩
  · exact List.prefix_append p (trimEnd q)

theorem trim_append_of_whitespace {s w : List Char} (hw : ∀ c ∈ w, isWhitespace c = true) :
    trim (s ++ w) = trim s := by
  show trimEnd ((s ++ w).dropWhile isWhitespace) = trimEnd (s.dropWhile isWhitespace)
  rw [List.dropWhile_append]
  split
  next hempty =>
    rw [List.isEmpty_iff.mp hempty, List.dropWhile_eq_nil_iff.mpr hw]
  next => exact trimEnd_append_of_whitespace hw

theorem trim_whitespace_append {s w : List Char} (hw : ∀ c ∈ w, isWhitespace c = true) :
    trim (w ++ s) = trim s := by
  rw [trim, trimMatches, List.dropWhile_append_of_pos hw]
  rfl

end FeedBench.Text
