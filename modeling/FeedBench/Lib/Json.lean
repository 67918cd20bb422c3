import Mathlib.Data.List.Basic

/-!
# JSON texts

The grammar of JSON on characters, and the first characters of an array or object.

* `Json.Container.front`: the first two characters of a text that is an array or an object.
-/

namespace FeedBench.Lib.Json

/-! ## The grammar -/

def whitespace : List Char := [' ', '\t', '\n', '\r']

def digits : List Char := ['0', '1', '2', '3', '4', '5', '6', '7', '8', '9']

def hexDigits : List Char := digits ++
  ['a', 'b', 'c', 'd', 'e', 'f', 'A', 'B', 'C', 'D', 'E', 'F']

def Whitespace (s : List Char) : Prop := ∀ c ∈ s, c ∈ whitespace

def Digits (s : List Char) : Prop := s ≠ [] ∧ ∀ c ∈ s, c ∈ digits

def Integer (s : List Char) : Prop := Digits s ∧ (s.head? = some '0' → s = ['0'])

inductive Fraction : List Char → Prop
  | none : Fraction []
  | some {s} (h : Digits s) : Fraction ('.' :: s)

inductive Exponent : List Char → Prop
  | none : Exponent []
  | some {e sign s} (he : e ∈ ['e', 'E']) (hsign : sign ∈ [[], ['+'], ['-']]) (h : Digits s) :
      Exponent (e :: sign ++ s)

inductive Number : List Char → Prop
  | mk {sign int frac exp} (hsign : sign ∈ [[], ['-']]) (hint : Integer int)
      (hfrac : Fraction frac) (hexp : Exponent exp) : Number (sign ++ int ++ frac ++ exp)

inductive Chars : List Char → Prop
  | nil : Chars []
  | plain {c s} (h : 0x20 ≤ c.toNat) (hquote : c ≠ '"') (hslash : c ≠ '\\') (tail : Chars s) :
      Chars (c :: s)
  | escape {c s} (h : c ∈ ['"', '\\', '/', 'b', 'f', 'n', 'r', 't']) (tail : Chars s) :
      Chars ('\\' :: c :: s)
  | unicode {hex s} (hlen : hex.length = 4) (hhex : ∀ c ∈ hex, c ∈ hexDigits) (tail : Chars s) :
      Chars ('\\' :: 'u' :: hex ++ s)

inductive Str : List Char → Prop
  | mk {s} (h : Chars s) : Str ('"' :: s ++ ['"'])

mutual

inductive Value : List Char → Prop
  | null : Value "null".toList
  | true : Value "true".toList
  | false : Value "false".toList
  | number {s} (h : Number s) : Value s
  | string {s} (h : Str s) : Value s
  | array {s} (h : Array s) : Value s
  | object {s} (h : Object s) : Value s

inductive Array : List Char → Prop
  | empty {w} (hw : Whitespace w) : Array ('[' :: w ++ [']'])
  | elements {s} (h : Elements s) : Array ('[' :: s ++ [']'])

inductive Elements : List Char → Prop
  | one {w s w'} (hw : Whitespace w) (h : Value s) (hw' : Whitespace w') : Elements (w ++ s ++ w')
  | cons {w s w' more} (hw : Whitespace w) (h : Value s) (hw' : Whitespace w')
      (tail : Elements more) : Elements (w ++ s ++ w' ++ ',' :: more)

inductive Object : List Char → Prop
  | empty {w} (hw : Whitespace w) : Object ('{' :: w ++ ['}'])
  | members {s} (h : Members s) : Object ('{' :: s ++ ['}'])

inductive Members : List Char → Prop
  | one {w k w' v s v'} (hw : Whitespace w) (hk : Str k) (hw' : Whitespace w')
      (hv : Whitespace v) (h : Value s) (hv' : Whitespace v') :
      Members (w ++ k ++ w' ++ ':' :: (v ++ s ++ v'))
  | cons {w k w' v s v' more} (hw : Whitespace w) (hk : Str k) (hw' : Whitespace w')
      (hv : Whitespace v) (h : Value s) (hv' : Whitespace v') (tail : Members more) :
      Members (w ++ k ++ w' ++ ':' :: (v ++ s ++ v' ++ ',' :: more))

end

/-- An array or an object, with whitespace around it. -/
inductive Container : List Char → Prop
  | array {w s w'} (hw : Whitespace w) (h : Array s) (hw' : Whitespace w') :
      Container (w ++ s ++ w')
  | object {w s w'} (hw : Whitespace w) (h : Object s) (hw' : Whitespace w') :
      Container (w ++ s ++ w')

/-! ## First characters -/

def StartsIn (cs s : List Char) : Prop := ∃ c tail, s = c :: tail ∧ c ∈ cs

def starts : List Char := whitespace ++ digits ++ ['-', '"', '[', ']', '{', '}', 'n', 't', 'f']

variable {s w more : List Char}

theorem StartsIn.append {cs : List Char} (h : StartsIn cs s) : StartsIn cs (s ++ more) := by
  obtain ⟨c, tail, rfl, hc⟩ := h
  exact ⟨c, tail ++ more, rfl, hc⟩

theorem StartsIn.whitespace_append {cs : List Char} (hw : Whitespace w)
    (hcs : ∀ c ∈ whitespace, c ∈ cs) (h : StartsIn cs s) : StartsIn cs (w ++ s) := by
  cases w with
  | nil => exact h
  | cons c w => exact ⟨c, w ++ s, rfl, hcs c (hw c List.mem_cons_self)⟩

theorem Integer.starts (h : Integer s) : StartsIn starts s := by
  obtain ⟨⟨hne, hdigits⟩, -⟩ := h
  obtain ⟨c, tail, rfl⟩ := List.exists_cons_of_ne_nil hne
  refine ⟨c, tail, rfl, ?_⟩
  have hc := hdigits c List.mem_cons_self
  simp only [Json.starts, List.mem_append]
  exact .inl (.inr hc)

theorem Number.starts (h : Number s) : StartsIn starts s := by
  cases h with
  | mk hsign hint hfrac hexp =>
      apply StartsIn.append
      apply StartsIn.append
      simp only [List.mem_cons, List.not_mem_nil, or_false] at hsign
      rcases hsign with rfl | rfl
      · exact hint.starts
      · exact ⟨'-', _, rfl, by decide⟩

theorem Str.starts (h : Str s) : StartsIn starts s := by
  cases h with
  | mk h => exact ⟨'"', _, rfl, by decide⟩

theorem Array.opens (h : Array s) : ∃ tail, s = '[' :: tail := by
  cases h with
  | empty => exact ⟨_, rfl⟩
  | elements => exact ⟨_, rfl⟩

theorem Object.opens (h : Object s) : ∃ tail, s = '{' :: tail := by
  cases h with
  | empty => exact ⟨_, rfl⟩
  | members => exact ⟨_, rfl⟩

theorem Value.starts (h : Value s) : StartsIn starts s := by
  cases h with
  | null => exact ⟨'n', _, rfl, by decide⟩
  | true => exact ⟨'t', _, rfl, by decide⟩
  | false => exact ⟨'f', _, rfl, by decide⟩
  | number h => exact h.starts
  | string h => exact h.starts
  | array h =>
      obtain ⟨tail, rfl⟩ := h.opens
      exact ⟨'[', tail, rfl, by decide⟩
  | object h =>
      obtain ⟨tail, rfl⟩ := h.opens
      exact ⟨'{', tail, rfl, by decide⟩

theorem whitespace_starts : ∀ c ∈ whitespace, c ∈ starts :=
  fun _ h => List.mem_append_left _ (List.mem_append_left _ h)

theorem Elements.starts (h : Elements s) : StartsIn starts s := by
  cases h with
  | one hw h hw' => exact (h.starts.whitespace_append hw whitespace_starts).append
  | cons hw h hw' tail =>
      exact (h.starts.whitespace_append hw whitespace_starts).append.append

theorem Members.starts (h : Members s) : StartsIn starts s := by
  cases h with
  | one hw hk => exact (hk.starts.whitespace_append hw whitespace_starts).append.append
  | cons hw hk => exact (hk.starts.whitespace_append hw whitespace_starts).append.append

theorem Array.second (h : Array s) : ∃ tail, s = '[' :: tail ∧ StartsIn Json.starts tail := by
  cases h with
  | empty hw =>
      refine ⟨_, rfl, StartsIn.whitespace_append hw whitespace_starts ?_⟩
      exact ⟨']', [], rfl, by decide⟩
  | elements h => exact ⟨_, rfl, h.starts.append⟩

theorem Object.second (h : Object s) : ∃ tail, s = '{' :: tail ∧ StartsIn Json.starts tail := by
  cases h with
  | empty hw =>
      refine ⟨_, rfl, StartsIn.whitespace_append hw whitespace_starts ?_⟩
      exact ⟨'}', [], rfl, by decide⟩
  | members h => exact ⟨_, rfl, h.starts.append⟩

theorem Container.front (h : Container s) : ∃ c d tail, s = c :: d :: tail ∧
    c ∈ whitespace ++ ['[', '{'] ∧ d ∈ starts := by
  have hfront : ∀ {w s w' : List Char} {c : Char}, Whitespace w → c ∈ ['[', '{'] →
      (∃ tail, s = c :: tail ∧ StartsIn starts tail) → ∃ c d tail, w ++ s ++ w' = c :: d :: tail ∧
        c ∈ whitespace ++ ['[', '{'] ∧ d ∈ starts := by
    rintro w s w' c hw hc ⟨tail, rfl, d, tail', rfl, hd⟩
    have hbracket : c ∈ starts := by
      simp only [List.mem_cons, List.not_mem_nil, or_false] at hc
      rcases hc with rfl | rfl <;> decide
    match w with
    | [] => exact ⟨c, d, _, rfl, List.mem_append_right _ hc, hd⟩
    | [e] => exact ⟨e, c, _, rfl, List.mem_append_left _ (hw e (by simp)), hbracket⟩
    | e :: e' :: w =>
        exact ⟨e, e', _, rfl, List.mem_append_left _ (hw e (by simp)),
          whitespace_starts e' (hw e' (by simp))⟩
  cases h with
  | array hw h _ => exact hfront hw (by decide) h.second
  | object hw h _ => exact hfront hw (by decide) h.second

end FeedBench.Lib.Json
