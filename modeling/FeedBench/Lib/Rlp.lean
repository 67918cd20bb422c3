import Mathlib.Data.Nat.Digits.Defs
import Mathlib.Data.List.Infix

/-!
# RLP headers

The front of a recursive-length-prefix item: a small byte stands for itself, a short string
or list says its length in its first byte, and a long one says there how many big-endian
bytes of length follow.  A length need not be written in the shortest way.
-/

namespace FeedBench.Lib.Rlp

/-! ## Numbers -/

def number (bs : List UInt8) : Nat := Nat.ofDigits 256 (bs.reverse.map UInt8.toNat)

theorem number_concat (bs : List UInt8) (b : UInt8) :
    number (bs ++ [b]) = number bs * 256 + b.toNat := by
  rw [number, List.reverse_append, List.reverse_singleton, List.singleton_append, List.map_cons,
    Nat.ofDigits_cons, number]
  omega

theorem number_lt (bs : List UInt8) : number bs < 256 ^ bs.length := by
  have hdigits : ∀ d ∈ bs.reverse.map UInt8.toNat, d < 256 := by
    intro d hd
    obtain ⟨b, -, rfl⟩ := List.mem_map.mp hd
    exact b.toNat_lt
  have hlt := Nat.ofDigits_lt_base_pow_length (by decide) hdigits
  rwa [List.length_map, List.length_reverse] at hlt

/-! ## Headers -/

inductive Header where
  /-- A byte that is an item of its own. -/
  | byte (b : UInt8) (small : b.toNat < 0x80)
  | short (list : Bool) (len : Nat) (few : len ≤ 55)
  | long (list : Bool) (lenBytes : List UInt8) (filled : 1 ≤ lenBytes.length)
      (few : lenBytes.length ≤ 8)

namespace Header

def tag : Bool → Nat
  | false => 0x80
  | true => 0xC0

def bytes : Header → List UInt8
  | byte b _ => [b]
  | short list len _ => [UInt8.ofNat (tag list + len)]
  | long list lenBytes _ _ => UInt8.ofNat (tag list + 55 + lenBytes.length) :: lenBytes

def payload : Header → Nat
  | byte .. => 0
  | short _ len _ => len
  | long _ lenBytes _ _ => number lenBytes

def isList : Header → Bool
  | byte .. => false
  | short list .. | long list .. => list

def itemLen (h : Header) : Nat := h.bytes.length + h.payload

@[simp] theorem tag_false : tag false = 0x80 := rfl

@[simp] theorem tag_true : tag true = 0xC0 := rfl

theorem toNat_tag_add (list : Bool) {k : Nat} (hk : k < 64) :
    (UInt8.ofNat (tag list + k)).toNat = tag list + k := by
  rw [UInt8.toNat_ofNat', Nat.mod_eq_of_lt]
  cases list with
  | false =>
      rw [tag_false]
      omega
  | true =>
      rw [tag_true]
      omega

theorem itemLen_long (list : Bool) (lenBytes : List UInt8) (filled few) :
    (long list lenBytes filled few).itemLen = 1 + lenBytes.length + number lenBytes := by
  rw [itemLen, bytes, List.length_cons, payload, Nat.add_comm 1]

theorem bytes_ne_nil (h : Header) : h.bytes ≠ [] := by
  cases h <;> exact List.cons_ne_nil _ _

theorem isList_iff {h : Header} {b : UInt8} {rest : List UInt8} (hbytes : h.bytes = b :: rest) :
    h.isList = true ↔ 0xC0 ≤ b.toNat := by
  cases h with
  | byte b0 small =>
      obtain ⟨rfl, -⟩ := List.cons.inj hbytes
      simp only [isList, Bool.false_eq_true, false_iff]
      omega
  | short list len few =>
      obtain ⟨rfl, -⟩ := List.cons.inj hbytes
      rw [toNat_tag_add list (by omega)]
      cases list with
      | false =>
          simp only [isList, Bool.false_eq_true, false_iff, tag_false]
          omega
      | true =>
          simp only [isList, true_iff, tag_true]
          omega
  | long list lenBytes filled few =>
      obtain ⟨rfl, -⟩ := List.cons.inj hbytes
      rw [Nat.add_assoc, toNat_tag_add list (by omega)]
      cases list with
      | false =>
          simp only [isList, Bool.false_eq_true, false_iff, tag_false]
          omega
      | true =>
          simp only [isList, true_iff, tag_true]
          omega

/-! ## Reading -/

variable {b : UInt8} {rest : List UInt8}

theorem isList_of_prefix {h : Header} (hpre : h.bytes <+: b :: rest) (hb : 0xC0 ≤ b.toNat) :
    h.isList = true := by
  obtain ⟨b', tail, hbytes⟩ := List.exists_cons_of_ne_nil h.bytes_ne_nil
  rw [hbytes] at hpre
  have hfirst : b' = b := (List.cons_prefix_cons.mp hpre).1
  exact (isList_iff hbytes).mpr (hfirst ▸ hb)

theorem exists_short (list : Bool) (h : tag list ≤ b.toNat) (h' : b.toNat ≤ tag list + 55) :
    ∃ header : Header, header.bytes <+: b :: rest := by
  refine ⟨.short list (b.toNat - tag list) (by omega), rest, ?_⟩
  rw [bytes, Nat.add_sub_cancel' h, UInt8.ofNat_toNat, List.singleton_append]

theorem exists_long (list : Bool) (h : tag list + 55 < b.toNat) (h' : b.toNat < tag list + 64)
    (hrest : b.toNat - (tag list + 55) ≤ rest.length) :
    ∃ header : Header, header.bytes <+: b :: rest := by
  have hlen : (rest.take (b.toNat - (tag list + 55))).length = b.toNat - (tag list + 55) := by
    rw [List.length_take, Nat.min_eq_left hrest]
  refine ⟨.long list (rest.take (b.toNat - (tag list + 55))) (by omega) (by omega),
    rest.drop (b.toNat - (tag list + 55)), ?_⟩
  rw [bytes, hlen, Nat.add_sub_cancel' (by omega), UInt8.ofNat_toNat, List.cons_append,
    List.take_append_drop]

end Header

end FeedBench.Lib.Rlp
