import FeedBench.Lib.Selection
import FeedBench.Proofs.OneKey

/-!
# Keys of JSON

`json_keys` makes a key of every string that is the hex of some bytes.  They are the keys of
the hashes and transactions in the message just when no string is the hex of anything else.
-/

namespace FeedBench.WsRaw

open Lib Text Usize WsJson

/-! ## Strings -/

mutual

def leaves : Value → List (List Char)
  | .string text => [text]
  | .array values => leavesAll values
  | .object entries => leavesEntries entries
  | .null | .bool _ | .number _ => []

def leavesAll : List Value → List (List Char)
  | [] => []
  | v :: values => leaves v ++ leavesAll values

def leavesEntries : List (List Char × Value) → List (List Char)
  | [] => []
  | (_, v) :: entries => leaves v ++ leavesEntries entries

end

variable (codec : Codec)

def leafKey (text : List Char) : Option (Hash × UInt32) := keyFromValue codec.toCodec (.string text)

mutual

theorem jsonKeys_eq : ∀ v : Value, jsonKeys codec v = (leaves v).filterMap (leafKey codec)
  | .string text => by
      rw [jsonKeys, leaves, List.filterMap_eq_flatMap_toList]
      exact (List.flatMap_singleton ..).symm
  | .array values => by rw [jsonKeys, leaves, jsonKeysAll_eq values]
  | .object entries => by rw [jsonKeys, leaves, jsonKeysEntries_eq entries]
  | .null => by rw [jsonKeys, leaves, List.filterMap_nil]
  | .bool _ => by rw [jsonKeys, leaves, List.filterMap_nil]
  | .number _ => by rw [jsonKeys, leaves, List.filterMap_nil]

theorem jsonKeysAll_eq : ∀ values : List Value,
    jsonKeysAll codec values = (leavesAll values).filterMap (leafKey codec)
  | [] => by rw [jsonKeysAll, leavesAll, List.filterMap_nil]
  | v :: values => by
      rw [jsonKeysAll, leavesAll, List.filterMap_append, jsonKeys_eq v, jsonKeysAll_eq values]

theorem jsonKeysEntries_eq : ∀ entries : List (List Char × Value),
    jsonKeysEntries codec entries = (leavesEntries entries).filterMap (leafKey codec)
  | [] => by rw [jsonKeysEntries, leavesEntries, List.filterMap_nil]
  | (_, v) :: entries => by
      rw [jsonKeysEntries, leavesEntries, List.filterMap_append, jsonKeys_eq v,
        jsonKeysEntries_eq entries]

end

/-! ## Hex strings -/

theorem hexValue_lt {c : Char} {n : Nat} (h : hexValue c = some n) : n < 16 := by
  unfold hexValue at h
  split at h
  · next hrange =>
    have h9 : c.toNat ≤ 57 := hrange.2
    have hn : c.toNat - 48 = n := Option.some.inj h
    omega
  · split at h
    · next hrange =>
      have hf : c.toNat ≤ 102 := hrange.2
      have hn : c.toNat - 97 + 10 = n := Option.some.inj h
      omega
    · split at h
      · next hrange =>
        have hF : c.toNat ≤ 70 := hrange.2
        have hn : c.toNat - 65 + 10 = n := Option.some.inj h
        omega
      · cases h

theorem exists_hexText : ∀ {cs : List Char}, (∀ c ∈ cs, isAsciiHexdigit c = true) →
    cs.length % 2 = 0 → ∃ bytes, HexText bytes cs
  | [], _, _ => ⟨[], .nil⟩
  | [_], _, h => by
      rw [List.length_singleton] at h
      cases h
  | hi :: lo :: cs, hdigits, heven => by
      have hcs : cs.length % 2 = 0 := by
        simp only [List.length_cons] at heven
        omega
      obtain ⟨bytes, htail⟩ := exists_hexText
        (fun c hc => hdigits c (List.mem_cons_of_mem _ (List.mem_cons_of_mem _ hc))) hcs
      obtain ⟨m, hm⟩ := Option.isSome_iff_exists.mp (hdigits hi List.mem_cons_self)
      obtain ⟨n, hn⟩ := Option.isSome_iff_exists.mp
        (hdigits lo (List.mem_cons_of_mem _ List.mem_cons_self))
      have hm16 := hexValue_lt hm
      have hn16 := hexValue_lt hn
      have hbyte : (UInt8.ofNat (m * 16 + n)).toNat = m * 16 + n := by
        rw [UInt8.toNat_ofNat']
        omega
      refine ⟨UInt8.ofNat (m * 16 + n) :: bytes, .cons ?_ ?_ htail⟩
      · rw [hm, hbyte]
        congr 1
        omega
      · rw [hn, hbyte]
        congr 1
        omega

theorem exists_trim (s : List Char) : ∃ before after, s = before ++ trim s ++ after ∧
    (∀ c ∈ before, isWhitespace c) ∧ ∀ c ∈ after, isWhitespace c := by
  have hrest : s.dropWhile isWhitespace = trim s ++
      ((s.dropWhile isWhitespace).reverse.takeWhile isWhitespace).reverse := by
    rw [trim, trimMatches, ← List.reverse_append, List.takeWhile_append_dropWhile,
      List.reverse_reverse]
  have hwhite : ∀ t : List Char, ∀ c ∈ t.takeWhile isWhitespace, isWhitespace c :=
    fun t => List.all_eq_true.mp List.all_takeWhile
  refine ⟨s.takeWhile isWhitespace,
    ((s.dropWhile isWhitespace).reverse.takeWhile isWhitespace).reverse, ?_, hwhite s,
    fun c hc => hwhite _ c (List.mem_reverse.mp hc)⟩
  rw [List.append_assoc, ← hrest, List.takeWhile_append_dropWhile]

theorem exists_strip (s : List Char) : ∃ pre ∈ [[], ['0', 'x'], ['0', 'X']],
    s = pre ++ ((stripPrefix ['0', 'x'] s).or (stripPrefix ['0', 'X'] s)).getD s := by
  have hstrip : ∀ pre : List Char, pre.isPrefixOf s = true → s = pre ++ s.drop pre.length := by
    intro pre hpre
    obtain ⟨rest, rfl⟩ := List.isPrefixOf_iff_prefix.mp hpre
    rw [List.drop_left]
  unfold stripPrefix
  split
  · next hx => exact ⟨['0', 'x'], by simp, hstrip _ hx⟩
  · split
    · next hX => exact ⟨['0', 'X'], by simp, hstrip _ hX⟩
    · exact ⟨[], by simp, rfl⟩

/-- The text is the hex of these bytes, and there is at least one. -/
structure HexOf (text : List Char) (bytes : List UInt8) : Prop where
  spelled : ∃ hex, Spelled hex text ∧ HexText bytes hex
  ne : bytes ≠ []

/-- The bytes are one raw transaction and no more. -/
def OneTx (bytes : List UInt8) : Prop := (txLen wrappingAdd bytes).run = some bytes.length

instance (bytes : List UInt8) : Decidable (OneTx bytes) := by
  unfold OneTx
  infer_instance

/-- The text is a hash, or the hex of one raw transaction with this hash. -/
inductive Denotes (text : List Char) : Hash × UInt32 → Prop
  | hash {bytes} (h : HexOf text bytes) (hlen : bytes.length = 32) :
      Denotes text (⟨bytes.toArray, hlen⟩, 0)
  | transaction {bytes} (h : HexOf text bytes) (hlen : bytes.length ≠ 32) (one : OneTx bytes) :
      Denotes text (codec.keccak256 bytes, UInt32.ofNat bytes.length)

theorem HexOf.read {text : List Char} {bytes : List UInt8} (h : HexOf text bytes) :
    hexBytes (((stripPrefix ['0', 'x'] (trim text)).or
      (stripPrefix ['0', 'X'] (trim text))).getD (trim text)) = some bytes := by
  obtain ⟨⟨hex, ⟨before, pre, after, rfl, hbefore, hafter, hpre⟩, htext⟩, hne⟩ := h
  have hhex : hex ≠ [] := by
    rintro rfl
    cases htext
    exact hne rfl
  rw [trim_spelled htext hhex hbefore hafter hpre, strip_spelled htext hpre]
  exact hexBytes_of_hexText htext

theorem HexOf.unique {text : List Char} {bytes bytes' : List UInt8} (h : HexOf text bytes)
    (h' : HexOf text bytes') : bytes = bytes' := by
  have heq := h.read
  rw [h'.read] at heq
  exact (Option.some.inj heq).symm

/-! ## Keys of strings -/

variable {codec}

theorem leafKey_eq_some {text : List Char} {bytes : List UInt8}
    (hhex : ∀ bytes hex, HexText bytes hex → codec.hexDecode hex = some bytes)
    (h : HexOf text bytes) : leafKey codec text =
      if h : bytes.length = 32 then some (⟨bytes.toArray, h⟩, 0)
      else some (codec.keccak256 bytes, UInt32.ofNat bytes.length) := by
  obtain ⟨⟨hex, hspelled, htext⟩, hne⟩ := h
  exact keyFromValue_spelled (hhex bytes hex htext) htext hne hspelled

/-- Only the hex of some bytes has a key. -/
theorem hexOf_of_leafKey {text : List Char} {key : Hash × UInt32}
    (h : leafKey codec text = some key) : ∃ bytes, HexOf text bytes := by
  obtain ⟨before, after, htrim, hbefore, hafter⟩ := exists_trim text
  obtain ⟨pre, hpre, hstrip⟩ := exists_strip (trim text)
  unfold leafKey keyFromValue Value.asStr at h
  simp only [Option.bind_eq_bind, Option.bind_some] at h
  generalize hhexs : ((stripPrefix ['0', 'x'] (trim text)).or
    (stripPrefix ['0', 'X'] (trim text))).getD (trim text) = hexs at h hstrip
  split at h
  · cases h
  · next hgood =>
    simp only [Bool.or_eq_true, decide_eq_true_eq, Bool.not_eq_true', not_or, ne_eq,
      Decidable.not_not, Bool.not_eq_false, List.all_eq_true, List.isEmpty_iff] at hgood
    obtain ⟨⟨hne, heven⟩, hdigits⟩ := hgood
    obtain ⟨bytes, hbytes⟩ := exists_hexText hdigits heven
    refine ⟨bytes, ⟨hexs, ⟨before, pre, after, ?_, hbefore, hafter, hpre⟩, hbytes⟩, ?_⟩
    · rw [← hstrip]
      exact htrim
    · rintro rfl
      exact hne (List.length_eq_zero_iff.mp hbytes.length_eq)

theorem leafKey_of_denotes
    (hhex : ∀ bytes hex, HexText bytes hex → codec.hexDecode hex = some bytes) (text : List Char)
    (key : Hash × UInt32) (h : Denotes codec text key) : leafKey codec text = some key := by
  cases h with
  | hash h hlen => rw [leafKey_eq_some hhex h, dif_pos hlen]
  | transaction h hlen one => rw [leafKey_eq_some hhex h, dif_neg hlen]

/-- The key of a string is that of what it denotes when it is the hex of a hash or of one
transaction. -/
theorem denotes_iff
    (hhex : ∀ bytes hex, HexText bytes hex → codec.hexDecode hex = some bytes)
    (text : List Char) : (∀ key, leafKey codec text = some key → Denotes codec text key) ↔
      ∀ bytes, HexOf text bytes → bytes.length = 32 ∨ OneTx bytes := by
  constructor
  · intro h bytes hbytes
    by_cases hlen : bytes.length = 32
    · exact .inl hlen
    · have hkey := leafKey_eq_some hhex hbytes
      rw [dif_neg hlen] at hkey
      generalize hk : (codec.keccak256 bytes, UInt32.ofNat bytes.length) = key at hkey
      cases h key hkey with
      | hash h' hlen' =>
          rw [h'.unique hbytes] at hlen'
          exact absurd hlen' hlen
      | transaction h' _ one =>
          rw [h'.unique hbytes] at one
          exact .inr one
  · intro h key hkey
    obtain ⟨bytes, hbytes⟩ := hexOf_of_leafKey hkey
    rw [leafKey_eq_some hhex hbytes] at hkey
    split at hkey
    · next hlen =>
      cases hkey
      exact .hash hbytes hlen
    · next hlen =>
      cases hkey
      exact .transaction hbytes hlen ((h bytes hbytes).resolve_left hlen)

/-! ## Keys of a value -/

/-- The keys of the hashes and transactions of a value. -/
def TransactionKeys (codec : Codec) (v : Value) : List (Hash × UInt32) → Prop :=
  Selection (Denotes codec) (leaves v)

/-- The keys of a value are those of its hashes and transactions, up to order, just when each
string in it that is the hex of some bytes is that of a hash or of one transaction. -/
theorem jsonKeys_perm_iff (codec : Codec)
    (hhex : ∀ bytes hex, HexText bytes hex → codec.hexDecode hex = some bytes) (v : Value) :
    (∃ keys, TransactionKeys codec v keys ∧ (jsonKeys codec v).Perm keys) ↔
      ∀ text ∈ leaves v, ∀ bytes, HexOf text bytes → bytes.length = 32 ∨ OneTx bytes := by
  rw [jsonKeys_eq]
  unfold TransactionKeys
  rw [Selection.perm_filterMap_iff (leafKey_of_denotes hhex)]
  simp only [denotes_iff hhex]

def notice : Value :=
  .object [("params".toList, .array [
      .object [("hash".toList, .string (List.replicate 64 '0')),
        ("block".toList, .string "latest".toList)],
      .array [.string "0xC80102030405060708".toList]])]

theorem jsonKeys_perm_notice :
    jsonKeys sampleRaw notice = [(zeroHash, 0), (zeroHash, 9)] ∧
      ∃ keys, TransactionKeys sampleRaw notice keys ∧
        (jsonKeys sampleRaw notice).Perm keys := by
  refine ⟨by decide +kernel, ?_⟩
  refine (jsonKeys_perm_iff sampleRaw (fun _ _ => hexBytes_of_hexText) notice).mpr ?_
  have hread : ∀ text ∈ leaves notice,
      ∀ bytes ∈ hexBytes (((stripPrefix ['0', 'x'] (trim text)).or
        (stripPrefix ['0', 'X'] (trim text))).getD (trim text)),
      bytes.length = 32 ∨ OneTx bytes := by
    decide +kernel
  intro text htext bytes hbytes
  exact hread text htext bytes hbytes.read

def quantity : Value := .object [("value".toList, .string "0x5208".toList)]

theorem hexOf_quantity : HexOf "0x5208".toList [0x52, 0x08] where
  spelled := by
    refine ⟨"5208".toList, ⟨[], ['0', 'x'], [], by decide, by simp, by simp, by simp⟩, ?_⟩
    exact .cons (by decide) (by decide) (.cons (by decide) (by decide) .nil)
  ne := by decide

theorem jsonKeys_quantity : jsonKeys sampleRaw quantity = [(zeroHash, 2)] ∧
    ¬∃ keys, TransactionKeys sampleRaw quantity keys ∧
      (jsonKeys sampleRaw quantity).Perm keys := by
  refine ⟨by decide, ?_⟩
  rintro ⟨keys, hkeys, hperm⟩
  have hhex : ∀ bytes hex, HexText bytes hex → sampleRaw.hexDecode hex = some bytes :=
    fun _ _ => hexBytes_of_hexText
  rw [jsonKeys_eq] at hperm
  have hfound := hkeys.found_selected (leafKey_of_denotes hhex) (Nat.le_of_eq hperm.length_eq)
  have hleaf := (denotes_iff hhex "0x5208".toList).mp
    (hfound _ List.mem_cons_self) _ hexOf_quantity
  revert hleaf
  decide

end FeedBench.WsRaw
