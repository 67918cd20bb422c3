import FeedBench.Transaction
import FeedBench.WsRaw.Split

/-!
# Declared lengths

What `rlp_item_len` and `tx_len` compute from a header.  The lengths are exact unless the
header declares 2^64 bytes or more, and then an addition overflows.
-/

namespace FeedBench.Usize

def Exact {m : Type → Type} [Monad m] (add : Nat → Nat → m Nat) : Prop :=
  ∀ {a b}, a + b < 2 ^ 64 → add a b = pure (a + b)

theorem exact_checkedAdd : Exact checkedAdd := checkedAdd_of_lt

theorem exact_wrappingAdd : Exact wrappingAdd := wrappingAdd_of_lt

end FeedBench.Usize

namespace FeedBench.WsRaw

open Lib Usize

/-! ## Length bytes -/

theorem shift_or {acc : Nat} (h : acc * 256 < 2 ^ 64) (x : UInt8) :
    (acc <<< 8) % 2 ^ 64 ||| x.toNat = acc * 256 + x.toNat := by
  have hshift : acc <<< 8 = acc * 256 := Nat.shiftLeft_eq acc 8
  rw [Nat.mod_eq_of_lt (by omega), ← Nat.shiftLeft_add_eq_or_of_lt x.toNat_lt, hshift]

theorem foldl_be (b : List UInt8) (h : b.length ≤ 8) :
    b.foldl (fun acc x => (acc <<< 8) % 2 ^ 64 ||| x.toNat) 0 = Rlp.number b := by
  induction b using List.reverseRecOn with
  | nil => rfl
  | append_singleton b x ih =>
      rw [List.length_append, List.length_singleton] at h
      have hnumber : Rlp.number b < 256 ^ 7 := by
        calc
          Rlp.number b < 256 ^ b.length := Rlp.number_lt b
          _ ≤ 256 ^ 7 := Nat.pow_le_pow_right (by decide) (by omega)
      rw [List.foldl_append, ih (by omega), List.foldl_cons, List.foldl_nil,
        shift_or (by omega), Rlp.number_concat]

theorem be_eq_some {b : List UInt8} (hfilled : 1 ≤ b.length) (hfew : b.length ≤ 8) :
    be b = some (Rlp.number b) := by
  have hne : b.isEmpty = false := by
    cases b with
    | nil => exact absurd hfilled (by decide)
    | cons => rfl
  have hlen : ¬8 < b.length := by omega
  rw [be, foldl_be b hfew, hne]
  simp [hlen]

/-! ## One item -/

section Item

variable {m : Type → Type} [Monad m] [LawfulMonad m] {add : Nat → Nat → m Nat}
  {b : List UInt8}

def addLen (add : Nat → Nat → m Nat) : Rlp.Header → m Nat
  | .byte .. => pure 1
  | .short _ len _ => add 1 len
  | .long _ lenBytes _ _ => add (1 + lenBytes.length) (Rlp.number lenBytes)

theorem longItemLen_eq (hadd : Exact add) {b0 : UInt8} {lenBytes rest : List UInt8}
    (hfilled : 1 ≤ lenBytes.length) (hfew : lenBytes.length ≤ 8) :
    longItemLen add lenBytes.length (b0 :: (lenBytes ++ rest)) =
      some <$> add (1 + lenBytes.length) (Rlp.number lenBytes) := by
  have hslice : slice (b0 :: (lenBytes ++ rest)) 1 (1 + lenBytes.length) = some lenBytes := by
    rw [slice_of_le (by omega)]
    · rw [List.drop_one, List.tail_cons, Nat.add_sub_cancel_left, List.take_left]
    · rw [List.length_cons, List.length_append]
      omega
  rw [longItemLen, hadd (by omega), pure_bind, hslice, Option.bind_some,
    be_eq_some hfilled hfew]
  exact bind_pure_comp some _

theorem longItemLen_short (hadd : Exact add) {b0 : UInt8} {rest : List UInt8} {ll : Nat}
    (hfew : ll ≤ 8) (h : rest.length < ll) : longItemLen add ll (b0 :: rest) = pure none := by
  have hslice : slice (b0 :: rest) 1 (1 + ll) = none := by
    apply slice_eq_none
    rw [List.length_cons]
    omega
  rw [longItemLen, hadd (by omega), pure_bind, hslice, Option.bind_none]

/-! The branches on the first byte. -/

variable {b0 : UInt8} {rest : List UInt8}

omit [LawfulMonad m] in
theorem rlpItemLen_byte (h : b0.toNat ≤ 0x7F) : rlpItemLen add (b0 :: rest) = pure (some 1) := by
  rw [rlpItemLen, if_pos h]

theorem rlpItemLen_string (h : 0x7F < b0.toNat) (h' : b0.toNat ≤ 0xB7) :
    rlpItemLen add (b0 :: rest) = some <$> add 1 (b0.toNat - 0x80) := by
  rw [rlpItemLen, if_neg (by omega), if_pos h']
  exact bind_pure_comp some _

omit [LawfulMonad m] in
theorem rlpItemLen_longString (h : 0xB7 < b0.toNat) (h' : b0.toNat ≤ 0xBF) :
    rlpItemLen add (b0 :: rest) = longItemLen add (b0.toNat - 0xB7) (b0 :: rest) := by
  rw [rlpItemLen, if_neg (by omega), if_neg (by omega), if_pos h']

theorem rlpItemLen_list (h : 0xBF < b0.toNat) (h' : b0.toNat ≤ 0xF7) :
    rlpItemLen add (b0 :: rest) = some <$> add 1 (b0.toNat - 0xC0) := by
  rw [rlpItemLen, if_neg (by omega), if_neg (by omega), if_neg (by omega), if_pos h']
  exact bind_pure_comp some _

omit [LawfulMonad m] in
theorem rlpItemLen_longList (h : 0xF7 < b0.toNat) :
    rlpItemLen add (b0 :: rest) = longItemLen add (b0.toNat - 0xF7) (b0 :: rest) := by
  rw [rlpItemLen, if_neg (by omega), if_neg (by omega), if_neg (by omega), if_neg (by omega)]

theorem rlpItemLen_header (hadd : Exact add) {h : Rlp.Header} (hb : h.bytes <+: b) :
    rlpItemLen add b = some <$> addLen add h := by
  obtain ⟨rest, rfl⟩ := hb
  cases h with
  | byte b0 small =>
      have hsmall : b0.toNat ≤ 0x7F := by omega
      rw [addLen, map_pure]
      exact rlpItemLen_byte hsmall
  | short list len few =>
      have hb0 := Rlp.Header.toNat_tag_add list (by omega : len < 64)
      rw [Rlp.Header.bytes, List.singleton_append, addLen]
      generalize UInt8.ofNat (Rlp.Header.tag list + len) = b0 at hb0
      cases list with
      | false =>
          rw [Rlp.Header.tag_false] at hb0
          rw [rlpItemLen_string (by omega) (by omega), hb0, Nat.add_sub_cancel_left]
      | true =>
          rw [Rlp.Header.tag_true] at hb0
          rw [rlpItemLen_list (by omega) (by omega), hb0, Nat.add_sub_cancel_left]
  | long list lenBytes filled few =>
      have hb0 := Rlp.Header.toNat_tag_add list (by omega : 55 + lenBytes.length < 64)
      rw [Rlp.Header.bytes, List.cons_append, addLen, Nat.add_assoc]
      generalize UInt8.ofNat (Rlp.Header.tag list + (55 + lenBytes.length)) = b0 at hb0
      cases list with
      | false =>
          rw [Rlp.Header.tag_false] at hb0
          have hll : b0.toNat - 0xB7 = lenBytes.length := by omega
          rw [rlpItemLen_longString (by omega) (by omega), hll, longItemLen_eq hadd filled few]
      | true =>
          rw [Rlp.Header.tag_true] at hb0
          have hll : b0.toNat - 0xF7 = lenBytes.length := by omega
          rw [rlpItemLen_longList (by omega), hll, longItemLen_eq hadd filled few]

theorem rlpItemLen_none (hadd : Exact add) (h : ∀ h : Rlp.Header, ¬h.bytes <+: b) :
    rlpItemLen add b = pure none := by
  cases b with
  | nil => rfl
  | cons b0 rest =>
      have hlt := b0.toNat_lt
      have hshort : ∀ list, Rlp.Header.tag list ≤ b0.toNat →
          Rlp.Header.tag list + 55 < b0.toNat := by
        intro list htag
        by_contra hle
        obtain ⟨header, hheader⟩ := Rlp.Header.exists_short list htag (Nat.le_of_not_lt hle)
        exact h header hheader
      have hlong : ∀ list, Rlp.Header.tag list + 55 < b0.toNat →
          b0.toNat < Rlp.Header.tag list + 64 →
          rest.length < b0.toNat - (Rlp.Header.tag list + 55) := by
        intro list htag htag'
        by_contra hle
        obtain ⟨header, hheader⟩ :=
          Rlp.Header.exists_long list htag htag' (Nat.le_of_not_lt hle)
        exact h header hheader
      have hstring := hshort false
      have hlist := hshort true
      have hlongString := hlong false
      have hlongList := hlong true
      rw [Rlp.Header.tag_false] at hstring hlongString
      rw [Rlp.Header.tag_true] at hlist hlongList
      have hbyte : 0x7F < b0.toNat := by
        by_contra hle
        have hsmall : b0.toNat < 0x80 := by omega
        exact h (.byte b0 hsmall) ⟨rest, rfl⟩
      by_cases hkind : b0.toNat ≤ 0xBF
      · rw [rlpItemLen_longString (by omega) hkind]
        exact longItemLen_short hadd (by omega) (hlongString (by omega) (by omega))
      · rw [rlpItemLen_longList (by omega)]
        exact longItemLen_short hadd (by omega) (hlongList (by omega) (by omega))

end Item

/-! ## One transaction -/

section Tx

variable {m : Type → Type} [Monad m] [LawfulMonad m] {add : Nat → Nat → m Nat}
  {b : List UInt8}

def addTxLen (add : Nat → Nat → m Nat) (h : TxHeader) : m Nat :=
  match h.type with
  | none => addLen add h.header
  | some _ => do add 1 (← addLen add h.header)

omit [LawfulMonad m] in
theorem txLen_legacy {b0 : UInt8} {rest : List UInt8} (h : 0xC0 ≤ b0.toNat) :
    txLen add (b0 :: rest) = rlpItemLen add (b0 :: rest) := by
  have hnot : (0x80 : UInt8).toNat ≤ b0.toNat := Nat.le_trans (by decide) h
  have hlow : ¬b0 < 0x80 := UInt8.not_lt.mpr (UInt8.le_iff_toNat_le.mpr hnot)
  have hhigh : 0xC0 ≤ b0 := UInt8.le_iff_toNat_le.mpr h
  rw [txLen.eq_def]
  dsimp only
  rw [if_neg hlow, if_pos hhigh]

theorem txLen_typed {b0 b1 : UInt8} {rest : List UInt8} (h : b0.toNat < 0x80)
    (h' : 0xC0 ≤ b1.toNat) : txLen add (b0 :: b1 :: rest) =
      rlpItemLen add (b1 :: rest) >>= fun o => o.elim (pure none) fun n => some <$> add 1 n := by
  have hlow : b0 < 0x80 := UInt8.lt_iff_toNat_lt.mpr h
  have hlist : ¬b1 < 0xC0 := UInt8.not_lt.mpr (UInt8.le_iff_toNat_le.mpr h')
  rw [txLen, if_pos hlow, if_neg hlist]
  apply bind_congr
  intro o
  cases o with
  | none => rfl
  | some n => exact bind_pure_comp some _

omit [LawfulMonad m] in
theorem txLen_untyped {b0 b1 : UInt8} {rest : List UInt8} (h : b0.toNat < 0x80)
    (h' : b1.toNat < 0xC0) : txLen add (b0 :: b1 :: rest) = pure none := by
  have hlow : b0 < 0x80 := UInt8.lt_iff_toNat_lt.mpr h
  have hother : b1 < 0xC0 := UInt8.lt_iff_toNat_lt.mpr h'
  rw [txLen, if_pos hlow, if_pos hother]

omit [LawfulMonad m] in
theorem txLen_string {b0 : UInt8} {rest : List UInt8} (h : 0x80 ≤ b0.toNat)
    (h' : b0.toNat < 0xC0) : txLen add (b0 :: rest) = pure none := by
  have hlow : ¬b0 < 0x80 := UInt8.not_lt.mpr (UInt8.le_iff_toNat_le.mpr h)
  have hhigh : ¬0xC0 ≤ b0 := UInt8.not_le.mpr (UInt8.lt_iff_toNat_lt.mpr h')
  rw [txLen.eq_def]
  dsimp only
  rw [if_neg hlow, if_neg hhigh]

theorem txLen_header (hadd : Exact add) {h : TxHeader} (hb : h.bytes <+: b) :
    txLen add b = some <$> addTxLen add h := by
  obtain ⟨type, type_small, header, is_list⟩ := h
  obtain ⟨rest, rfl⟩ := hb
  obtain ⟨b1, tail, hbytes⟩ := List.exists_cons_of_ne_nil header.bytes_ne_nil
  have hlist : 0xC0 ≤ b1.toNat := (Rlp.Header.isList_iff hbytes).mp is_list
  have hitem : rlpItemLen add (b1 :: (tail ++ rest)) = some <$> addLen add header := by
    apply rlpItemLen_header hadd
    rw [hbytes, ← List.cons_append]
    exact List.prefix_append _ _
  cases type with
  | none =>
      show txLen add (header.bytes ++ rest) = _
      rw [hbytes, List.cons_append, txLen_legacy hlist, hitem]
      rfl
  | some b0 =>
      show txLen add (b0 :: (header.bytes ++ rest)) = _
      rw [hbytes, List.cons_append, txLen_typed (type_small b0 rfl) hlist, hitem, addTxLen,
        bind_map_left, map_bind]
      rfl

theorem txLen_none (hadd : Exact add) (h : ∀ h : TxHeader, ¬h.bytes <+: b) :
    txLen add b = pure none := by
  -- a list header at the front, behind a type byte or not, would make a transaction header
  match b with
  | [] => rfl
  | b0 :: rest =>
      by_cases hlow : b0.toNat < 0x80
      · match rest with
        | [] =>
            rw [txLen, if_pos (UInt8.lt_iff_toNat_lt.mpr hlow)]
        | b1 :: rest =>
            by_cases hlist : b1.toNat < 0xC0
            · exact txLen_untyped hlow hlist
            · have hnone : rlpItemLen add (b1 :: rest) = pure none := by
                apply rlpItemLen_none hadd
                intro header hheader
                have hlist := Rlp.Header.isList_of_prefix hheader (Nat.le_of_not_lt hlist)
                have hsmall : ∀ b ∈ some b0, b.toNat < 0x80 := by
                  intro b hb
                  rwa [← Option.some.inj hb]
                exact h ⟨some b0, hsmall, header, hlist⟩
                  (List.cons_prefix_cons.mpr ⟨rfl, hheader⟩)
              rw [txLen_typed hlow (by omega), hnone, pure_bind, Option.elim_none]
      · by_cases hlist : b0.toNat < 0xC0
        · exact txLen_string (by omega) hlist
        · rw [txLen_legacy (by omega)]
          apply rlpItemLen_none hadd
          intro header hheader
          have hlist := Rlp.Header.isList_of_prefix hheader (Nat.le_of_not_lt hlist)
          exact h (.legacy header hlist) hheader

/-! ## Exactness -/

omit [LawfulMonad m] in
theorem addLen_of_lt (hadd : Exact add) {h : Rlp.Header} (hlt : h.itemLen < 2 ^ 64) :
    addLen add h = pure h.itemLen := by
  cases h with
  | byte => rfl
  | short => exact hadd hlt
  | long list lenBytes filled few =>
      rw [Rlp.Header.itemLen_long] at hlt ⊢
      exact hadd hlt

theorem addTxLen_of_lt (hadd : Exact add) {h : TxHeader} (hlt : h.declared < 2 ^ 64) :
    addTxLen add h = pure h.declared := by
  unfold addTxLen
  cases htype : h.type with
  | none =>
      rw [h.declared_legacy htype] at hlt ⊢
      exact addLen_of_lt hadd hlt
  | some b0 =>
      rw [h.declared_typed htype] at hlt ⊢
      dsimp only
      rw [addLen_of_lt hadd (by omega), pure_bind]
      exact hadd hlt

theorem txLen_of_lt (hadd : Exact add) {h : TxHeader} (hb : h.bytes <+: b)
    (hlt : h.declared < 2 ^ 64) : txLen add b = pure (some h.declared) := by
  rw [txLen_header hadd hb, addTxLen_of_lt hadd hlt, map_pure]

end Tx

theorem checkedAdd_eq_none {a b : Nat} (h : 2 ^ 64 ≤ a + b) : checkedAdd a b = none := by
  rw [checkedAdd, if_neg (Nat.not_lt.mpr h)]

theorem addLen_eq_none {h : Rlp.Header} (hle : 2 ^ 64 ≤ h.itemLen) :
    addLen checkedAdd h = none := by
  cases h with
  | byte b small =>
      have hone : (Rlp.Header.byte b small).itemLen = 1 := rfl
      rw [hone] at hle
      omega
  | short => exact checkedAdd_eq_none hle
  | long list lenBytes filled few =>
      rw [Rlp.Header.itemLen_long] at hle
      exact checkedAdd_eq_none hle

theorem addTxLen_eq_none {h : TxHeader} (hle : 2 ^ 64 ≤ h.declared) :
    addTxLen checkedAdd h = none := by
  unfold addTxLen
  cases htype : h.type with
  | none =>
      rw [h.declared_legacy htype] at hle
      exact addLen_eq_none hle
  | some b0 =>
      rw [h.declared_typed htype] at hle
      by_cases hlt : h.header.itemLen < 2 ^ 64
      · dsimp only
        rw [addLen_of_lt exact_checkedAdd hlt]
        exact checkedAdd_eq_none hle
      · dsimp only
        rw [addLen_eq_none (Nat.le_of_not_lt hlt)]
        rfl

/-- The front of `b` is an item header that declares 2^64 bytes or more. -/
def OversizedItem (b : List UInt8) : Prop :=
  ∃ h : Rlp.Header, h.bytes <+: b ∧ 2 ^ 64 ≤ h.itemLen

/-- The front of `b` is a transaction header that declares 2^64 bytes or more. -/
def OversizedTx (b : List UInt8) : Prop :=
  ∃ h : TxHeader, h.bytes <+: b ∧ 2 ^ 64 ≤ h.declared

/-- No addition overflows, and a length that is returned is that of the item at the front. -/
structure ItemExact (b : List UInt8) : Prop where
  no_overflow : (rlpItemLen checkedAdd b).isSome
  exact : ∀ n, rlpItemLen wrappingAdd b = pure (some n) →
    ∃ h : Rlp.Header, h.bytes <+: b ∧ n = h.itemLen

structure TxExact (b : List UInt8) : Prop where
  no_overflow : (txLen checkedAdd b).isSome
  exact : ∀ n, txLen wrappingAdd b = pure (some n) →
    ∃ h : TxHeader, h.bytes <+: b ∧ n = h.declared

/-- A length that is read off the header in front is exact, unless the additions on it
overflow. -/
theorem exact_iff {H : Type} {front : H → Prop} {len : H → Nat}
    (read : ∀ {m : Type → Type} [Monad m], (Nat → Nat → m Nat) → m (Option Nat))
    (hoversized : ∀ h, front h → 2 ^ 64 ≤ len h → read checkedAdd = none)
    (hsized : ∀ {m : Type → Type} [Monad m] [LawfulMonad m] {add : Nat → Nat → m Nat},
      Exact add → ∀ h, front h → len h < 2 ^ 64 → read add = pure (some (len h)))
    (hnone : ∀ {m : Type → Type} [Monad m] [LawfulMonad m] {add : Nat → Nat → m Nat},
      Exact add → (∀ h, ¬front h) → read add = pure none) :
    ((read checkedAdd).isSome ∧ ∀ n, read wrappingAdd = pure (some n) → ∃ h, front h ∧ n = len h) ↔
      ¬∃ h, front h ∧ 2 ^ 64 ≤ len h := by
  constructor
  · rintro ⟨hsome, -⟩ ⟨h, hfront, hle⟩
    rw [hoversized h hfront hle] at hsome
    cases hsome
  · intro hfits
    by_cases hfront : ∃ h, front h
    · obtain ⟨h, hfront⟩ := hfront
      have hlt : len h < 2 ^ 64 := Nat.lt_of_not_le fun hle => hfits ⟨h, hfront, hle⟩
      rw [hsized exact_checkedAdd h hfront hlt, hsized exact_wrappingAdd h hfront hlt]
      exact ⟨rfl, fun n hn => ⟨h, hfront, (Option.some.inj hn).symm⟩⟩
    · rw [hnone exact_checkedAdd (not_exists.mp hfront),
        hnone exact_wrappingAdd (not_exists.mp hfront)]
      exact ⟨rfl, fun n hn => by cases hn⟩

theorem itemExact_iff (b : List UInt8) : ItemExact b ↔ ¬OversizedItem b := by
  have hiff := exact_iff (fun add => rlpItemLen add b)
    (fun h hb hle => by rw [rlpItemLen_header exact_checkedAdd hb, addLen_eq_none hle]; rfl)
    (fun hadd h hb hlt => by rw [rlpItemLen_header hadd hb, addLen_of_lt hadd hlt, map_pure])
    (fun hadd => rlpItemLen_none hadd)
  exact ⟨fun h => hiff.mp ⟨h.no_overflow, h.exact⟩, fun h => ⟨(hiff.mpr h).1, (hiff.mpr h).2⟩⟩

theorem txExact_iff (b : List UInt8) : TxExact b ↔ ¬OversizedTx b := by
  have hiff := exact_iff (fun add => txLen add b)
    (fun h hb hle => by rw [txLen_header exact_checkedAdd hb, addTxLen_eq_none hle]; rfl)
    (fun hadd h hb hlt => txLen_of_lt hadd hb hlt)
    (fun hadd => txLen_none hadd)
  exact ⟨fun h => hiff.mp ⟨h.no_overflow, h.exact⟩, fun h => ⟨(hiff.mpr h).1, (hiff.mpr h).2⟩⟩

end FeedBench.WsRaw
