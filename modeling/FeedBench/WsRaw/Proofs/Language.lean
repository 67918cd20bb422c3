import FeedBench.Lib.Json
import FeedBench.Nitro.Feed
import FeedBench.WsRaw.Proofs.Framings

/-!
# The language of `split_txs`

A frame is split when it is blocks of one framing from end to end, into the blocks of the first
framing it is.  A JSON array or object is never split.
-/

namespace FeedBench.WsRaw

open Lib Text Usize Ws

/-! ## Blocks -/

/-- The frame is blocks, each a length in `pfx` bytes and what `tx_len` takes for a transaction of
that length. -/
inductive Blocks (pfx : Nat) : List UInt8 → List (List UInt8) → Prop
  | nil : Blocks pfx [] []
  | cons {x rest xs} (long : 8 ≤ x.length) (fits : 0 < pfx → x.length < 256 ^ pfx)
      (one : txLen wrappingAdd (x ++ rest) = pure (some x.length)) (tail : Blocks pfx rest xs) :
      Blocks pfx (beBytes pfx x.length ++ x ++ rest) (x :: xs)

def blocks (pfx : Nat) (xs : List (List UInt8)) : List UInt8 :=
  xs.flatMap fun x => beBytes pfx x.length ++ x

variable {pfx pos : Nat} {frame left : List UInt8} {xs out : List (List UInt8)}

theorem Blocks.frame_eq (h : Blocks pfx frame xs) : frame = blocks pfx xs := by
  induction h with
  | nil => rfl
  | cons _ _ _ _ ih => rw [blocks, List.flatMap_cons, ← blocks, ← ih]

theorem Blocks.nil_iff (h : Blocks pfx frame xs) : xs = [] ↔ frame = [] := by
  cases h with
  | nil => exact iff_of_true rfl rfl
  | @cons x rest xs long =>
      refine iff_of_false (List.cons_ne_nil _ _) fun hnil => ?_
      have hlen := congrArg List.length hnil
      simp only [List.length_append, List.length_nil] at hlen
      omega

theorem splitLoop_blocks (hpfx : pfx ≤ 8) (h : Blocks pfx left xs) (hpos : frame.drop pos = left) :
    splitLoop wrappingAdd pfx frame pos out = pure (some (out ++ xs)) := by
  induction h generalizing pos out with
  | nil =>
      rw [splitLoop_end (List.drop_eq_nil_iff.mp hpos), List.append_nil]
  | @cons x rest xs long fits one tail ih =>
      have hlen : (beBytes pfx x.length ++ x ++ rest).length = pfx + x.length + rest.length := by
        rw [List.length_append, List.length_append, length_beBytes]
      have hne : beBytes pfx x.length ++ x ++ rest ≠ [] := by
        apply List.ne_nil_of_length_pos
        omega
      have hdrop : (beBytes pfx x.length ++ x ++ rest).drop pfx = x ++ rest := by
        rw [List.append_assoc, List.drop_left' (length_beBytes _ _)]
      have htake : (beBytes pfx x.length ++ x ++ rest).take pfx = beBytes pfx x.length := by
        rw [List.append_assoc, List.take_left' (length_beBytes _ _)]
      have hsaid : ¬(0 < pfx ∧ be (beBytes pfx x.length) ≠ some x.length) := by
        rintro ⟨hwith, hother⟩
        exact hother (be_beBytes hwith hpfx (fits hwith))
      have hthere : ¬(x ++ rest).length < x.length := by
        rw [List.length_append]
        omega
      have hnext : frame.drop (pos + (pfx + x.length)) = rest := by
        rw [← List.drop_drop, hpos, ← List.drop_drop, hdrop, List.drop_left' rfl]
      rw [splitLoop_eq hpos hne (by omega), hdrop, htake, one, pure_bind, Option.elim_some,
        if_neg hsaid, if_neg hthere, if_neg (by omega), List.take_left' rfl, ih hnext,
        List.append_assoc, List.singleton_append]

/-- What a turn of the loop reads off is a block. -/
theorem block_of_turn {n : Nat} (hfront : pfx ≤ left.length)
    (hone : txLen wrappingAdd (left.drop pfx) = pure (some n))
    (hsaid : ¬(0 < pfx ∧ be (left.take pfx) ≠ some n)) (hthere : n ≤ (left.drop pfx).length)
    (hlong : 8 ≤ n) (tail : Blocks pfx (left.drop (pfx + n)) xs) :
    Blocks pfx left ((left.drop pfx).take n :: xs) := by
  have hsize : ((left.drop pfx).take n).length = n := by
    rw [List.length_take, Nat.min_eq_left hthere]
  have hrest : (left.drop pfx).take n ++ left.drop (pfx + n) = left.drop pfx := by
    rw [← List.drop_drop, List.take_append_drop]
  obtain ⟨hfield, hfits⟩ := field_of_said hfront hsaid
  have hblock : Blocks pfx (beBytes pfx ((left.drop pfx).take n).length ++
      (left.drop pfx).take n ++ left.drop (pfx + n)) ((left.drop pfx).take n :: xs) :=
    .cons (by rwa [hsize]) (by rwa [hsize]) (by rw [hrest, hsize, hone]) tail
  rwa [hsize, hfield, List.append_assoc, hrest, List.take_append_drop] at hblock

theorem blocks_of_splitLoop (hpfx : pfx ≤ 8) {result : List (List UInt8)}
    (h : splitLoop wrappingAdd pfx frame pos out = pure (some result)) :
    ∃ xs, result = out ++ xs ∧ Blocks pfx (frame.drop pos) xs := by
  induction hn : frame.length - pos using Nat.strongRecOn generalizing pos out with
  | ind n ih =>
      by_cases hend : frame.length ≤ pos
      · rw [splitLoop_end hend] at h
        refine ⟨[], ?_, ?_⟩
        · rw [List.append_nil]
          exact (Option.some.inj h).symm
        · rw [List.drop_eq_nil_of_le hend]
          exact .nil
      · have hne : frame.drop pos ≠ [] := fun hnil => hend (List.drop_eq_nil_iff.mp hnil)
        by_cases hshort : (frame.drop pos).length < pfx
        · rw [splitLoop_short rfl hne hshort] at h
          cases h
        rw [splitLoop_eq rfl hne (Nat.le_of_not_lt hshort)] at h
        cases hone : txLen wrappingAdd ((frame.drop pos).drop pfx) with
        | none =>
            rw [hone] at h
            cases h
        | some k =>
            rw [hone] at h
            replace h : (if 0 < pfx ∧ be ((frame.drop pos).take pfx) ≠ some k then pure none
              else if ((frame.drop pos).drop pfx).length < k then pure none
              else if k < 8 then pure none
              else splitLoop wrappingAdd pfx frame (pos + (pfx + k))
                (out ++ [((frame.drop pos).drop pfx).take k])) = pure (some result) := h
            split at h
            · cases h
            next hsaid =>
            split at h
            · cases h
            next hthere =>
            split at h
            · cases h
            next hlong =>
            obtain ⟨xs, hresult, hxs⟩ := ih (frame.length - (pos + (pfx + k))) (by omega) h rfl
            rw [List.append_assoc, List.singleton_append] at hresult
            rw [← List.drop_drop] at hxs
            exact ⟨_, hresult, block_of_turn (Nat.le_of_not_lt hshort) hone hsaid
              (Nat.le_of_not_lt hthere) (Nat.le_of_not_lt hlong) hxs⟩

/-- A frame is blocks of one framing in one way. -/
theorem Blocks.unique (hpfx : pfx ≤ 8) {ys : List (List UInt8)} (h : Blocks pfx frame xs)
    (h' : Blocks pfx frame ys) : xs = ys := by
  have heq : splitLoop wrappingAdd pfx frame 0 [] = pure (some ([] ++ xs)) :=
    splitLoop_blocks hpfx h List.drop_zero
  rw [splitLoop_blocks hpfx h' List.drop_zero] at heq
  exact (Option.some.inj heq).symm

/-! ## The first framing -/

theorem splitLoop_eq_none (hpfx : pfx ≤ 8) (hnot : ∀ xs, ¬Blocks pfx frame xs) :
    splitLoop wrappingAdd pfx frame 0 [] = pure none := by
  cases hloop : splitLoop wrappingAdd pfx frame 0 [] with
  | none => rfl
  | some result =>
      obtain ⟨xs, -, hxs⟩ := blocks_of_splitLoop hpfx hloop
      exact absurd hxs (hnot xs)

/-- The first framing in the list that the frame is blocks of decides, or the frame is blocks of
none. -/
theorem splitFrom_first {pfxs : List Nat} (hframe : frame ≠ []) (hpfxs : ∀ pfx ∈ pfxs, pfx ≤ 8) :
    (∃ before pfx after xs, pfxs = before ++ pfx :: after ∧
      (∀ q ∈ before, ∀ ys, ¬Blocks q frame ys) ∧ Blocks pfx frame xs ∧
      splitFrom wrappingAdd frame pfxs = pure xs) ∨
    (∀ pfx ∈ pfxs, ∀ xs, ¬Blocks pfx frame xs) ∧ splitFrom wrappingAdd frame pfxs = pure [] := by
  induction pfxs with
  | nil => exact .inr ⟨fun _ h => absurd h List.not_mem_nil, rfl⟩
  | cons pfx pfxs ih =>
      obtain ⟨hpfx, hpfxs⟩ := List.forall_mem_cons.mp hpfxs
      by_cases hblocks : ∃ xs, Blocks pfx frame xs
      · obtain ⟨xs, hxs⟩ := hblocks
        refine .inl ⟨[], pfx, pfxs, xs, rfl, fun _ h => absurd h List.not_mem_nil, hxs, ?_⟩
        have hsome : xs.isEmpty = false :=
          List.isEmpty_eq_false_iff.mpr (mt hxs.nil_iff.mp hframe)
        rw [splitFrom, splitLoop_blocks hpfx hxs List.drop_zero, pure_bind]
        dsimp only
        rw [List.nil_append, hsome]
        rfl
      · have hnot := not_exists.mp hblocks
        rw [splitFrom_next (.inl (splitLoop_eq_none hpfx hnot))]
        rcases ih hpfxs with ⟨before, pfx', after, xs, rfl, hbefore, hxs, hsplit⟩ | ⟨hnone, hsplit⟩
        · exact .inl ⟨pfx :: before, pfx', after, xs, rfl,
            List.forall_mem_cons.mpr ⟨hnot, hbefore⟩, hxs, hsplit⟩
        · exact .inr ⟨List.forall_mem_cons.mpr ⟨hnot, hnone⟩, hsplit⟩

theorem splitTxs_nil : splitTxs wrappingAdd [] = pure [] := by
  have hend : ∀ pfx, splitLoop wrappingAdd pfx [] 0 [] = pure (some []) :=
    fun _ => splitLoop_end (Nat.le_refl _)
  rw [splitTxs, prefixes, splitFrom_next (.inr (hend 0)), splitFrom_next (.inr (hend 4)),
    splitFrom_next (.inr (hend 8))]
  rfl

/-- Where the debug profile returns anything, the release profile returns the same. -/
theorem splitTxs_checked (frame : Usize.Slice)
    (h : splitTxs checkedAdd frame.bytes = some out) :
    splitTxs wrappingAdd frame.bytes = pure out := by
  have hlt : frame.bytes.length < 2 ^ 64 := Nat.lt_trans frame.length_lt (by decide)
  by_cases hsafe : SafeFrom frame.bytes prefixes
  · obtain ⟨txs, hchecked, hwrapping⟩ := splitFrom_safe hlt prefixes_le hsafe
    rw [splitTxs, hchecked] at h
    rw [splitTxs, hwrapping, ← Option.some.inj h]
  · rw [splitTxs, splitFrom_not_safe hlt prefixes_le hsafe] at h
    cases h

/-! ## JSON -/

theorem ascii_bracket {c : Char} (h : c ∈ Json.whitespace ++ ['[', '{']) :
    ∃ b, String.utf8EncodeChar c = [b] ∧ 9 ≤ b.toNat ∧ b.toNat < 0x80 := by
  have hall : ((Json.whitespace ++ ['[', '{']).all fun c =>
      String.utf8EncodeChar c == [c.val.toUInt8] && decide (9 ≤ c.val.toUInt8.toNat) &&
        decide (c.val.toUInt8.toNat < 0x80)) = true := by decide
  have hc := List.all_eq_true.mp hall c h
  simp only [Bool.and_eq_true, beq_iff_eq, decide_eq_true_eq] at hc
  exact ⟨_, hc.1.1, hc.1.2, hc.2⟩

theorem ascii_starts {c : Char} (h : c ∈ Json.starts) :
    ∃ b, String.utf8EncodeChar c = [b] ∧ b.toNat < 0x80 := by
  have hall : (Json.starts.all fun c => String.utf8EncodeChar c == [c.val.toUInt8] &&
      decide (c.val.toUInt8.toNat < 0x80)) = true := by decide
  have hc := List.all_eq_true.mp hall c h
  simp only [Bool.and_eq_true, beq_iff_eq, decide_eq_true_eq] at hc
  exact ⟨_, hc.1, hc.2⟩

theorem asBytes_container {text : List Char} (h : Json.Container text) :
    ∃ b0 b1 rest, asBytes text = b0 :: b1 :: rest ∧ 9 ≤ b0.toNat ∧ b0.toNat < 0x80 ∧
      b1.toNat < 0x80 := by
  obtain ⟨c, d, tail, rfl, hc, hd⟩ := h.front
  obtain ⟨b0, hb0, hlow, hhigh⟩ := ascii_bracket hc
  obtain ⟨b1, hb1, hascii⟩ := ascii_starts hd
  refine ⟨b0, b1, asBytes tail, ?_, hlow, hhigh, hascii⟩
  rw [asBytes, List.flatMap_cons, List.flatMap_cons, hb0, hb1]
  rfl

theorem asBytes_lt {text : List Char} {b : UInt8} (h : b ∈ asBytes text) : b.toNat < 0xF8 := by
  obtain ⟨c, -, hb⟩ := List.mem_flatMap.mp h
  have hbyte : ∃ n, b = UInt8.ofNat n ∧ n < 0xF8 := by
    unfold String.utf8EncodeChar at hb
    dsimp only at hb
    split at hb
    · exact ⟨_, List.mem_singleton.mp hb, by omega⟩
    split at hb
    · simp only [List.mem_cons, List.not_mem_nil, or_false] at hb
      rcases hb with rfl | rfl <;> exact ⟨_, rfl, by omega⟩
    split at hb
    · simp only [List.mem_cons, List.not_mem_nil, or_false] at hb
      rcases hb with rfl | rfl | rfl <;> exact ⟨_, rfl, by omega⟩
    · simp only [List.mem_cons, List.not_mem_nil, or_false] at hb
      rcases hb with rfl | rfl | rfl | rfl <;> exact ⟨_, rfl, by omega⟩
  obtain ⟨n, rfl, hn⟩ := hbyte
  rw [UInt8.toNat_ofNat', Nat.mod_eq_of_lt (by omega)]
  exact hn

theorem not_oversized {b : List UInt8} (hbytes : ∀ x ∈ b, x.toNat < 0xF8) : ¬OversizedTx b := by
  rintro ⟨h, hfront, hle⟩
  obtain ⟨type, type_small, header, is_list⟩ := h
  have hitem : header.itemLen ≤ 56 := by
    cases header with
    | byte x small => cases is_list
    | short list len few =>
        show 1 + len ≤ 56
        omega
    | long list lenBytes filled few =>
        have hlist : list = true := is_list
        subst hlist
        have htag := Rlp.Header.toNat_tag_add true (by omega : 55 + lenBytes.length < 64)
        rw [Rlp.Header.tag_true] at htag
        have hmem : UInt8.ofNat (Rlp.Header.tag true + 55 + lenBytes.length) ∈ b :=
          hfront.subset (List.mem_append_right _ List.mem_cons_self)
        have hlt := hbytes _ hmem
        rw [Nat.add_assoc, Rlp.Header.tag_true, htag] at hlt
        omega
  have htype : type.toList.length ≤ 1 := Option.length_toList_le
  have hdeclared : type.toList.length + header.itemLen ≤ 57 := by omega
  exact absurd (Nat.le_trans hle hdeclared) (by decide)

theorem not_run_of_front {width : Nat} {b0 : UInt8} {rest : List UInt8} (hwidth : 3 ≤ width)
    (hb0 : 0 < b0.toNat) (hlen : (b0 :: rest).length < 256 ^ 3) :
    ¬Run (width + 1) (b0 :: rest) := by
  rintro ⟨txs, hne, htxs, hframe⟩
  obtain ⟨tx, txs, rfl⟩ := List.exists_cons_of_ne_nil hne
  have hsmall : tx.bytes.length < 256 ^ width := by
    have hle : tx.bytes.length ≤ (framed (width + 1) (tx :: txs)).length :=
      length_le_framed List.mem_cons_self
    rw [← hframe] at hle
    calc
      tx.bytes.length < 256 ^ 3 := by omega
      _ ≤ 256 ^ width := Nat.pow_le_pow_right (by decide) hwidth
  rw [framed_cons, chunk, beBytes_wider hsmall] at hframe
  have hzero : b0 = 0 := (List.cons.inj hframe).1
  subst hzero
  exact absurd hb0 (by decide)

theorem splitTxs_json {m : Type → Type} [Monad m] [LawfulMonad m] {add : Nat → Nat → m Nat}
    (hadd : Exact add) {text : List Char} (h : Json.Container text)
    (hlen : (asBytes text).length ≤ Nitro.maxMessage) : splitTxs add (asBytes text) = pure [] := by
  have hmax : Nitro.maxMessage < 256 ^ 3 := by decide
  have hlt : (asBytes text).length < 2 ^ 64 := by
    calc
      (asBytes text).length < 256 ^ 3 := by omega
      _ < 2 ^ 64 := by decide
  have hsafe : ∀ pfx, Safe pfx (asBytes text) := by
    intro pfx txs rest htxs hframe
    apply not_oversized
    intro x hx
    apply asBytes_lt
    rw [hframe]
    exact List.mem_append_right _ (List.mem_of_mem_drop hx)
  obtain ⟨b0, b1, rest, hfront, hlow, hascii, hnext⟩ := asBytes_container h
  have hplain : splitLoop add 0 (asBytes text) 0 [] = pure none :=
    splitLoop_untyped hfront hascii (by omega)
  have hrun : ∀ width, 3 ≤ width → ¬Run (width + 1) (asBytes text) := by
    intro width hwidth
    rw [hfront] at hlen ⊢
    exact not_run_of_front hwidth (by omega) (by omega)
  rw [splitTxs, prefixes, splitFrom_next (.inl hplain),
    splitFrom_next (splitLoop_not_run hadd (by omega) hlt (hsafe 4) (hrun 3 (by omega))),
    splitFrom_next (splitLoop_not_run hadd (by omega) hlt (hsafe 8) (hrun 7 (by omega)))]
  rfl

/-! ## The language -/

theorem splitTxs_first (frame : List UInt8) :
    (frame = [] ∨ ∀ pfx ∈ prefixes, ∀ xs, ¬Blocks pfx frame xs) ∧
        (splitTxs wrappingAdd frame).run = [] ∨
      (frame ≠ [] ∧ ∃ pfx ∈ prefixes, (∀ q ∈ prefixes, q < pfx → ∀ ys, ¬Blocks q frame ys) ∧
        Blocks pfx frame (splitTxs wrappingAdd frame).run) := by
  by_cases hframe : frame = []
  · subst hframe
    exact .inl ⟨.inl rfl, splitTxs_nil⟩
  rcases splitFrom_first hframe prefixes_le with
    ⟨before, pfx, after, xs, hpfxs, hbefore, hxs, hsplit⟩ | ⟨hnone, hsplit⟩
  · have hmem : pfx ∈ prefixes := by
      rw [hpfxs]
      exact List.mem_append_right _ List.mem_cons_self
    have hout : (splitTxs wrappingAdd frame).run = xs := hsplit
    refine .inr ⟨hframe, pfx, hmem, ?_, hout ▸ hxs⟩
    intro q hq hlt
    have hsorted : prefixes.Pairwise (· < ·) := by decide
    rw [hpfxs] at hq hsorted
    have hlater := (List.pairwise_cons.mp (List.pairwise_append.mp hsorted).2.1).1
    rcases List.mem_append.mp hq with hq | hq
    · exact hbefore q hq
    · rcases List.mem_cons.mp hq with rfl | hq
      · exact absurd hlt (Nat.lt_irrefl q)
      · exact absurd hlt (Nat.lt_asymm (hlater q hq))
  · exact .inl ⟨.inr hnone, hsplit⟩

/-- **What is split.** A frame is split when it is not empty and is blocks of one of the three
framings, into the blocks of the first of these; a JSON array or object of a message is not
split. -/
theorem splitTxs_language (frame : Usize.Slice) :
    let out := (splitTxs wrappingAdd frame.bytes).run
    (out ≠ [] ↔ frame.bytes ≠ [] ∧ ∃ pfx ∈ prefixes, ∃ xs, Blocks pfx frame.bytes xs) ∧
      (out ≠ [] → ∃ pfx ∈ prefixes,
        (∀ q ∈ prefixes, q < pfx → ∀ ys, ¬Blocks q frame.bytes ys) ∧
        Blocks pfx frame.bytes out ∧ (∀ xs, Blocks pfx frame.bytes xs → xs = out) ∧
        blocks pfx out = frame.bytes) ∧
      (∀ out', splitTxs checkedAdd frame.bytes = some out' → out' = out) ∧
      ∀ text, Json.Container text → frame.bytes = asBytes text →
        frame.bytes.length ≤ Nitro.maxMessage → SplitsTo frame.bytes [] := by
  intro out
  have hfirst : (frame.bytes = [] ∨ ∀ pfx ∈ prefixes, ∀ xs, ¬Blocks pfx frame.bytes xs) ∧
        out = [] ∨
      (frame.bytes ≠ [] ∧ ∃ pfx ∈ prefixes,
        (∀ q ∈ prefixes, q < pfx → ∀ ys, ¬Blocks q frame.bytes ys) ∧
        Blocks pfx frame.bytes out) := splitTxs_first frame.bytes
  refine ⟨?_, ?_, ?_, ?_⟩
  · rcases hfirst with ⟨hnone, hout⟩ | ⟨hne, pfx, hpfx, -, hxs⟩
    · refine iff_of_false (not_not_intro hout) ?_
      rintro ⟨hne, pfx, hpfx, xs, hxs⟩
      exact (hnone.resolve_left hne) pfx hpfx xs hxs
    · exact iff_of_true (mt hxs.nil_iff.mp hne) ⟨hne, pfx, hpfx, out, hxs⟩
  · intro hsome
    rcases hfirst with ⟨-, hout⟩ | ⟨-, pfx, hpfx, hfewer, hxs⟩
    · exact absurd hout hsome
    · exact ⟨pfx, hpfx, hfewer, hxs, fun ys hys => hys.unique (prefixes_le pfx hpfx) hxs,
        hxs.frame_eq.symm⟩
  · intro out' h
    exact (splitTxs_checked frame h).symm
  · intro text h hframe hlen
    rw [hframe] at hlen ⊢
    exact ⟨splitTxs_json exact_wrappingAdd h hlen, splitTxs_json exact_checkedAdd h hlen⟩

end FeedBench.WsRaw
