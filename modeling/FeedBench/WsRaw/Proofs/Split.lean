import FeedBench.WsRaw.Proofs.Lengths
import FeedBench.Ws.Wire

/-!
# Splitting a frame

Frames of whole transactions, each behind its length in so many bytes, and what the loop of
`split_txs` makes of them: it reads off the transactions one by one and stops where none
fits.
-/

namespace FeedBench.WsRaw

open Lib Usize Ws

/-! ## Length fields -/

theorem number_eq_beNat (bs : List UInt8) : Rlp.number bs = beNat bs := by
  induction bs using List.reverseRecOn with
  | nil => rfl
  | append_singleton bs b ih => rw [Rlp.number_concat, beNat_concat, ih]

theorem beBytes_number (bs : List UInt8) : beBytes bs.length (Rlp.number bs) = bs := by
  induction bs using List.reverseRecOn with
  | nil => rfl
  | append_singleton bs b ih =>
      have hb := b.toNat_lt
      have hdiv : (Rlp.number bs * 256 + b.toNat) / 256 = Rlp.number bs := by omega
      have hmod : (Rlp.number bs * 256 + b.toNat) % 256 = b.toNat := by omega
      rw [List.length_append, List.length_singleton, Rlp.number_concat, beBytes, hdiv, hmod, ih,
        UInt8.ofNat_toNat]

theorem be_beBytes {pfx n : Nat} (hpos : 0 < pfx) (hle : pfx ≤ 8) (hn : n < 256 ^ pfx) :
    be (beBytes pfx n) = some n := by
  rw [be_eq_some (by rwa [length_beBytes]) (by rwa [length_beBytes]), number_eq_beNat,
    beNat_beBytes hn]

theorem number_of_be {b : List UInt8} {n : Nat} (h : be b = some n) : Rlp.number b = n := by
  unfold be at h
  split at h
  · cases h
  · next hfits =>
    rw [Bool.or_eq_true, not_or, decide_eq_true_eq] at hfits
    rw [foldl_be b (Nat.le_of_not_lt hfits.2)] at h
    exact Option.some.inj h

/-! ## Frames of transactions -/

/-- The transaction can stand in a frame: it is not too short to be taken for one, and its
length fits in the field before it. -/
def Framable (pfx : Nat) (tx : SignedTx) : Prop :=
  8 ≤ tx.bytes.length ∧ (0 < pfx → tx.bytes.length < 256 ^ pfx)

def chunk (pfx : Nat) (tx : SignedTx) : List UInt8 := beBytes pfx tx.bytes.length ++ tx.bytes

def framed (pfx : Nat) (txs : List SignedTx) : List UInt8 := txs.flatMap (chunk pfx)

theorem length_chunk (pfx : Nat) (tx : SignedTx) :
    (chunk pfx tx).length = pfx + tx.bytes.length := by
  rw [chunk, List.length_append, length_beBytes]

@[simp] theorem framed_nil (pfx : Nat) : framed pfx [] = [] := rfl

@[simp] theorem framed_cons (pfx : Nat) (tx : SignedTx) (txs : List SignedTx) :
    framed pfx (tx :: txs) = chunk pfx tx ++ framed pfx txs := rfl

def Stuck (pfx : Nat) (b : List UInt8) : Prop :=
  ∀ tx, Framable pfx tx → ¬chunk pfx tx <+: b

/-- Every string is a run of transactions, and something that does not start with one. -/
theorem exists_framed (pfx : Nat) (b : List UInt8) : ∃ txs rest,
    (∀ tx ∈ txs, Framable pfx tx) ∧ b = framed pfx txs ++ rest ∧ Stuck pfx rest := by
  induction hn : b.length using Nat.strongRecOn generalizing b with
  | ind n ih =>
      by_cases hstuck : Stuck pfx b
      · exact ⟨[], b, fun _ h => absurd h List.not_mem_nil, rfl, hstuck⟩
      · unfold Stuck at hstuck
        push Not at hstuck
        obtain ⟨tx, htx, rest, rfl⟩ := hstuck
        have hlen : rest.length < n := by
          rw [← hn, List.length_append, length_chunk]
          have := htx.1
          omega
        obtain ⟨txs, rest', htxs, rfl, hrest'⟩ := ih rest.length hlen rest rfl
        refine ⟨tx :: txs, rest', ?_, ?_, hrest'⟩
        · exact List.forall_mem_cons.mpr ⟨htx, htxs⟩
        · rw [framed_cons, List.append_assoc]

theorem length_le_framed {pfx : Nat} {txs : List SignedTx} {tx : SignedTx} (h : tx ∈ txs) :
    tx.bytes.length ≤ (framed pfx txs).length := by
  have hpart : (chunk pfx tx).length ≤ (framed pfx txs).length := by
    obtain ⟨before, after, rfl⟩ := List.append_of_mem h
    rw [framed, List.flatMap_append, List.flatMap_cons, List.length_append, List.length_append]
    omega
  rw [length_chunk] at hpart
  omega

/-! ## The loop -/

section Loop

variable {m : Type → Type} [Monad m] [LawfulMonad m] {add : Nat → Nat → m Nat} {pfx pos : Nat}
  {frame : List UInt8} {out : List (List UInt8)}

omit [LawfulMonad m] in
theorem splitLoop_end (h : frame.length ≤ pos) :
    splitLoop add pfx frame pos out = pure (some out) := by
  rw [splitLoop, if_neg (Nat.not_lt.mpr h)]

theorem pos_lt_length {left : List UInt8} (hleft : frame.drop pos = left) (hne : left ≠ []) :
    pos < frame.length := by
  by_contra hle
  exact hne (hleft.symm.trans (List.drop_eq_nil_of_le (Nat.le_of_not_lt hle)))

omit [LawfulMonad m] in
theorem splitLoop_eq {left : List UInt8} (hleft : frame.drop pos = left) (hne : left ≠ [])
    (hpfx : pfx ≤ left.length) : splitLoop add pfx frame pos out =
      txLen add (left.drop pfx) >>= fun o => o.elim (pure none) fun n =>
        if 0 < pfx ∧ be (left.take pfx) ≠ some n then pure none
        else if (left.drop pfx).length < n then pure none
        else if n < 8 then pure none
        else splitLoop add pfx frame (pos + (pfx + n)) (out ++ [(left.drop pfx).take n]) := by
  have hpos := pos_lt_length hleft hne
  subst hleft
  have hlen : (frame.drop pos).length = frame.length - pos := List.length_drop
  rw [splitLoop, if_pos hpos, if_neg (by omega), List.drop_drop]
  dsimp only
  congr 1
  funext o
  cases o with
  | none => rfl
  | some n => rfl

theorem splitLoop_chunk (hadd : Exact add) (hpfx : pfx ≤ 8) {tx : SignedTx}
    (htx : Framable pfx tx) (hlt : tx.bytes.length < 2 ^ 64) {rest : List UInt8}
    (hpos : frame.drop pos = chunk pfx tx ++ rest) :
    splitLoop add pfx frame pos out =
      splitLoop add pfx frame (pos + (chunk pfx tx).length) (out ++ [tx.bytes]) := by
  obtain ⟨hlong, hfield⟩ := htx
  have hlen : (chunk pfx tx ++ rest).length = pfx + tx.bytes.length + rest.length := by
    rw [List.length_append, length_chunk]
  have hne : chunk pfx tx ++ rest ≠ [] := by
    apply List.ne_nil_of_length_pos
    omega
  have hdrop : (chunk pfx tx ++ rest).drop pfx = tx.bytes ++ rest := by
    rw [chunk, List.append_assoc, List.drop_left' (length_beBytes _ _)]
  have htake : (chunk pfx tx ++ rest).take pfx = beBytes pfx tx.bytes.length := by
    rw [chunk, List.append_assoc, List.take_left' (length_beBytes _ _)]
  have hread : txLen add (tx.bytes ++ rest) = pure (some tx.bytes.length) := by
    rw [SignedTx.length_bytes] at hlt ⊢
    exact txLen_of_lt hadd (tx.front_prefix.trans (List.prefix_append _ _)) hlt
  have hsaid : ¬(0 < pfx ∧ be (beBytes pfx tx.bytes.length) ≠ some tx.bytes.length) := by
    rintro ⟨hwith, hother⟩
    exact hother (be_beBytes hwith hpfx (hfield hwith))
  have hthere : ¬(tx.bytes ++ rest).length < tx.bytes.length := by
    rw [List.length_append]
    omega
  rw [splitLoop_eq hpos hne (by omega), hdrop, htake, hread, pure_bind, Option.elim_some,
    if_neg hsaid, if_neg hthere, if_neg (by omega), List.take_left' rfl, length_chunk]

theorem splitLoop_framed (hadd : Exact add) (hpfx : pfx ≤ 8) {txs : List SignedTx}
    (htxs : ∀ tx ∈ txs, Framable pfx tx) (hlt : ∀ tx ∈ txs, tx.bytes.length < 2 ^ 64)
    {rest : List UInt8} (hpos : frame.drop pos = framed pfx txs ++ rest) :
    splitLoop add pfx frame pos out =
      splitLoop add pfx frame (pos + (framed pfx txs).length)
        (out ++ txs.map SignedTx.bytes) := by
  induction txs generalizing pos out with
  | nil =>
      rw [framed_nil, List.length_nil, Nat.add_zero, List.map_nil, List.append_nil]
  | cons tx txs ih =>
      rw [framed_cons, List.append_assoc] at hpos
      have hnext : frame.drop (pos + (chunk pfx tx).length) = framed pfx txs ++ rest := by
        rw [← List.drop_drop, hpos, List.drop_left' rfl]
      rw [splitLoop_chunk hadd hpfx (htxs tx List.mem_cons_self) (hlt tx List.mem_cons_self) hpos,
        ih (fun tx' h => htxs tx' (List.mem_cons_of_mem tx h))
          (fun tx' h => hlt tx' (List.mem_cons_of_mem tx h)) hnext,
        framed_cons, List.length_append, List.map_cons, Nat.add_assoc, List.append_assoc,
        List.singleton_append]

/-- The loop gets past the transactions a frame starts with. -/
theorem splitLoop_front (hadd : Exact add) (hpfx : pfx ≤ 8) (hlt : frame.length < 2 ^ 64)
    {txs : List SignedTx} (htxs : ∀ tx ∈ txs, Framable pfx tx) {rest : List UInt8}
    (hframe : frame = framed pfx txs ++ rest) : ∃ pos out, frame.drop pos = rest ∧
      splitLoop add pfx frame 0 [] = splitLoop add pfx frame pos out := by
  have hlen : ∀ tx ∈ txs, tx.bytes.length < 2 ^ 64 := by
    intro tx htx
    have hle : tx.bytes.length ≤ (framed pfx txs).length := length_le_framed htx
    rw [hframe, List.length_append] at hlt
    omega
  have hall : frame.drop 0 = framed pfx txs ++ rest := by rw [List.drop_zero, hframe]
  refine ⟨_, _, ?_, splitLoop_framed hadd hpfx htxs hlen hall⟩
  rw [hframe, Nat.zero_add, List.drop_left' rfl]

omit [LawfulMonad m] in
theorem splitLoop_short {left : List UInt8} (hleft : frame.drop pos = left) (hne : left ≠ [])
    (hshort : left.length < pfx) : splitLoop add pfx frame pos out = pure none := by
  have hpos := pos_lt_length hleft hne
  subst hleft
  have hlen : (frame.drop pos).length = frame.length - pos := List.length_drop
  rw [splitLoop, if_pos hpos, if_pos (by omega)]

theorem field_of_said {left : List UInt8} {n : Nat} (hfront : pfx ≤ left.length)
    (hsaid : ¬(0 < pfx ∧ be (left.take pfx) ≠ some n)) :
    beBytes pfx n = left.take pfx ∧ (0 < pfx → n < 256 ^ pfx) := by
  have hwidth : (left.take pfx).length = pfx := by
    rw [List.length_take, Nat.min_eq_left hfront]
  have hnumber : 0 < pfx → Rlp.number (left.take pfx) = n := by
    intro hwith
    apply number_of_be
    by_contra hother
    exact hsaid ⟨hwith, hother⟩
  constructor
  · rcases Nat.eq_zero_or_pos pfx with rfl | hwith
    · rw [List.take_zero]
      rfl
    · have hbytes := beBytes_number (left.take pfx)
      rwa [hwidth, hnumber hwith] at hbytes
  · intro hwith
    have hbound := Rlp.number_lt (left.take pfx)
    rwa [hwidth, hnumber hwith] at hbound

theorem splitLoop_stuck (hadd : Exact add) {left : List UInt8} (hleft : frame.drop pos = left)
    (hne : left ≠ []) (hstuck : Stuck pfx left) (hsized : ¬OversizedTx (left.drop pfx)) :
    splitLoop add pfx frame pos out = pure none := by
  by_cases hshort : left.length < pfx
  · exact splitLoop_short hleft hne hshort
  rw [splitLoop_eq hleft hne (Nat.le_of_not_lt hshort)]
  by_cases hfront : ∃ h : TxHeader, h.bytes <+: left.drop pfx
  · obtain ⟨h, hb⟩ := hfront
    have hlt : h.declared < 2 ^ 64 := Nat.lt_of_not_le fun hle => hsized ⟨h, hb, hle⟩
    rw [txLen_of_lt hadd hb hlt, pure_bind, Option.elim_some]
    split
    · rfl
    next hfield =>
    split
    · rfl
    next hthere =>
    split
    · rfl
    next hlong =>
    exfalso
    obtain ⟨tx, htx⟩ := SignedTx.exists_of_front hb (Nat.le_of_not_lt hthere)
    have hsize : tx.bytes.length = h.declared := by
      rw [htx, List.length_take, Nat.min_eq_left (Nat.le_of_not_lt hthere)]
    obtain ⟨hsaid, hfits⟩ := field_of_said (Nat.le_of_not_lt hshort) hfield
    rw [← hsize] at hsaid hfits
    refine hstuck tx ⟨by omega, hfits⟩ ⟨(left.drop pfx).drop h.declared, ?_⟩
    rw [chunk, hsaid, htx, List.append_assoc, List.take_append_drop, List.take_append_drop]
  · rw [txLen_none hadd (not_exists.mp hfront), pure_bind, Option.elim_none]

end Loop

/-- An oversized header that is looked at stops the program. -/
theorem splitLoop_oversized {pfx pos : Nat} {frame left : List UInt8} {out : List (List UInt8)}
    (hleft : frame.drop pos = left) (hsized : OversizedTx (left.drop pfx)) :
    splitLoop checkedAdd pfx frame pos out = none := by
  obtain ⟨h, hb, hle⟩ := hsized
  have hpos : 0 < (left.drop pfx).length := by
    obtain ⟨b1, tail, hbytes⟩ := List.exists_cons_of_ne_nil h.header.bytes_ne_nil
    have hlen := hb.length_le
    rw [TxHeader.bytes, hbytes, List.length_append, List.length_cons] at hlen
    omega
  rw [List.length_drop] at hpos
  have hne : left ≠ [] := by
    apply List.ne_nil_of_length_pos
    omega
  rw [splitLoop_eq hleft hne (by omega), txLen_header exact_checkedAdd hb, addTxLen_eq_none hle]
  rfl

/-! ## One framing -/

/-- The frame is a run of transactions with their length in `pfx` bytes. -/
def Run (pfx : Nat) (frame : List UInt8) : Prop :=
  ∃ txs, txs ≠ [] ∧ (∀ tx ∈ txs, Framable pfx tx) ∧ frame = framed pfx txs

/-- Reading transactions off the frame, no oversized header is met where the next one is
looked for. -/
def Safe (pfx : Nat) (frame : List UInt8) : Prop :=
  ∀ txs rest, (∀ tx ∈ txs, Framable pfx tx) → frame = framed pfx txs ++ rest →
    ¬OversizedTx (rest.drop pfx)

section Framing

variable {m : Type → Type} [Monad m] [LawfulMonad m] {add : Nat → Nat → m Nat} {pfx : Nat}
  {frame : List UInt8}

theorem splitLoop_run (hadd : Exact add) (hpfx : pfx ≤ 8) {txs : List SignedTx}
    (htxs : ∀ tx ∈ txs, Framable pfx tx) (hlt : ∀ tx ∈ txs, tx.bytes.length < 2 ^ 64) :
    splitLoop add pfx (framed pfx txs) 0 [] = pure (some (txs.map SignedTx.bytes)) := by
  have hall : (framed pfx txs).drop 0 = framed pfx txs ++ [] := by
    rw [List.drop_zero, List.append_nil]
  rw [splitLoop_framed hadd hpfx htxs hlt hall, Nat.zero_add, splitLoop_end (Nat.le_refl _),
    List.nil_append]

theorem splitFrom_run (hadd : Exact add) (hpfx : pfx ≤ 8) {txs : List SignedTx} (hne : txs ≠ [])
    (htxs : ∀ tx ∈ txs, Framable pfx tx) (hlt : ∀ tx ∈ txs, tx.bytes.length < 2 ^ 64)
    (pfxs : List Nat) :
    splitFrom add (framed pfx txs) (pfx :: pfxs) = pure (txs.map SignedTx.bytes) := by
  have hsome : (txs.map SignedTx.bytes).isEmpty = false := by
    rw [List.isEmpty_eq_false_iff]
    exact fun hnil => hne (List.map_eq_nil_iff.mp hnil)
  rw [splitFrom, splitLoop_run hadd hpfx htxs hlt, pure_bind]
  dsimp only
  rw [hsome]
  rfl

theorem splitFrom_next {pfxs : List Nat}
    (h : splitLoop add pfx frame 0 [] = pure none ∨ splitLoop add pfx frame 0 [] = pure (some [])) :
    splitFrom add frame (pfx :: pfxs) = splitFrom add frame pfxs := by
  rw [splitFrom]
  rcases h with h | h <;> rw [h, pure_bind]
  rfl

theorem splitLoop_not_run (hadd : Exact add) (hpfx : pfx ≤ 8) (hlt : frame.length < 2 ^ 64)
    (hsafe : Safe pfx frame) (hrun : ¬Run pfx frame) :
    splitLoop add pfx frame 0 [] = pure none ∨ splitLoop add pfx frame 0 [] = pure (some []) := by
  obtain ⟨txs, rest, htxs, hframe, hstuck⟩ := exists_framed pfx frame
  cases hrest : rest with
  | nil =>
      rw [hrest, List.append_nil] at hframe
      cases txs with
      | nil =>
          rw [hframe]
          exact .inr (splitLoop_end (Nat.le_refl _))
      | cons tx txs => exact absurd ⟨_, List.cons_ne_nil tx txs, htxs, hframe⟩ hrun
  | cons b left =>
      have hne : rest ≠ [] := hrest ▸ List.cons_ne_nil b left
      obtain ⟨pos, out, hleft, hfront⟩ := splitLoop_front hadd hpfx hlt htxs hframe
      rw [hfront]
      exact .inl (splitLoop_stuck hadd hleft hne hstuck (hsafe txs rest htxs hframe))

end Framing

theorem splitLoop_not_safe {pfx : Nat} {frame : List UInt8} (hpfx : pfx ≤ 8)
    (hlt : frame.length < 2 ^ 64) (hsafe : ¬Safe pfx frame) :
    splitLoop checkedAdd pfx frame 0 [] = none := by
  unfold Safe at hsafe
  push Not at hsafe
  obtain ⟨txs, rest, htxs, hframe, hsized⟩ := hsafe
  obtain ⟨pos, out, hleft, hfront⟩ := splitLoop_front exact_checkedAdd hpfx hlt htxs hframe
  rw [hfront]
  exact splitLoop_oversized hleft hsized

/-! ## All framings -/

/-- The framings that are tried, the first that fits and those before it, are safe. -/
def SafeFrom (frame : List UInt8) : List Nat → Prop
  | [] => True
  | pfx :: pfxs => Safe pfx frame ∧ (Run pfx frame ∨ SafeFrom frame pfxs)

section Framings

variable {frame : List UInt8} {pfxs : List Nat}

/-- While the framings are safe, both profiles return the same transactions. -/
theorem splitFrom_safe (hlt : frame.length < 2 ^ 64) (hpfxs : ∀ pfx ∈ pfxs, pfx ≤ 8)
    (hsafe : SafeFrom frame pfxs) : ∃ txs : List SignedTx,
      splitFrom checkedAdd frame pfxs = pure (txs.map SignedTx.bytes) ∧
      splitFrom wrappingAdd frame pfxs = pure (txs.map SignedTx.bytes) := by
  induction pfxs with
  | nil => exact ⟨[], rfl, rfl⟩
  | cons pfx pfxs ih =>
      obtain ⟨hpfx, hpfxs⟩ := List.forall_mem_cons.mp hpfxs
      obtain ⟨hfirst, hnext⟩ := hsafe
      by_cases hrun : Run pfx frame
      · obtain ⟨txs, hne, htxs, hframe⟩ := hrun
        rw [hframe] at hlt ⊢
        have hlen : ∀ tx ∈ txs, tx.bytes.length < 2 ^ 64 :=
          fun tx h => Nat.lt_of_le_of_lt (length_le_framed h) hlt
        exact ⟨txs, splitFrom_run exact_checkedAdd hpfx hne htxs hlen pfxs,
          splitFrom_run exact_wrappingAdd hpfx hne htxs hlen pfxs⟩
      · obtain ⟨txs, hchecked, hwrapping⟩ := ih hpfxs (hnext.resolve_left hrun)
        refine ⟨txs, ?_, ?_⟩
        · rw [splitFrom_next (splitLoop_not_run exact_checkedAdd hpfx hlt hfirst hrun), hchecked]
        · rw [splitFrom_next (splitLoop_not_run exact_wrappingAdd hpfx hlt hfirst hrun), hwrapping]

theorem splitFrom_not_safe (hlt : frame.length < 2 ^ 64) (hpfxs : ∀ pfx ∈ pfxs, pfx ≤ 8)
    (hsafe : ¬SafeFrom frame pfxs) : splitFrom checkedAdd frame pfxs = none := by
  induction pfxs with
  | nil => exact absurd trivial hsafe
  | cons pfx pfxs ih =>
      obtain ⟨hpfx, hpfxs⟩ := List.forall_mem_cons.mp hpfxs
      by_cases hfirst : Safe pfx frame
      · have hrun : ¬Run pfx frame := fun hrun => hsafe ⟨hfirst, .inl hrun⟩
        rw [splitFrom_next (splitLoop_not_run exact_checkedAdd hpfx hlt hfirst hrun),
          ih hpfxs fun hnext => hsafe ⟨hfirst, .inr hnext⟩]
      · rw [splitFrom, splitLoop_not_safe hpfx hlt hfirst]
        rfl

end Framings

/-- No addition overflows while the frame is split, and what is returned is as long as its own
header declares. -/
structure SplitExact (frame : List UInt8) : Prop where
  no_overflow : (splitTxs checkedAdd frame).isSome
  exact : ∀ txs, splitTxs wrappingAdd frame = pure txs → ∀ b ∈ txs,
    ∃ h : TxHeader, h.bytes <+: b ∧ b.length = h.declared

theorem prefixes_le : ∀ pfx ∈ prefixes, pfx ≤ 8 := by decide

theorem splitExact_iff (frame : Usize.Slice) :
    SplitExact frame.bytes ↔ SafeFrom frame.bytes prefixes := by
  have hlt : frame.bytes.length < 2 ^ 64 := Nat.lt_trans frame.length_lt (by decide)
  constructor
  · rintro ⟨hsome, -⟩
    by_contra hsafe
    rw [splitTxs, splitFrom_not_safe hlt prefixes_le hsafe] at hsome
    exact absurd hsome (by decide)
  · intro hsafe
    obtain ⟨txs, hchecked, hwrapping⟩ := splitFrom_safe hlt prefixes_le hsafe
    refine ⟨?_, ?_⟩
    · rw [splitTxs, hchecked]
      rfl
    · intro out hout b hb
      rw [splitTxs, hwrapping] at hout
      obtain rfl : txs.map SignedTx.bytes = out := hout
      obtain ⟨tx, -, rfl⟩ := List.mem_map.mp hb
      exact ⟨tx.front, tx.front_prefix, tx.length_bytes⟩

/-- **Lengths are exact** on the inputs whose headers declare less than 2^64 bytes, and on no
others. -/
theorem lengths_exact_iff (b : List UInt8) (frame : Usize.Slice) :
    (ItemExact b ↔ ¬OversizedItem b) ∧ (TxExact b ↔ ¬OversizedTx b) ∧
      (SplitExact frame.bytes ↔ SafeFrom frame.bytes prefixes) :=
  ⟨itemExact_iff b, txExact_iff b, splitExact_iff frame⟩

def oversized : List UInt8 := .replicate 9 0xFF

/-- The header, and a transaction made of its last byte and what follows it. -/
def oversizedFrame : List UInt8 := oversized ++ [0, 0, 0, 0, 0, 0, 0, 5, 1, 2, 3, 4, 5]

def oversizedHeader : Rlp.Header := .long true (.replicate 8 0xFF) (by decide) (by decide)

theorem oversized_item : OversizedItem oversized :=
  ⟨oversizedHeader, by decide, by decide⟩

theorem oversized_tx : OversizedTx oversized :=
  ⟨.legacy oversizedHeader rfl, by decide, by decide⟩

/-- The wrapped length is 8, and the 8 bytes cut off hold no whole header. -/
theorem oversized_not_exact : ¬ItemExact oversized ∧ ¬TxExact oversized ∧
    txLen wrappingAdd oversized = pure (some 8) ∧ ¬SplitExact oversizedFrame ∧
    ∃ rest, splitTxs wrappingAdd oversizedFrame = pure (List.replicate 8 0xFF :: rest) ∧
      ∀ h : TxHeader, ¬h.bytes <+: List.replicate 8 0xFF := by
  have hsplit : splitTxs wrappingAdd oversizedFrame =
      pure [List.replicate 8 0xFF, [0xFF, 0, 0, 0, 0, 0, 0, 0, 5, 1, 2, 3, 4, 5]] := by
    show Id.run (splitTxs wrappingAdd oversizedFrame) =
      [List.replicate 8 0xFF, [0xFF, 0, 0, 0, 0, 0, 0, 0, 5, 1, 2, 3, 4, 5]]
    decide +kernel
  have hcut : ∀ h : TxHeader, ¬h.bytes <+: List.replicate 8 0xFF := by
    intro h hb
    have hread := txLen_header exact_checkedAdd hb
    have hnone : txLen checkedAdd (List.replicate 8 0xFF) = some none := by decide
    rw [hnone] at hread
    cases hlen : addTxLen checkedAdd h <;> rw [hlen] at hread <;> cases hread
  refine ⟨fun h => (itemExact_iff _).mp h oversized_item,
    fun h => (txExact_iff _).mp h oversized_tx, rfl, ?_, _, hsplit, hcut⟩
  rintro ⟨-, hexact⟩
  obtain ⟨h, hb, -⟩ := hexact _ hsplit _ List.mem_cons_self
  exact hcut h hb

end FeedBench.WsRaw
