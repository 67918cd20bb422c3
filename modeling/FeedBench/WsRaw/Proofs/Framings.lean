import FeedBench.WsRaw.Proofs.Split

/-!
# The three framings

`split_txs` undoes each of them.  A length below `0xC00000` starts with a zero byte and a byte
that no list starts with, so a frame with length fields never passes for one with shorter ones.
-/

namespace FeedBench.WsRaw

open Usize Ws

section Untyped

variable {m : Type → Type} [Monad m] [LawfulMonad m] {add : Nat → Nat → m Nat} {pfx : Nat}
  {frame : List UInt8}

theorem splitLoop_untyped {b0 b1 : UInt8} {rest : List UInt8}
    (hdrop : frame.drop pfx = b0 :: b1 :: rest) (h0 : b0.toNat < 0x80) (h1 : b1.toNat < 0xC0) :
    splitLoop add pfx frame 0 [] = pure none := by
  have hlen := congrArg List.length hdrop
  rw [List.length_drop, List.length_cons] at hlen
  have hne : frame ≠ [] := by
    apply List.ne_nil_of_length_pos
    omega
  rw [splitLoop_eq List.drop_zero hne (by omega), hdrop, txLen_untyped h0 h1, pure_bind,
    Option.elim_none]

end Untyped

/-! ## Length fields -/

theorem beBytes_wider {width n : Nat} (hn : n < 256 ^ width) :
    beBytes (width + 1) n = 0 :: beBytes width n := by
  induction width generalizing n with
  | zero =>
      obtain rfl : n = 0 := by omega
      rfl
  | succ width ih =>
      have hdiv : n / 256 < 256 ^ width := by
        apply Nat.div_lt_of_lt_mul
        rwa [Nat.mul_comm, ← Nat.pow_succ]
      rw [beBytes, ih hdiv, List.cons_append]
      rfl

theorem beBytes_three {n : Nat} (hn : n < 0xC00000) :
    ∃ b tail, beBytes 3 n = b :: tail ∧ b.toNat < 0xC0 := by
  have hb : (UInt8.ofNat (n / 256 / 256 % 256)).toNat < 0xC0 := by
    rw [UInt8.toNat_ofNat']
    omega
  exact ⟨_, _, rfl, hb⟩

theorem beBytes_four {n : Nat} (hn : n < 0xC00000) :
    ∃ b tail, beBytes 4 n = 0 :: b :: tail ∧ b.toNat < 0xC0 := by
  obtain ⟨b, tail, hbytes, hb⟩ := beBytes_three hn
  refine ⟨b, tail, ?_, hb⟩
  rw [beBytes_wider (by omega), hbytes]

theorem beBytes_eight {n : Nat} (hn : n < 0xC00000) :
    beBytes 8 n = [0, 0, 0, 0] ++ beBytes 4 n := by
  rw [beBytes_wider (by omega), beBytes_wider (by omega), beBytes_wider (by omega),
    beBytes_wider (by omega)]
  rfl

/-! ## Frames -/

/-- The lengths that transactions are told apart by. -/
def Sized (tx : SignedTx) : Prop := 8 ≤ tx.bytes.length ∧ tx.bytes.length ≤ 0xBFFFFF

section Frames

variable {m : Type → Type} [Monad m] [LawfulMonad m] {add : Nat → Nat → m Nat}
  {txs : List SignedTx}

theorem lt_of_sized (htxs : ∀ tx ∈ txs, Sized tx) : ∀ tx ∈ txs, tx.bytes.length < 2 ^ 64 := by
  intro tx htx
  have := (htxs tx htx).2
  omega

/-- The length field of the first transaction. -/
theorem first_field (hne : txs ≠ []) (htxs : ∀ tx ∈ txs, Sized tx) : ∃ tx txs' b tail,
    txs = tx :: txs' ∧ tx.bytes.length < 0xC00000 ∧
      beBytes 4 tx.bytes.length = 0 :: b :: tail ∧ b.toNat < 0xC0 := by
  obtain ⟨tx, txs', rfl⟩ := List.exists_cons_of_ne_nil hne
  have hsmall : tx.bytes.length < 0xC00000 := by
    have := (htxs tx List.mem_cons_self).2
    omega
  obtain ⟨b, tail, hfield, hb⟩ := beBytes_four hsmall
  exact ⟨tx, txs', b, tail, rfl, hsmall, hfield, hb⟩

theorem splitTxs_plain (hadd : Exact add) (hne : txs ≠ []) (htxs : ∀ tx ∈ txs, Sized tx) :
    splitTxs add (framed 0 txs) = pure (txs.map SignedTx.bytes) := by
  apply splitFrom_run hadd (by omega) hne
  · intro tx htx
    exact ⟨(htxs tx htx).1, fun h => absurd h (Nat.lt_irrefl 0)⟩
  · exact lt_of_sized htxs

theorem framable {pfx : Nat} (hpfx : 3 ≤ pfx) (htxs : ∀ tx ∈ txs, Sized tx) :
    ∀ tx ∈ txs, Framable pfx tx := by
  intro tx htx
  obtain ⟨hlong, hshort⟩ := htxs tx htx
  refine ⟨hlong, fun _ => ?_⟩
  calc
    tx.bytes.length < 256 ^ 3 := by omega
    _ ≤ 256 ^ pfx := Nat.pow_le_pow_right (by decide) hpfx

theorem splitTxs_four (hadd : Exact add) (hne : txs ≠ []) (htxs : ∀ tx ∈ txs, Sized tx) :
    splitTxs add (framed 4 txs) = pure (txs.map SignedTx.bytes) := by
  obtain ⟨tx, txs', b, tail, htx, -, hfield, hb⟩ := first_field hne htxs
  have hplain : (framed 4 txs).drop 0 = 0 :: b :: (tail ++ tx.bytes ++ framed 4 txs') := by
    rw [htx, List.drop_zero, framed_cons, chunk, hfield]
    simp only [List.cons_append]
  rw [splitTxs, prefixes, splitFrom_next (.inl (splitLoop_untyped hplain (by decide) hb)),
    splitFrom_run hadd (by omega) hne (framable (by omega) htxs) (lt_of_sized htxs)]

theorem splitTxs_eight (hadd : Exact add) (hne : txs ≠ []) (htxs : ∀ tx ∈ txs, Sized tx) :
    splitTxs add (framed 8 txs) = pure (txs.map SignedTx.bytes) := by
  obtain ⟨tx, txs', b, tail, htx, hsmall, hfield, hb⟩ := first_field hne htxs
  have hframe : framed 8 txs =
      0 :: 0 :: 0 :: 0 :: 0 :: b :: (tail ++ tx.bytes ++ framed 8 txs') := by
    rw [htx, framed_cons, chunk, beBytes_eight hsmall, hfield]
    simp only [List.cons_append, List.nil_append]
  have hplain : splitLoop add 0 (framed 8 txs) 0 [] = pure none :=
    splitLoop_untyped hframe (by decide) (by decide)
  have hfour : splitLoop add 4 (framed 8 txs) 0 [] = pure none :=
    splitLoop_untyped (by rw [hframe]; rfl) (by decide) hb
  rw [splitTxs, prefixes, splitFrom_next (.inl hplain), splitFrom_next (.inl hfour),
    splitFrom_run hadd (by omega) hne (framable (by omega) htxs) (lt_of_sized htxs)]

end Frames

def SplitsTo (frame : List UInt8) (out : List (List UInt8)) : Prop :=
  splitTxs wrappingAdd frame = pure out ∧ splitTxs checkedAdd frame = pure out

/-- **Splitting undoes framing**: no length, a 4-byte length or an 8-byte length before each
transaction. -/
theorem splitTxs_framings (txs : List SignedTx) (hne : txs ≠ [])
    (htxs : ∀ tx ∈ txs, 8 ≤ tx.bytes.length ∧ tx.bytes.length ≤ 0xBFFFFF) :
    SplitsTo (txs.flatMap SignedTx.bytes) (txs.map SignedTx.bytes) ∧
      SplitsTo (txs.flatMap fun tx => beBytes 4 tx.bytes.length ++ tx.bytes)
        (txs.map SignedTx.bytes) ∧
      SplitsTo (txs.flatMap fun tx => beBytes 8 tx.bytes.length ++ tx.bytes)
        (txs.map SignedTx.bytes) :=
  ⟨⟨splitTxs_plain exact_wrappingAdd hne htxs, splitTxs_plain exact_checkedAdd hne htxs⟩,
    ⟨splitTxs_four exact_wrappingAdd hne htxs, splitTxs_four exact_checkedAdd hne htxs⟩,
    ⟨splitTxs_eight exact_wrappingAdd hne htxs, splitTxs_eight exact_checkedAdd hne htxs⟩⟩

def sampleTxs : List SignedTx :=
  [⟨.dynamicFee (.short true 9 (by decide)) rfl, .replicate 9 1, rfl⟩,
    ⟨.legacy (.long true [0, 9] (by decide) (by decide)) rfl, .replicate 9 2, rfl⟩]

theorem splitTxs_framings_sample :
    sampleTxs.map SignedTx.bytes =
      [[2, 0xC9, 1, 1, 1, 1, 1, 1, 1, 1, 1], [0xF9, 0, 9, 2, 2, 2, 2, 2, 2, 2, 2, 2]] ∧
    SplitsTo (sampleTxs.flatMap SignedTx.bytes) (sampleTxs.map SignedTx.bytes) ∧
    SplitsTo (sampleTxs.flatMap fun tx => beBytes 4 tx.bytes.length ++ tx.bytes)
      (sampleTxs.map SignedTx.bytes) ∧
    SplitsTo (sampleTxs.flatMap fun tx => beBytes 8 tx.bytes.length ++ tx.bytes)
      (sampleTxs.map SignedTx.bytes) :=
  ⟨by decide, splitTxs_framings sampleTxs (by decide) (by decide)⟩

end FeedBench.WsRaw
