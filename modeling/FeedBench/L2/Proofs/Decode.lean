import FeedBench.L2.Tree

/-!
# Decoding undoes encoding

`walk` on the bytes of a tree finds the transactions of the tree, less the batches it does
not enter.  An entry without transactions leaves its siblings alone.
-/

namespace FeedBench.L2

open Lib Ws

/-! ## One level of the walk -/

theorem entries_eq (walk : List UInt8 → List (List UInt8)) (l2 : List UInt8) (pos : Nat) :
    entries walk l2 pos = (be8.entries maxEntry (l2.drop pos)).flatMap walk := by
  induction hn : l2.length - pos using Nat.strongRecOn generalizing pos with
  | ind n ih =>
      have hlen : (l2.drop pos).length = l2.length - pos := List.length_drop
      rw [entries]
      by_cases hfield : pos + 8 ≤ l2.length
      · have hdrop : (l2.drop pos).drop 8 = l2.drop (pos + 8) := List.drop_drop
        have hbody : (l2.drop (pos + 8)).length = l2.length - (pos + 8) := List.length_drop
        have hthere : ¬(l2.drop pos).length < be8.width := by
          show ¬(l2.drop pos).length < 8
          omega
        rw [if_pos hfield, LengthCode.entries, if_neg hthere]
        show (if 16 * 2 ^ 20 < beNat ((l2.drop pos).take 8) ∨
            l2.length < pos + 8 + beNat ((l2.drop pos).take 8) then [] else _) =
          (if 16 * 2 ^ 20 < beNat ((l2.drop pos).take 8) ∨
            ((l2.drop pos).drop 8).length < beNat ((l2.drop pos).take 8) then []
          else ((l2.drop pos).drop 8).take (beNat ((l2.drop pos).take 8)) ::
            be8.entries maxEntry
              (((l2.drop pos).drop 8).drop (beNat ((l2.drop pos).take 8)))).flatMap walk
        rw [hdrop, hbody, List.drop_drop]
        by_cases hfits : 16 * 2 ^ 20 < beNat ((l2.drop pos).take 8) ∨
          l2.length < pos + 8 + beNat ((l2.drop pos).take 8)
        · rw [if_pos hfits, if_pos (by omega)]
          rfl
        · rw [if_neg hfits, if_neg (by omega), List.flatMap_cons,
            ih _ (by omega) (pos + 8 + beNat ((l2.drop pos).take 8)) rfl]
      · have hshort : (l2.drop pos).length < be8.width := by
          show (l2.drop pos).length < 8
          omega
        rw [if_neg hfield, LengthCode.entries_of_short hshort]
        rfl

theorem walk_nil (levels : Nat) : walk levels [] = [] := by
  cases levels <;> rfl

theorem walk_signedTx (levels : Nat) (raw : List UInt8) :
    walk levels (kindSignedTx :: raw) = if raw = [] then [] else [raw] := by
  cases levels <;> cases raw <;> simp [walk]

theorem walk_batch_zero (body : List UInt8) : walk 0 (kindBatch :: body) = [] := by
  simp [walk, kindBatch, kindSignedTx]

theorem walk_batch_succ (levels : Nat) (body : List UInt8) :
    walk (levels + 1) (kindBatch :: body) =
      (be8.entries maxEntry body).flatMap (walk levels) := by
  have hkind : kindBatch ≠ kindSignedTx := by decide
  rw [walk, if_neg hkind, if_pos rfl]
  exact entries_eq (walk levels) (kindBatch :: body) 1

theorem walk_other (levels : Nat) {kind : UInt8} (body : List UInt8)
    (h : kind ≠ kindSignedTx ∧ kind ≠ kindBatch) : walk levels (kind :: body) = [] := by
  cases levels <;> rw [walk, if_neg h.1, if_neg h.2]

/-! ## Trees -/

namespace Tree

theorem encodeAll_eq (ts : List Tree) : encodeAll ts = (ts.map encode).flatMap be8.entry := by
  induction ts with
  | nil => rfl
  | cons t ts ih => rw [encodeAll, ih, List.map_cons, List.flatMap_cons]

theorem allFit_iff (ts : List Tree) :
    AllFit ts ↔ ∀ t ∈ ts, (encode t).length ≤ maxEntry ∧ Fits t := by
  induction ts with
  | nil => simp [AllFit]
  | cons t ts ih => rw [AllFit, ih, List.forall_mem_cons, and_assoc]

theorem entries_encodeAll {ts : List Tree} (h : AllFit ts) :
    be8.entries maxEntry (encodeAll ts) = ts.map encode := by
  rw [encodeAll_eq]
  apply LengthCode.entries_flatMap
  intro x hx
  obtain ⟨t, ht, rfl⟩ := List.mem_map.mp hx
  have hcap := ((allFit_iff ts).mp h t ht).1
  refine ⟨hcap, Nat.lt_of_le_of_lt hcap ?_⟩
  decide

mutual

/-- A message inside `enclosing` batches is walked with so many levels less. -/
theorem walk_encode (t : Tree) (enclosing : Nat) (hle : enclosing ≤ 5) (hfits : Fits t) :
    walk (5 - enclosing) (encode t) =
      if t.isBatch ∧ 5 ≤ enclosing then [] else txs (prune enclosing t) := by
  cases t with
  | signedTx raw => exact walk_signedTx _ raw
  | other kind body unknown => exact walk_other _ body unknown
  | empty => exact walk_nil _
  | batch subs =>
      by_cases hdeep : 5 ≤ enclosing
      · have hzero : 5 - enclosing = 0 := by omega
        rw [if_pos ⟨rfl, hdeep⟩, encode, hzero, walk_batch_zero]
      · have hsucc : 5 - enclosing = 5 - (enclosing + 1) + 1 := by omega
        rw [if_neg fun h => hdeep h.2, encode, hsucc, walk_batch_succ, entries_encodeAll hfits,
          walk_encodeAll subs (enclosing + 1) (by omega) hfits]
        rfl

theorem walk_encodeAll (ts : List Tree) (enclosing : Nat) (hle : enclosing ≤ 5)
    (hfits : AllFit ts) :
    (ts.map encode).flatMap (walk (5 - enclosing)) = txsOf (pruneAll enclosing ts) := by
  cases ts with
  | nil => rfl
  | cons t ts =>
      obtain ⟨-, ht, hts⟩ := hfits
      rw [List.map_cons, List.flatMap_cons, walk_encode t enclosing hle ht,
        walk_encodeAll ts enclosing hle hts, pruneAll]
      split
      · rfl
      · rfl

end

/-! ## Void entries -/

theorem void_txs {enclosing : Nat} {t : Tree} (h : Void enclosing t) :
    (if t.isBatch ∧ 5 ≤ enclosing then [] else txs (prune enclosing t)) = [] := by
  cases t with
  | signedTx raw =>
      have hraw : raw = [] := h
      simp [isBatch, prune, txs, hraw]
  | batch subs => exact if_pos ⟨rfl, h⟩
  | other | empty => rfl

theorem txsOf_pruneAll_cons (enclosing : Nat) (t : Tree) (ts : List Tree) :
    txsOf (pruneAll enclosing (t :: ts)) =
      (if t.isBatch ∧ 5 ≤ enclosing then [] else txs (prune enclosing t)) ++
        txsOf (pruneAll enclosing ts) := by
  rw [pruneAll]
  split <;> rfl

theorem Thinned.isBatch_eq {enclosing : Nat} {t t' : Tree} (h : Thinned enclosing t t') :
    t'.isBatch = t.isBatch := by
  cases h <;> rfl

mutual

theorem Thinned.txs_eq {enclosing : Nat} {t t' : Tree} (h : Thinned enclosing t t') :
    txs (prune enclosing t') = txs (prune enclosing t) :=
  match h with
  | .same _ _ => rfl
  | .batch hs => AllThinned.txsOf_eq hs

theorem AllThinned.txsOf_eq {enclosing : Nat} {ts ts' : List Tree}
    (h : AllThinned enclosing ts ts') :
    txsOf (pruneAll enclosing ts') = txsOf (pruneAll enclosing ts) :=
  match h with
  | .nil _ => rfl
  | .keep h hs => by
      rw [txsOf_pruneAll_cons, txsOf_pruneAll_cons, AllThinned.txsOf_eq hs, Thinned.txs_eq h,
        h.isBatch_eq]
  | .drop h hs => by
      rw [txsOf_pruneAll_cons, void_txs h, AllThinned.txsOf_eq hs, List.nil_append]

end

mutual

theorem Thinned.fits {enclosing : Nat} {t t' : Tree} (h : Thinned enclosing t t')
    (hfits : Fits t) : (encode t').length ≤ (encode t).length ∧ Fits t' :=
  match h with
  | .same _ _ => ⟨Nat.le_refl _, hfits⟩
  | .batch hs => by
      obtain ⟨hlen, hfits'⟩ := AllThinned.fits hs hfits
      refine ⟨?_, hfits'⟩
      rw [encode, encode, List.length_cons, List.length_cons]
      omega

theorem AllThinned.fits {enclosing : Nat} {ts ts' : List Tree}
    (h : AllThinned enclosing ts ts') (hfits : AllFit ts) :
    (encodeAll ts').length ≤ (encodeAll ts).length ∧ AllFit ts' :=
  match h with
  | .nil _ => ⟨Nat.le_refl _, hfits⟩
  | .keep h hs => by
      obtain ⟨hcap, ht, hts⟩ := hfits
      obtain ⟨hlen, ht'⟩ := Thinned.fits h ht
      obtain ⟨hlens, hts'⟩ := AllThinned.fits hs hts
      refine ⟨?_, Nat.le_trans hlen hcap, ht', hts'⟩
      rw [encodeAll, encodeAll, List.length_append, List.length_append,
        LengthCode.length_entry, LengthCode.length_entry]
      omega
  | .drop _ hs => by
      obtain ⟨-, -, hts⟩ := hfits
      obtain ⟨hlens, hts'⟩ := AllThinned.fits hs hts
      refine ⟨?_, hts'⟩
      rw [encodeAll, List.length_append]
      omega

end

/-! ## The law -/

theorem signedTxs_encode (t : Tree) (h : Fits t) : signedTxs (encode t) = txs (prune 0 t) := by
  have hwalk := walk_encode t 0 (by omega) h
  rwa [if_neg (by simp)] at hwalk

/-- **Decoding undoes encoding.** What is found in the bytes of a tree are its transactions,
less those of batches below five enclosing ones, and removing entries that hold none, wherever
they are, changes nothing. -/
theorem signedTxs_roundTrip (t : Tree) (h : Fits t) :
    signedTxs (encode t) = txs (prune 0 t) ∧
      ∀ t', Thinned 0 t t' → signedTxs (encode t') = signedTxs (encode t) := by
  refine ⟨signedTxs_encode t h, ?_⟩
  intro t' hthinned
  rw [signedTxs_encode t h, signedTxs_encode t' (hthinned.fits h).2, hthinned.txs_eq]

def sample : Tree :=
  .batch [.signedTx [2, 0xC1, 7], .other 6 [] (by decide), .batch [.signedTx [0xC1, 9]]]

theorem sample_fits : Fits sample := by
  simp [sample, Fits, AllFit, encode, encodeAll, maxEntry, be8]

theorem signedTxs_roundTrip_sample :
    txs (prune 0 sample) = [[2, 0xC1, 7], [0xC1, 9]] ∧
      signedTxs (encode sample) = txs (prune 0 sample) ∧
      ∀ t', Thinned 0 sample t' → signedTxs (encode t') = signedTxs (encode sample) :=
  ⟨by decide, signedTxs_roundTrip sample sample_fits⟩

end Tree

end FeedBench.L2
