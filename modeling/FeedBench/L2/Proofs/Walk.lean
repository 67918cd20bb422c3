import FeedBench.L2.Checked
import FeedBench.L2.Proofs.Decode

/-!
# Walking hostile bytes

Whatever the lengths in a message say, `walk` stays inside it and no index overflows.  What
it finds lies in the input in order, each transaction behind its own kind byte, and cutting
a batch short only loses transactions at the end.
-/

namespace FeedBench.L2

open Lib Usize

/-! ## Where messages lie -/

structure LiesAt (all : List UInt8) (base : Nat) (l2 : List UInt8) : Prop where
  inside : base + l2.length ≤ all.length
  text : (all.drop base).take l2.length = l2

theorem LiesAt.refl (all : List UInt8) : LiesAt all 0 all where
  inside := by rw [Nat.zero_add]
  text := by rw [List.drop_zero, List.take_length]

variable {all l2 : List UInt8} {base lo mid hi : Nat}

theorem LiesAt.sub (h : LiesAt all base l2) {pos n : Nat} (hn : pos + n ≤ l2.length) :
    LiesAt all (base + pos) ((l2.drop pos).take n) := by
  have hinside := h.inside
  have hlen : ((l2.drop pos).take n).length = n := by
    rw [List.length_take, List.length_drop]
    omega
  refine ⟨by omega, ?_⟩
  calc (all.drop (base + pos)).take ((l2.drop pos).take n).length
      = (((all.drop base).take l2.length).drop pos).take n := by
        rw [hlen, List.drop_take, List.take_take, List.drop_drop, Nat.min_eq_left (by omega)]
    _ = (l2.drop pos).take n := by rw [h.text]

theorem LiesAt.head (h : LiesAt all base l2) {kind : UInt8} {body : List UInt8}
    (hl2 : l2 = kind :: body) : all[base]? = some kind := by
  have htext := congrArg List.head? h.text
  rw [hl2, List.head?_cons, List.length_cons, List.head?_take, if_neg (Nat.succ_ne_zero _),
    List.head?_drop] at htext
  exact htext

/-! ## What is found there -/

/-- The transactions `txs`, found in this order between `lo` and `hi`. -/
structure Found (all : List UInt8) (lo hi : Nat) (spans : List Span)
    (txs : List (List UInt8)) : Prop where
  texts : spans.map (Span.bytes all) = txs
  inside : ∀ p ∈ spans, lo < p.start ∧ 0 < p.len ∧ p.start + p.len ≤ hi
  marked : ∀ p ∈ spans, all[p.start - 1]? = some kindSignedTx
  ordered : spans.Pairwise fun p q => p.start + p.len ≤ q.start

namespace Found

theorem nil : Found all lo hi [] [] :=
  ⟨rfl, fun _ h => absurd h List.not_mem_nil, fun _ h => absurd h List.not_mem_nil, .nil⟩

theorem widen {spans : List Span} {txs : List (List UInt8)} {lo' hi' : Nat}
    (h : Found all lo hi spans txs) (hlo : lo' ≤ lo) (hhi : hi ≤ hi') :
    Found all lo' hi' spans txs where
  texts := h.texts
  inside p hp := by
    have hinside := h.inside p hp
    omega
  marked := h.marked
  ordered := h.ordered

theorem append {spans spans' : List Span} {txs txs' : List (List UInt8)}
    (h : Found all lo mid spans txs) (h' : Found all mid hi spans' txs') (hlo : lo ≤ mid)
    (hhi : mid ≤ hi) : Found all lo hi (spans ++ spans') (txs ++ txs') where
  texts := by rw [List.map_append, h.texts, h'.texts]
  inside p hp := by
    rcases List.mem_append.mp hp with hp | hp
    · exact (h.widen (Nat.le_refl lo) hhi).inside p hp
    · exact (h'.widen hlo (Nat.le_refl hi)).inside p hp
  marked p hp := by
    rcases List.mem_append.mp hp with hp | hp
    · exact h.marked p hp
    · exact h'.marked p hp
  ordered := by
    rw [List.pairwise_append]
    refine ⟨h.ordered, h'.ordered, ?_⟩
    intro p hp q hq
    have hleft := h.inside p hp
    have hright := h'.inside q hq
    omega

end Found

/-! ## The loop -/

section Loop

variable {walkAt : Nat → List UInt8 → Option (List Span)}
  {walk : List UInt8 → List (List UInt8)}

theorem entriesChecked_found (hall : all.length < 2 ^ 63)
    (hwalk : ∀ base sub, LiesAt all base sub → ∃ spans, walkAt base sub = some spans ∧
      Found all base (base + sub.length) spans (walk sub))
    (hl2 : LiesAt all base l2) (pos : Nat) (hpos : pos ≤ l2.length) :
    ∃ spans, entriesChecked walkAt base l2 pos = some spans ∧
      Found all (base + pos) (base + l2.length) spans (entries walk l2 pos) := by
  have hlen := hl2.inside
  induction hn : l2.length - pos using Nat.strongRecOn generalizing pos with
  | ind n ih =>
      have hbody : checkedAdd pos 8 = some (pos + 8) := checkedAdd_of_lt (by omega)
      rw [entriesChecked, entries]
      split
      · next hover => simp [hbody] at hover
      next body hbody' =>
      obtain rfl : body = pos + 8 := by simpa [hbody] using hbody'.symm
      by_cases hthere : pos + 8 ≤ l2.length
      · have hfield : slice l2 pos (pos + 8) = some ((l2.drop pos).take 8) := by
          rw [slice_of_le (by omega) hthere, Nat.add_sub_cancel_left]
        rw [if_pos hthere, if_pos hthere, hfield]
        dsimp only
        generalize Ws.beNat ((l2.drop pos).take 8) = len
        by_cases hcap : 16 * 2 ^ 20 < len
        · rw [if_pos hcap, if_pos (.inl hcap)]
          exact ⟨[], rfl, .nil⟩
        rw [if_neg hcap]
        have hstop : checkedAdd (pos + 8) len = some (pos + 8 + len) :=
          checkedAdd_of_lt (by omega)
        split
        · next hover => simp [hstop] at hover
        next stop hstop' =>
        obtain rfl : stop = pos + 8 + len := by simpa [hstop] using hstop'.symm
        by_cases hfits : l2.length < pos + 8 + len
        · rw [if_pos hfits, if_pos (.inr hfits)]
          exact ⟨[], rfl, .nil⟩
        have hsub : slice l2 (pos + 8) (pos + 8 + len) = some ((l2.drop (pos + 8)).take len) := by
          rw [slice_of_le (by omega) (by omega), Nat.add_sub_cancel_left]
        rw [if_neg hfits, if_neg (by omega), hsub]
        obtain ⟨here, hhere, hfound⟩ :=
          hwalk (base + (pos + 8)) ((l2.drop (pos + 8)).take len) (hl2.sub (by omega))
        obtain ⟨rest, hrest, hfound'⟩ := ih _ (by omega) (pos + 8 + len) (by omega) rfl
        refine ⟨here ++ rest, by simp [hhere, hrest], ?_⟩
        have hsize : ((l2.drop (pos + 8)).take len).length = len := by
          rw [List.length_take, List.length_drop]
          omega
        rw [hsize] at hfound
        exact (hfound.widen (by omega) (by omega)).append hfound' (by omega) (by omega)
      · rw [if_neg hthere, if_neg hthere]
        exact ⟨[], rfl, .nil⟩

end Loop

theorem found_signedTx {raw : List UInt8} (hl2 : LiesAt all base (kindSignedTx :: raw))
    (hraw : raw ≠ []) :
    Found all base (base + (kindSignedTx :: raw).length) [⟨base + 1, raw.length⟩] [raw] where
  texts := by
    have hlen : 1 + raw.length ≤ (kindSignedTx :: raw).length := by
      rw [List.length_cons]
      omega
    have hbody := hl2.sub hlen
    rw [List.drop_one, List.tail_cons, List.take_length] at hbody
    rw [List.map_singleton, Span.bytes, hbody.text]
  inside p hp := by
    obtain rfl := List.mem_singleton.mp hp
    have hpos := List.length_pos_iff.mpr hraw
    rw [List.length_cons]
    dsimp only
    omega
  marked p hp := by
    obtain rfl := List.mem_singleton.mp hp
    exact hl2.head rfl
  ordered := List.pairwise_singleton _ _

/-- Walking a message that lies in the input is safe, at any depth. -/
theorem walkChecked_found (hall : all.length < 2 ^ 63) (depth levels : Nat)
    (hdepth : depth + levels = 5) (base : Nat) (l2 : List UInt8) (hl2 : LiesAt all base l2) :
    ∃ spans, walkChecked depth base l2 = some spans ∧
      Found all base (base + l2.length) spans (walk levels l2) := by
  match l2, hl2 with
  | [], _ =>
      rw [walkChecked, walk_nil]
      exact ⟨[], rfl, .nil⟩
  | kind :: body, hl2 =>
      rw [walkChecked]
      by_cases hsigned : kind = kindSignedTx
      · subst hsigned
        rw [if_pos rfl, walk_signedTx]
        cases body with
        | nil => exact ⟨[], rfl, .nil⟩
        | cons b body =>
            refine ⟨_, ?_, found_signedTx hl2 (List.cons_ne_nil b body)⟩
            simp [slice]
      by_cases hbatch : kind = kindBatch
      · subst hbatch
        rw [if_neg hsigned, if_pos rfl]
        match levels with
        | 0 =>
            -- five batches enclose this one
            rw [if_pos (by omega), walk_batch_zero]
            exact ⟨[], rfl, .nil⟩
        | levels + 1 =>
            rw [if_neg (by omega), walk, if_neg hsigned, if_pos rfl]
            have hentry : ∀ base sub, LiesAt all base sub → ∃ spans,
                (if depth + 1 < 2 ^ 8 then walkChecked (depth + 1) base sub else none) =
                  some spans ∧ Found all base (base + sub.length) spans (walk levels sub) := by
              intro base sub hsub
              rw [if_pos (by omega)]
              exact walkChecked_found hall (depth + 1) levels (by omega) base sub hsub
            have hone : 1 ≤ (kindBatch :: body).length := by
              rw [List.length_cons]
              omega
            obtain ⟨spans, hspans, hfound⟩ := entriesChecked_found hall hentry hl2 1 hone
            exact ⟨spans, hspans, hfound.widen (by omega) (Nat.le_refl _)⟩
      · rw [if_neg hsigned, if_neg hbatch, walk_other levels body ⟨hsigned, hbatch⟩]
        exact ⟨[], rfl, .nil⟩
termination_by levels

/-! ## Truncation -/

/-- The entries that are all there in a message. -/
def completeEntries (l2 : List UInt8) : List (List UInt8) := be8.entries maxEntry l2.tail

theorem signedTxs_batch {l2 : List UInt8} (h : l2.head? = some kindBatch ∨ l2 = []) :
    signedTxs l2 = (completeEntries l2).flatMap (walk 4) := by
  rcases h with h | rfl
  · obtain ⟨body, rfl⟩ := List.head?_eq_some_iff.mp h
    exact walk_batch_succ 4 body
  · rw [completeEntries, List.tail_nil, LengthCode.entries_nil]
    exact walk_nil 5

theorem completeEntries_prefix {l2 l2' : List UInt8} (h : l2 <+: l2') :
    completeEntries l2 <+: completeEntries l2' := by
  apply LengthCode.entries_prefix
  cases l2 with
  | nil => exact List.nil_prefix
  | cons b l2 =>
      obtain ⟨rest, rfl⟩ := h
      exact List.prefix_append _ _

/-- **Walking is safe and invents nothing.** No index overflows and no slice is out of range;
the transactions lie in the input in order, not empty and apart, each behind its kind byte.
Of a batch cut short, those of the entries that are all there are left. -/
theorem signedTxs_safe (l2 : Usize.Slice) :
    (∃ spans, signedTxsChecked l2.bytes = some spans ∧
      spans.map (Span.bytes l2.bytes) = signedTxs l2.bytes ∧
      (∀ p ∈ spans, 0 < p.start ∧ 0 < p.len ∧ p.start + p.len ≤ l2.bytes.length ∧
        l2.bytes[p.start - 1]? = some 4) ∧
      spans.Pairwise fun p q => p.start + p.len ≤ q.start) ∧
    (l2.bytes.head? = some 3 → ∀ cut, cut <+: l2.bytes →
      signedTxs cut <+: signedTxs l2.bytes ∧
      completeEntries cut <+: completeEntries l2.bytes ∧
      signedTxs cut = (completeEntries cut).flatMap (walk 4)) := by
  constructor
  · obtain ⟨spans, hspans, hfound⟩ := walkChecked_found l2.length_lt 0 5 rfl 0 l2.bytes (.refl _)
    rw [Nat.zero_add] at hfound
    refine ⟨spans, hspans, hfound.texts, ?_, hfound.ordered⟩
    intro p hp
    obtain ⟨hstart, hlen, hstop⟩ := hfound.inside p hp
    exact ⟨hstart, hlen, hstop, hfound.marked p hp⟩
  · intro hkind cut hcut
    have hcutKind : cut.head? = some kindBatch ∨ cut = [] := by
      cases cut with
      | nil => exact .inr rfl
      | cons b cut =>
          obtain ⟨rest, hrest⟩ := hcut
          rw [← hrest] at hkind
          exact .inl hkind
    have hentries := completeEntries_prefix hcut
    have hcutTxs := signedTxs_batch hcutKind
    refine ⟨?_, hentries, hcutTxs⟩
    rw [hcutTxs, signedTxs_batch (.inl hkind)]
    obtain ⟨rest, hrest⟩ := hentries
    rw [← hrest, List.flatMap_append]
    exact List.prefix_append _ _

end FeedBench.L2
