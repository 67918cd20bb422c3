import FeedBench.Stats.Proofs.Sighting
import FeedBench.Stats.Proofs.Sizes

/-!
# The pair tables say what was measured

`pair_summary` collects the differences by interval and by bucket as it goes.  What it ends up
with under a number is the rows of that number, and no figure made of them sees their order.
-/

namespace FeedBench.Stats

open Lib

variable {n : Nat}

/-! ## Figures of samples in any order -/

section Perm

variable {v v' : List ℚ} (h : v.Perm v')

include h

theorem middle_eq_of_perm : middle v = middle v' := by
  unfold middle
  rw [sorted_eq_of_perm h, h.length_eq]

theorem countAbove_eq_of_perm (bound : ℚ) : countAbove bound v = countAbove bound v' :=
  h.countP_eq _

end Perm

theorem countAbove_sorted (bound : ℚ) (v : List ℚ) :
    countAbove bound (sorted v) = countAbove bound v :=
  countAbove_eq_of_perm (List.mergeSort_perm v _) bound

section Rows

variable {rows rows' : List Row} {start interval : Nat}

/-! ## Intervals -/

theorem intervalLine_perm (h : rows.Perm rows') (k : Nat) :
    intervalLine start interval rows k = intervalLine start interval rows' k := by
  have hdiffs := (h.filter fun x => (x.first - start) / interval = k).map Row.diff
  unfold intervalLine
  simp only [hdiffs.length_eq, middle_eq_of_perm hdiffs, countAbove_eq_of_perm hdiffs]

theorem intervalLines_perm (h : rows.Perm rows') :
    intervalLines start interval rows = intervalLines start interval rows' := by
  have hnumbers := mergeSort_eq_of_perm (h.map fun x => (x.first - start) / interval).dedup
  unfold intervalLines
  rw [hnumbers]
  exact List.map_congr_left fun k _ => intervalLine_perm h k

theorem intervalStats_eq {k : Nat} {v : List ℚ}
    (h : (byInterval .exact start interval rows).lookup k = some v) :
    IntervalStats.of .exact interval k v = intervalLine start interval rows k := by
  unfold byInterval at h
  rw [lookup_group_collect] at h
  split at h
  · cases h
    have hstart : Arith.exact.intervalStart k interval = k * interval / 10 ^ 9 := by
      show (k : ℚ) * secs interval = _
      unfold secs
      ring
    unfold IntervalStats.of intervalLine
    simp only [sorted_length, exact_median, exact_pct, hstart]
    exact congrArg _ (congrArg (share · _) (countAbove_sorted 0 _))
  · cases h

theorem mem_byInterval (k : Nat) : k ∈ byInterval .exact start interval rows ↔
    k ∈ (rows.map fun x => (x.first - start) / interval).dedup := by
  unfold byInterval
  rw [← AList.lookup_isSome, lookup_group_collect, List.mem_dedup, List.mem_map]
  simp only [Option.isSome_ite, List.any_eq_true, decide_eq_true_eq]
  rfl

theorem intervals_eq : ((byInterval .exact start interval rows).entries.map fun e =>
      IntervalStats.of .exact interval e.1 e.2).mergeSort (fun a b => a.index ≤ b.index) =
    intervalLines start interval rows := by
  have hlines : ∀ k v, (byInterval .exact start interval rows).lookup k = some v →
      IntervalStats.of .exact interval k v = intervalLine start interval rows k :=
    fun _ _ => intervalStats_eq
  have hperm := entries_map_perm (IntervalStats.of .exact interval) (List.nodup_dedup _)
    mem_byInterval hlines
  rw [mergeSort_key_eq_of_perm IntervalStats.index hperm
    fun _ ha _ hb heq => interval_inj ha hb heq]
  unfold intervalLines
  refine (List.map_mergeSort fun k _ k' _ => ?_).symm
  simp [intervalLine]

/-! ## Buckets -/

theorem ofSize_perm (h : rows.Perm rows') (lo hi : Nat) :
    (ofSize rows lo hi).Perm (ofSize rows' lo hi) := h.filter _

theorem blockCount_perm (h : rows.Perm rows') : blockCount rows = blockCount rows' := by
  unfold blockCount
  rw [List.toFinset_eq_of_perm _ _ (h.filterMap _)]

theorem bucketLine_perm (h : rows.Perm rows') (size : String × Nat × Nat) :
    bucketLine rows size = bucketLine rows' size := by
  obtain ⟨label, lo, hi⟩ := size
  have hinside := ofSize_perm h lo hi
  have hdiffs := hinside.map Row.diff
  have hblocks : ∀ size : String × Nat × Nat, blockCount (ofSize rows size.2.1 size.2.2) =
      blockCount (ofSize rows' size.2.1 size.2.2) :=
    fun size => blockCount_perm (ofSize_perm h _ _)
  unfold bucketLine
  simp only [hblocks, hinside.length_eq, blockCount_perm hinside, hdiffs.length_eq,
    middle_eq_of_perm hdiffs, countAbove_eq_of_perm hdiffs, sorted_eq_of_perm hdiffs, h.countP_eq]

theorem bucketOf_eq_some_iff : ∀ x ∈ sizes.zipIdx, ∀ size : UInt32,
    bucketOf size = some x.2 ↔ x.1.2.1 ≤ size.toNat ∧ size.toNat ≤ x.1.2.2 := by
  intro x hx size
  have hlt := size.toNat_lt
  have hbucket : bucketOf size =
      if 1 ≤ size.toNat ∧ size.toNat ≤ 5 then some 0
      else if 6 ≤ size.toNat ∧ size.toNat ≤ 20 then some 1
      else if 21 ≤ size.toNat ∧ size.toNat ≤ 50 then some 2
      else if 51 ≤ size.toNat ∧ size.toNat ≤ 0xFFFF_FFFF then some 3
      else none := by
    simp only [bucketOf, buckets, List.findIdx?_cons, List.findIdx?_nil, UInt32.le_iff_toNat_le,
      UInt32.reduceToNat, Bool.and_eq_true, decide_eq_true_eq]
    split_ifs <;> rfl
  simp only [sizes, List.zipIdx_cons, List.zipIdx_nil, List.mem_cons, List.not_mem_nil,
    or_false] at hx
  rw [hbucket]
  rcases hx with rfl | rfl | rfl | rfl
  all_goals
    dsimp only
    split_ifs <;> simp <;> omega

theorem bucketRows_eq {x : (String × Nat × Nat) × Nat} (hx : x ∈ sizes.zipIdx) :
    bucketRows rows x.2 = ofSize rows x.1.2.1 x.1.2.2 := by
  unfold bucketRows ofSize
  apply List.filter_congr
  intro row _
  cases hsize : row.size with
  | none => rfl
  | some size =>
      rw [Option.bind_some, Option.any_some, Bool.eq_iff_iff, decide_eq_true_eq,
        bucketOf_eq_some_iff x hx, Bool.and_eq_true, decide_eq_true_eq, decide_eq_true_eq]

theorem blocksOf_eq (rows : List Row) : blocksOf rows = blockCount rows :=
  (List.card_toFinset _).symm

theorem sized_eq (rows : List Row) :
    ((List.range buckets.length).map fun b => (bucketRows rows b).length).sum =
      rows.countP fun x => x.size.any (0 < ·) := by
  have hlt : ∀ (x : Row) b, x.size.bind bucketOf = some b → b < buckets.length := by
    intro x b hb
    obtain ⟨size, -, hsize⟩ := Option.bind_eq_some_iff.mp hb
    exact bucketOf_lt hsize
  rw [List.countP_eq_length_filter]
  refine (sum_class_length hlt rows).trans (congrArg List.length (List.filter_congr ?_))
  intro x _
  cases hx : x.size with
  | none => rfl
  | some size =>
      rw [Option.bind_some, Option.any_some]
      by_cases hzero : size = 0
      · subst hzero
        rfl
      · rw [bucketOf_isSome hzero, eq_comm, decide_eq_true_eq]
        exact UInt32.pos_iff_ne_zero.mpr hzero

theorem bucketStats_eq {x : (String × Nat × Nat) × Nat} (hx : x ∈ sizes.zipIdx) {label : String}
    (hlabel : label ++ " txs" = x.1.1) :
    BucketStats.of .exact label (blocksOf (bucketRows rows x.2))
        (sizes.map fun (_, lo, hi) => blockCount (ofSize rows lo hi)).sum
        (rows.countP fun x => x.size.any (0 < ·)) (bucketRows rows x.2) =
      bucketLine rows x.1 := by
  rw [bucketRows_eq hx, blocksOf_eq]
  obtain ⟨⟨name, lo, hi⟩, b⟩ := x
  unfold BucketStats.of bucketLine
  simp only [hlabel, sorted_length, List.length_map, exact_median, exact_pct]
  exact congrArg _ (congrArg (share · _) (countAbove_sorted 0 _))

theorem buckets_eq (rows : List Row) :
    buckets.zipIdx.map (fun ((label, _, _), b) =>
      BucketStats.of .exact label (blocksOf (bucketRows rows b))
        ((List.range buckets.length).map fun b => blocksOf (bucketRows rows b)).sum
        ((List.range buckets.length).map fun b => (bucketRows rows b).length).sum
        (bucketRows rows b)) = sizes.map (bucketLine rows) := by
  have hblocks : ((List.range buckets.length).map fun b => blocksOf (bucketRows rows b)) =
      sizes.map fun (_, lo, hi) => blockCount (ofSize rows lo hi) := by
    calc (List.range buckets.length).map (fun b => blocksOf (bucketRows rows b))
        = sizes.zipIdx.map fun x => blocksOf (bucketRows rows x.2) := rfl
      _ = sizes.zipIdx.map fun x => blockCount (ofSize rows x.1.2.1 x.1.2.2) :=
          List.map_congr_left fun x hx => by rw [bucketRows_eq hx, blocksOf_eq]
      _ = sizes.map fun (_, lo, hi) => blockCount (ofSize rows lo hi) := rfl
  rw [hblocks, sized_eq]
  refine List.cons_eq_cons.mpr ⟨?_, List.cons_eq_cons.mpr ⟨?_, List.cons_eq_cons.mpr ⟨?_,
    List.cons_eq_cons.mpr ⟨?_, rfl⟩⟩⟩⟩
  · exact bucketStats_eq (x := (("1-5 txs", 1, 5), 0)) (by decide) (by decide)
  · exact bucketStats_eq (x := (("6-20 txs", 6, 20), 1)) (by decide) (by decide)
  · exact bucketStats_eq (x := (("21-50 txs", 21, 50), 2)) (by decide) (by decide)
  · exact bucketStats_eq (x := ((">50 txs", 51, 2 ^ 32 - 1), 3)) (by decide) (by decide)

/-! ## The table -/

theorem pairTable_perm (h : rows.Perm rows') (reference other sizeSource : String)
    (start interval : Nat) :
    pairTable reference other sizeSource start interval rows =
      pairTable reference other sizeSource start interval rows' := by
  have hdiffs := h.map Row.diff
  have hbuckets : bucketLine rows = bucketLine rows' := funext (bucketLine_perm h)
  unfold pairTable
  simp only [hdiffs.length_eq, middle_eq_of_perm hdiffs, sorted_eq_of_perm hdiffs,
    countAbove_eq_of_perm hdiffs, hdiffs.countP_eq, intervalLines_perm h, hbuckets]

end Rows

namespace Collector

variable (c : Collector n)

def sizeSource : String :=
  if c.nitroPresent then "nitro frame"
  else (c.sources.get c.reference).name ++ " per-block count"

theorem pairSummary_eq_pairTable (other : Fin n) (interval : Nat) :
    c.pairSummary other interval =
      pairTable (c.sources.get c.reference).name (c.sources.get other).name c.sizeSource c.start
        interval (c.rows other) := by
  have hcount : ∀ f : ℚ → Bool,
      ((c.rows other).countP fun x => f x.diff) = ((c.rows other).map Row.diff).countP f := by
    intro f
    rw [List.countP_map]
    rfl
  rw [pairSummary_rows]
  unfold pairSummaryOf pairTable
  dsimp only
  rw [intervals_eq, buckets_eq, hcount (0 < ·), hcount fun d => |d| ≤ 1, hcount (5 < ·),
    hcount (· < -5)]
  simp only [exact_pct, exact_median, List.length_map]
  rfl

def sizeOf (r : TxRec n) : Option UInt32 :=
  if c.nitroPresent then r.txCount.filter fun _ => r.blockFromNitro
  else r.blockKey.bind fun k => c.refCounts.lookup k

def sight (r : TxRec n) : TxSight n where
  arrivals := r.arrivals
  swap := r.syntheticSwap
  block := r.blockKey
  size := c.sizeOf r

variable {c} {txs : List (TxSight n)}
  (htxs : (c.txs.entries.map fun e => c.sight e.2).Perm txs)

include htxs

theorem arrivals_perm :
    (c.txs.entries.map fun e => (e.2.arrivals : Sighting n)).Perm (txs.map TxSight.arrivals) := by
  have hperm := htxs.map TxSight.arrivals
  rw [List.map_map] at hperm
  exact hperm

variable (hc : c.Tallied)

include hc

theorem rows_perm (other : Fin n) :
    (c.rows other).Perm (c.scope.pairRows txs c.reference other) := by
  have hrow : ∀ e ∈ c.txs.entries, c.row c.refCounts other e.2 =
      if c.scope.window (Sighting.first e.2.arrivals) then
        (Sighting.behind e.2.arrivals c.reference other).map fun d =>
          { diff := d
            first := Sighting.first e.2.arrivals
            block := (c.sight e.2).block
            size := (c.sight e.2).size }
      else none := by
    intro e he
    rw [Sighting.first_of_tally (hc.txs e he)]
    unfold row Sighting.behind scope
    cases e.2.arrivals.get c.reference with
    | none => simp
    | some a =>
        cases e.2.arrivals.get other with
        | none => simp
        | some b =>
            by_cases hin : c.inWindow e.2.first = true
            · simp only [hin, Bool.not_true, Bool.false_eq_true, if_false, if_true, signedMs_eq,
                Option.map_some]
              rfl
            · simp [hin]
  unfold Scope.pairRows
  rw [List.filterMap_filter]
  refine List.Perm.trans (List.Perm.of_eq ?_) (htxs.filterMap _)
  unfold rows
  rw [List.filterMap_map]
  exact List.filterMap_congr hrow

/-- **Pairs.** The table of a pair is the one that the transactions make. -/
theorem pairSummary_eq (other : Fin n) (interval : Nat) :
    c.pairSummary other interval =
      pairTable (c.sources.get c.reference).name (c.sources.get other).name c.sizeSource c.start
        interval (c.scope.pairRows txs c.reference other) := by
  rw [pairSummary_eq_pairTable, pairTable_perm (rows_perm htxs hc other)]

/-- **Transactions.** The table is the one that the transactions make. -/
theorem txSummary_eq :
    c.txSummary = c.scope.txTable txs fun i => (c.sources.get i).name := by
  have hperm := arrivals_perm htxs
  have hswaps : c.txSummary.syntheticSwaps = c.scope.swaps txs := by
    have hcount : (c.txs.entries.countP fun e => c.isMatched e.2 && e.2.syntheticSwap) =
        c.scope.swaps txs := by
      unfold Scope.swaps
      rw [← htxs.countP_eq, List.countP_map]
      apply List.countP_congr
      intro e he
      have hr := hc.txs e he
      rw [Function.comp_apply]
      show _ ↔ (e.2.syntheticSwap && c.scope.window (Sighting.first e.2.arrivals) &&
        decide (c.scope.minSources ≤ Sighting.seen e.2.arrivals)) = true
      rw [Sighting.first_of_tally hr, Sighting.seen_of_tally hr]
      unfold isMatched scope
      simp only [Bool.and_eq_true]
      tauto
    exact (txTable_swaps c).trans hcount
  have hlines : c.txSummary.perSource = (List.finRange n).map fun i =>
      c.scope.txLine (txs.map TxSight.arrivals) (c.sources.get i).name i := by
    apply List.ext_getElem?
    intro i
    by_cases hi : i < n
    · rw [txSummary_line hc hperm ⟨i, hi⟩]
      simp [hi]
    · simp [txSummary, txSummaryIn, hi]
  rw [Scope.txTable, ← hswaps, ← hlines, ← txTable_total_eq hc hperm,
    ← txTable_matched_eq hc hperm]
  rfl

end Collector

end FeedBench.Stats
