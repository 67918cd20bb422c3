import FeedBench.Lib.OrderStat
import FeedBench.Lib.Renaming
import FeedBench.Stats.Proofs.Tables

/-!
# The report does not depend on the order of the records

A hash map hands its records out in an order of its own.  Each column of a table is a count over
the records or the samples of some of them, so that the order shows in no number of the report.
-/

namespace FeedBench.Stats

open Lib

variable {n : Nat}

theorem sorted_eq_of_perm {v v' : List ℚ} (h : v.Perm v') : sorted v = sorted v' :=
  mergeSort_eq_of_perm h

def delayAt (arrivals : Vector (Option Nat) n) (first : Nat) (i : Fin n) : List ℚ :=
  ((arrivals.get i).map fun a => ms (a - first)).toList

namespace Collector

variable (c : Collector n) (since : Option Nat) (til : Nat) (i : Fin n)

/-! ## The columns of the block table -/

abbrev BlockEntry (n : Nat) := Sigma fun _ : String => BlockRec n

/-- The blocks a summary counts, less the instants at which they were complete. -/
def counted : List (BlockEntry n) :=
  (c.blocks.entries.filter fun e => c.counts since til e.2).map fun e =>
    ⟨e.1, { e.2 with completedAt := none }⟩

theorem blockTable_eq : c.blockTable since til =
    (c.counted since til).foldl (fun table e => table.add e.2) .empty := by
  rw [counted, List.foldl_map, List.foldl_filter]
  rfl

theorem blockTable_completed :
    (c.blockTable since til).completed = (c.counted since til).length := by
  have hstep : ∀ (table : BlockTable n) (e : BlockEntry n),
      (table.add e.2).completed = table.completed + true.toNat := fun _ _ => rfl
  have hfold := foldl_count BlockTable.completed hstep BlockTable.empty (c.counted since til)
  rw [blockTable_eq, hfold, List.countP_true]
  exact Nat.zero_add _

theorem blockTable_wins : (c.blockTable since til).wins.get i =
    (c.counted since til).countP fun e => e.2.firstSrc = i := by
  have hfold := foldl_count (fun table : BlockTable n => table.wins.get i)
    (fun table (e : BlockEntry n) => BlockTable.add_wins table e.2 i)
    BlockTable.empty (c.counted since til)
  rw [blockTable_eq, hfold]
  simp [BlockTable.empty]

theorem blockTable_samples : (c.blockTable since til).samples.get i =
    (c.counted since til).flatMap fun e => delayAt e.2.arrivals e.2.first i := by
  have hfold := foldl_appends (fun table : BlockTable n => table.samples.get i)
    (fun table (e : BlockEntry n) => BlockTable.add_samples table e.2 i)
    BlockTable.empty (c.counted since til)
  rw [blockTable_eq, hfold]
  simp [BlockTable.empty, delayAt]

/-! ## The columns of the transaction table -/

abbrev TxEntry (n : Nat) := Sigma fun _ : Hash => TxRec n

def isMatched (r : TxRec n) : Bool := c.inWindow r.first && c.minSources ≤ r.seen

theorem txTable_total : c.txTable.total =
    c.txs.entries.countP fun e => c.inWindow e.2.first := by
  have hstep : ∀ (table : TxTable n) (e : TxEntry n),
      (if !c.inWindow e.2.first then table
        else if e.2.seen < c.minSources then table.addSeen e.2
        else (table.addSeen e.2).addMatched e.2).total =
        table.total + (c.inWindow e.2.first).toNat := by
    intro table e
    cases c.inWindow e.2.first with
    | false => rfl
    | true =>
        by_cases hlt : e.2.seen < c.minSources
        · simp [hlt, TxTable.addSeen]
        · simp [hlt, TxTable.addSeen, TxTable.addMatched]
  have hfold := foldl_count TxTable.total hstep TxTable.empty c.txs.entries
  rw [txTable, hfold]
  exact Nat.zero_add _

theorem txTable_count (view : TxTable n → Nat) {p : TxRec n → Bool}
    (hseen : ∀ table r, view (table.addSeen r) = view table)
    (hmatched : ∀ table r, view (table.addMatched r) = view table + (p r).toNat)
    (hempty : view .empty = 0) :
    view c.txTable = c.txs.entries.countP fun e => c.isMatched e.2 && p e.2 := by
  have hstep : ∀ (table : TxTable n) (e : TxEntry n),
      view (if !c.inWindow e.2.first then table
        else if e.2.seen < c.minSources then table.addSeen e.2
        else (table.addSeen e.2).addMatched e.2) =
        view table + (c.isMatched e.2 && p e.2).toNat := by
    intro table e
    unfold isMatched
    cases c.inWindow e.2.first with
    | false => rfl
    | true =>
        by_cases hlt : e.2.seen < c.minSources
        · simp [hlt, hseen]
        · simp [hlt, Nat.not_lt.mp hlt, hmatched, hseen]
  have hfold := foldl_count view hstep TxTable.empty c.txs.entries
  rw [txTable, hfold, hempty, Nat.zero_add]

theorem txTable_swaps : c.txTable.swaps =
    c.txs.entries.countP fun e => c.isMatched e.2 && e.2.syntheticSwap :=
  c.txTable_count TxTable.swaps (fun _ _ => rfl) (fun _ _ => rfl) rfl

theorem txTable_first : c.txTable.first.get i =
    c.txs.entries.countP fun e =>
      c.isMatched e.2 && decide (e.2.arrivals.get i = some e.2.first) :=
  c.txTable_count (fun table => table.first.get i) (fun _ _ => rfl)
    (fun table r => TxTable.addMatched_first table r i) (by simp [TxTable.empty])

theorem txTable_first1ms : c.txTable.first1ms.get i =
    c.txs.entries.countP fun e => c.isMatched e.2 && e.2.leads i :=
  c.txTable_count (fun table => table.first1ms.get i) (fun _ _ => rfl)
    (fun table r => TxTable.addMatched_first1ms table r i) (by simp [TxTable.empty])

theorem txTable_lags_eq : c.txTable.lags.get i =
    c.txs.entries.flatMap fun e =>
      if c.isMatched e.2 then delayAt e.2.arrivals e.2.first i else [] := by
  have hstep : ∀ (table : TxTable n) (e : TxEntry n),
      (if !c.inWindow e.2.first then table
        else if e.2.seen < c.minSources then table.addSeen e.2
        else (table.addSeen e.2).addMatched e.2).lags.get i =
        table.lags.get i ++ if c.isMatched e.2 then delayAt e.2.arrivals e.2.first i else [] := by
    intro table e
    unfold isMatched
    cases c.inWindow e.2.first with
    | false => simp
    | true =>
        by_cases hlt : e.2.seen < c.minSources
        · simp [hlt, Nat.not_le.mpr hlt, TxTable.addSeen]
        · simp only [hlt, Nat.not_lt.mp hlt, Bool.not_true, Bool.false_eq_true, if_false,
            decide_true, Bool.and_self, if_true]
          exact TxTable.addMatched_lags (table.addSeen e.2) e.2 i
  have hfold := foldl_appends (fun table : TxTable n => table.lags.get i) hstep
    TxTable.empty c.txs.entries
  rw [txTable, hfold]
  simp [TxTable.empty]

end Collector

/-! ## The rows of a pair -/

section Rows

variable {rows rows' : List Row} (h : rows.Perm rows')

include h

theorem bucketRows_perm (b : Nat) : (bucketRows rows b).Perm (bucketRows rows' b) := h.filter _

theorem blocksOf_perm : blocksOf rows = blocksOf rows' := ((h.filterMap _).dedup).length_eq

theorem diffs_perm : (rows.map Row.diff).Perm (rows'.map Row.diff) := h.map _

theorem bucketStats_perm (A : Arith) (label : String) (blocks sizedBlocks sizedTxs : Nat) :
    BucketStats.of A label blocks sizedBlocks sizedTxs rows =
      BucketStats.of A label blocks sizedBlocks sizedTxs rows' := by
  have hsorted := sorted_eq_of_perm (diffs_perm h)
  unfold BucketStats.of
  rw [hsorted]

theorem lookup_byInterval_perm (A : Arith) (start interval idx : Nat) :
    ((byInterval A start interval rows).lookup idx).map sorted =
      ((byInterval A start interval rows').lookup idx).map sorted := by
  unfold byInterval
  rw [lookup_group_collect, lookup_group_collect]
  have hany : rows.any (fun x => A.intervalOf (x.first - start) interval = idx) =
      rows'.any fun x => A.intervalOf (x.first - start) interval = idx := by
    rw [Bool.eq_iff_iff, List.any_eq_true, List.any_eq_true]
    simp only [h.mem_iff]
  rw [hany]
  split
  · rw [Option.map_some, Option.map_some]
    exact congrArg some (sorted_eq_of_perm ((h.filter _).map _))
  · rfl

theorem intervals_perm (A : Arith) (start interval : Nat) :
    ((byInterval A start interval rows).entries.map fun e =>
        IntervalStats.of A interval e.1 e.2).Perm
      ((byInterval A start interval rows').entries.map fun e =>
        IntervalStats.of A interval e.1 e.2) := by
  -- an interval is made of its sorted differences
  have hof : ∀ (idx : Nat) (v : List ℚ),
      IntervalStats.of A interval idx (sorted v) = IntervalStats.of A interval idx v := by
    intro idx v
    have hsorted : sorted (sorted v) = sorted v := sorted_eq_of_perm (List.mergeSort_perm v _)
    unfold IntervalStats.of
    rw [hsorted]
  have hview : ∀ m : AList fun _ : Nat => List ℚ,
      (m.entries.map fun e => IntervalStats.of A interval e.1 e.2) =
        (mapVals sorted m).entries.map fun e => IntervalStats.of A interval e.1 e.2 := by
    intro m
    show _ = (m.entries.map fun e => (⟨e.1, sorted e.2⟩ : Sigma fun _ : Nat => List ℚ)).map _
    rw [List.map_map]
    apply List.map_congr_left
    intro e _
    exact (hof e.1 e.2).symm
  rw [hview (byInterval A start interval rows), hview (byInterval A start interval rows')]
  apply List.Perm.map
  apply entries_perm_of_lookup
  intro idx
  rw [lookup_mapVals, lookup_mapVals]
  exact lookup_byInterval_perm h A start interval idx

end Rows

theorem interval_inj {A : Arith} {interval : Nat} {m : AList fun _ : Nat => List ℚ} {a b : IntervalStats}
    (ha : a ∈ m.entries.map fun e => IntervalStats.of A interval e.1 e.2)
    (hb : b ∈ m.entries.map fun e => IntervalStats.of A interval e.1 e.2)
    (h : a.index = b.index) : a = b := by
  obtain ⟨e, he, rfl⟩ := List.mem_map.mp ha
  obtain ⟨e', he', rfl⟩ := List.mem_map.mp hb
  have hkey : e.1 = e'.1 := Nat.succ.inj h
  have heq : e = e' := by
    obtain ⟨idx, v⟩ := e
    obtain ⟨idx', v'⟩ := e'
    dsimp only at hkey
    subst hkey
    rw [m.nodupKeys.eq_of_mk_mem he he']
  rw [heq]

namespace Collector

/-! ## The summaries -/

structure SameTxs (c c' : Collector n) : Prop where
  settings : c.settings = c'.settings
  start : c.start = c'.start
  window : c.inWindow = c'.inWindow
  txs : c.txs.entries.Perm c'.txs.entries

theorem blockSummary_congr {c c' : Collector n} {since since' : Option Nat} {til til' : Nat}
    (hsources : c.sources = c'.sources)
    (h : (c.counted since til).Perm (c'.counted since' til')) (label : String) :
    c.blockSummary label since til = c'.blockSummary label since' til' := by
  have hsorted : ∀ i, Percentiles.of ((c.blockTable since til).samples.get i) =
      Percentiles.of ((c'.blockTable since' til').samples.get i) := by
    intro i
    have hperm : ((c.blockTable since til).samples.get i).Perm
        ((c'.blockTable since' til').samples.get i) := by
      rw [blockTable_samples, blockTable_samples]
      exact h.flatMap_right _
    unfold Percentiles.of
    rw [sorted_eq_of_perm hperm]
  unfold blockSummary blockSummaryIn
  simp only [map_exact, blockTable_completed, blockTable_wins, h.length_eq, h.countP_eq, hsorted,
    hsources]

namespace SameTxs

variable {c c' : Collector n} (h : SameTxs c c')

include h

theorem txSummary : c.txSummary = c'.txSummary := by
  have hsources : c.sources = c'.sources := congrArg Settings.sources h.settings
  have hmin : c.minSources = c'.minSources := congrArg Settings.minSources h.settings
  have hmatched : c.isMatched = c'.isMatched := by
    unfold isMatched
    rw [h.window, hmin]
  have hsorted : ∀ i, sorted (c.txTable.lags.get i) = sorted (c'.txTable.lags.get i) := by
    intro i
    apply sorted_eq_of_perm
    rw [txTable_lags_eq, txTable_lags_eq, hmatched]
    exact h.txs.flatMap_right _
  have htotal : c.txTable.total = c'.txTable.total := by
    rw [txTable_total, txTable_total, h.window, h.txs.countP_eq]
  have hmatchedCount : c.txTable.matched = c'.txTable.matched := by
    rw [txTable_matched, txTable_matched, h.window, hmin, h.txs.countP_eq]
  have hswaps : c.txTable.swaps = c'.txTable.swaps := by
    rw [txTable_swaps, txTable_swaps, hmatched, h.txs.countP_eq]
  have hseen : ∀ i, c.txTable.seen.get i = c'.txTable.seen.get i := by
    intro i
    rw [txTable_seen, txTable_seen, h.window, h.txs.countP_eq]
  have hfirst : ∀ i, c.txTable.first.get i = c'.txTable.first.get i := by
    intro i
    rw [txTable_first, txTable_first, hmatched, h.txs.countP_eq]
  have hfirst1ms : ∀ i, c.txTable.first1ms.get i = c'.txTable.first1ms.get i := by
    intro i
    rw [txTable_first1ms, txTable_first1ms, hmatched, h.txs.countP_eq]
  unfold Collector.txSummary Collector.txSummaryIn
  simp only [map_exact, hsources, htotal, hmatchedCount, hswaps, hseen, hfirst, hfirst1ms, hsorted]

theorem refCounts (k : String) : c.refCounts.lookup k = c'.refCounts.lookup k := by
  have href : c.reference = c'.reference := congrArg Settings.reference h.settings
  have hnitro : c.nitroPresent = c'.nitroPresent := congrArg Settings.nitroPresent h.settings
  have hkey : c.refKey = c'.refKey := by
    unfold refKey
    rw [href]
  unfold Collector.refCounts
  rw [hnitro, hkey]
  split
  · rfl
  · exact lookup_group_perm _ _ _ _ (fun _ _ _ => rfl) (h.txs.filterMap _) k

theorem rows (other : Fin n) : (c.rows other).Perm (c'.rows other) := by
  have href : c.reference = c'.reference := congrArg Settings.reference h.settings
  have hnitro : c.nitroPresent = c'.nitroPresent := congrArg Settings.nitroPresent h.settings
  have hrow : ∀ r, c.row c.refCounts other r = c'.row c'.refCounts other r := by
    intro r
    unfold Collector.row
    simp only [href, hnitro, h.window, h.refCounts]
  unfold Collector.rows
  simp only [hrow]
  exact h.txs.filterMap _

theorem pairSummary (other : Fin n) (interval : Nat) :
    c.pairSummary other interval = c'.pairSummary other interval := by
  have hsources : c.sources = c'.sources := congrArg Settings.sources h.settings
  have href : c.reference = c'.reference := congrArg Settings.reference h.settings
  have hnitro : c.nitroPresent = c'.nitroPresent := congrArg Settings.nitroPresent h.settings
  have hrows := h.rows other
  have hsorted := sorted_eq_of_perm (diffs_perm hrows)
  have hbucket := fun b => bucketRows_perm hrows b
  have hintervals := mergeSort_key_eq_of_perm IntervalStats.index
    (intervals_perm hrows .exact c'.start interval) fun _ ha _ hb heq => interval_inj ha hb heq
  rw [Collector.pairSummary_rows, Collector.pairSummary_rows]
  unfold Collector.pairSummaryOf
  dsimp only
  rw [h.start, hintervals]
  simp only [hsources, href, hnitro, hrows.length_eq, hrows.countP_eq, hsorted,
    (hbucket _).length_eq, blocksOf_perm (hbucket _), bucketStats_perm (hbucket _)]

end SameTxs

end Collector

end FeedBench.Stats
