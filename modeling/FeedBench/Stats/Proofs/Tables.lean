import FeedBench.Stats.Tables
import FeedBench.Stats.Proofs.RecordLaw
import Mathlib.Tactic.Ring

/-!
# The tables agree

The three summaries go over different maps with different filters.  What makes them agree
is the tally of each record: `seen` counts its filled slots and `first` is the least value
in them.  One lemma says what counting one more record does to a table.
-/

namespace FeedBench.Stats

open Lib

variable {n : Nat}

/-! ## Delays -/

/-- `x` is the exact difference `a - first` in milliseconds, and `a` is not the earlier. -/
structure IsDelay (first a : Nat) (x : ℚ) : Prop where
  first_le : first ≤ a
  eq : x = ((a : ℚ) - first) / 10 ^ 6
  nonneg : 0 ≤ x

theorem ms_nonneg (d : Nat) : 0 ≤ ms d := by
  unfold ms
  exact mul_nonneg (secs_nonneg d) (by norm_num)

theorem isDelay_ms {first a : Nat} (h : first ≤ a) : IsDelay first a (ms (a - first)) where
  first_le := h
  eq := by
    unfold ms secs
    rw [Nat.cast_sub h]
    ring
  nonneg := ms_nonneg _

theorem length_delays (arrival : Option Nat) (first : Nat) :
    ((arrival.map fun a => ms (a - first)).toList).length = arrival.isSome.toNat := by
  cases arrival with
  | none => rfl
  | some a => rfl

theorem isDelay_of_mem {arrivals : Vector (Option Nat) n} {seen first : Nat}
    (h : Tally arrivals seen first) {i : Fin n} {x : ℚ}
    (hx : x ∈ ((arrivals.get i).map fun a => ms (a - first)).toList) :
    ∃ a, arrivals.get i = some a ∧ IsDelay first a x := by
  obtain ⟨a, ha, rfl⟩ := Option.map_eq_some_iff.mp (Option.mem_toList.mp hx)
  exact ⟨a, ha, isDelay_ms (h.first_le i a ha)⟩

/-! ## The block table -/

namespace BlockTable

/-- Wins add up to the completed blocks, and a source has a delay for each block it won. -/
structure Consistent (minSources : Nat) (table : BlockTable n) : Prop where
  wins_sum : ∑ i, table.wins.get i = table.completed
  wins_le : ∀ i, table.wins.get i ≤ (table.samples.get i).length
  samples_le : ∀ i, (table.samples.get i).length ≤ table.completed
  enough : minSources * table.completed ≤ ∑ i, (table.samples.get i).length

variable (table : BlockTable n) (r : BlockRec n) (i : Fin n)

theorem add_wins : (table.add r).wins.get i =
    table.wins.get i + (decide (r.firstSrc = i)).toNat := by
  simp only [add, get_set]
  by_cases h : r.firstSrc = i
  · subst h
    simp
  · simp [h]

theorem add_samples : (table.add r).samples.get i = table.samples.get i ++
    ((r.arrivals.get i).map fun a => ms (a - r.first)).toList := by
  simp only [add, get_ofFn]
  cases r.arrivals.get i with
  | none => exact (List.append_nil _).symm
  | some a => rfl

theorem add_samples_length : ((table.add r).samples.get i).length =
    (table.samples.get i).length + (r.arrivals.get i).isSome.toNat := by
  rw [add_samples, List.length_append, length_delays]

theorem add_completed : (table.add r).completed = table.completed + 1 := rfl

variable {table r} {minSources : Nat}

theorem consistent_empty : (empty : BlockTable n).Consistent minSources where
  wins_sum := by simp [empty]
  wins_le i := by simp [empty]
  samples_le i := by simp [empty]
  enough := by simp [empty]

theorem Consistent.add (h : table.Consistent minSources) (hr : BlockTally minSources r)
    (hdone : r.completedAt.isSome) : (table.add r).Consistent minSources where
  wins_sum := by
    have hone : ∑ i, (decide (r.firstSrc = i)).toNat = 1 := by
      rw [Finset.sum_eq_single r.firstSrc]
      · simp
      · intro i _ hne
        simp [hne.symm]
      · simp
    simp only [add_wins, Finset.sum_add_distrib, h.wins_sum, hone, add_completed]
  wins_le i := by
    rw [add_wins, add_samples_length]
    apply Nat.add_le_add (h.wins_le i)
    by_cases hi : r.firstSrc = i
    · -- the winner has an arrival
      subst hi
      simp [hr.first_src]
    · simp [hi]
  samples_le i := by
    rw [add_samples_length, add_completed]
    exact Nat.add_le_add (h.samples_le i) (Bool.toNat_le _)
  enough := by
    have hseen : minSources ≤ ∑ i, (r.arrivals.get i).isSome.toNat := by
      rw [← hr.tally.seen_eq_sum]
      exact hr.completed_iff.mp hdone
    calc minSources * (table.add r).completed
        = minSources * table.completed + minSources := Nat.mul_succ _ _
      _ ≤ ∑ i, (table.samples.get i).length + ∑ i, (r.arrivals.get i).isSome.toNat :=
          Nat.add_le_add h.enough hseen
      _ = ∑ i, ((table.add r).samples.get i).length := by
          simp only [add_samples_length, Finset.sum_add_distrib]

end BlockTable

/-! ## The transaction table -/

namespace TxRec

variable {r : TxRec n} {i j : Fin n} {a o : Nat}

theorem others_le (h : r.others i = some o) (hj : j ≠ i) (ha : r.arrivals.get j = some a) :
    o ≤ a := by
  apply (List.min?_eq_some_iff.mp h).2
  rw [List.mem_filterMap]
  exact ⟨j, by simp [hj], ha⟩

theorem leads_spec (h : r.leads i = true) : ∃ a, r.arrivals.get i = some a ∧
    ∀ j b, j ≠ i → r.arrivals.get j = some b → a + oneMs ≤ b := by
  unfold leads at h
  split at h
  · next a o ha ho =>
    refine ⟨a, ha, fun j b hj hb => ?_⟩
    have := others_le ho hj hb
    have := of_decide_eq_true h
    omega
  · cases h

theorem leads_unique (hi : r.leads i = true) (hj : r.leads j = true) : i = j := by
  obtain ⟨a, ha, hother⟩ := leads_spec hi
  obtain ⟨b, hb, hother'⟩ := leads_spec hj
  by_contra hne
  have h₁ := hother j b (Ne.symm hne) hb
  have h₂ := hother' i a hne ha
  unfold oneMs at h₁ h₂
  omega

theorem leads_first (hr : Tally r.arrivals r.seen r.first) (h : r.leads i = true) :
    r.arrivals.get i = some r.first := by
  obtain ⟨a, ha, hother⟩ := leads_spec h
  obtain ⟨j, hj⟩ := hr.first_present
  by_cases hji : j = i
  · rw [← hji, hj]
  · have := hother j r.first hji hj
    have := hr.first_le i a ha
    unfold oneMs at *
    omega

end TxRec

namespace TxTable

structure Consistent (table : TxTable n) : Prop where
  matched_le : table.matched ≤ table.total
  first1ms_sum : ∑ i, table.first1ms.get i ≤ table.matched
  first_sum : table.matched ≤ ∑ i, table.first.get i
  first1ms_le : ∀ i, table.first1ms.get i ≤ table.first.get i
  first_le : ∀ i, table.first.get i ≤ (table.lags.get i).length
  lags_le : ∀ i, (table.lags.get i).length ≤ table.seen.get i
  seen_le : ∀ i, table.seen.get i ≤ table.total

variable (table : TxTable n) (r : TxRec n) (i : Fin n)

theorem addSeen_seen : (table.addSeen r).seen.get i =
    table.seen.get i + (r.arrivals.get i).isSome.toNat := by
  rw [addSeen, get_ofFn]

theorem addMatched_lags : (table.addMatched r).lags.get i = table.lags.get i ++
    ((r.arrivals.get i).map fun a => ms (a - r.first)).toList := by
  rw [addMatched, get_ofFn]

theorem addMatched_lags_length : ((table.addMatched r).lags.get i).length =
    (table.lags.get i).length + (r.arrivals.get i).isSome.toNat := by
  rw [addMatched_lags, List.length_append, length_delays]

theorem addMatched_first : (table.addMatched r).first.get i =
    table.first.get i + (decide (r.arrivals.get i = some r.first)).toNat := by
  rw [addMatched, get_ofFn]

theorem addMatched_first1ms : (table.addMatched r).first1ms.get i =
    table.first1ms.get i + (r.leads i).toNat := by
  rw [addMatched, get_ofFn]

variable {table r}

theorem consistent_empty : (empty : TxTable n).Consistent where
  matched_le := le_rfl
  first1ms_sum := by simp [empty]
  first_sum := by simp [empty]
  first1ms_le i := by simp [empty]
  first_le i := by simp [empty]
  lags_le i := by simp [empty]
  seen_le i := by simp [empty]

theorem Consistent.addSeen (h : table.Consistent) : (table.addSeen r).Consistent where
  matched_le := Nat.le_succ_of_le h.matched_le
  first1ms_sum := h.first1ms_sum
  first_sum := h.first_sum
  first1ms_le := h.first1ms_le
  first_le := h.first_le
  lags_le i := by
    rw [addSeen_seen]
    exact Nat.le_add_right_of_le (h.lags_le i)
  seen_le i := by
    rw [addSeen_seen]
    exact Nat.add_le_add (h.seen_le i) (Bool.toNat_le _)

theorem Consistent.addMatched (h : table.Consistent)
    (hr : Tally r.arrivals r.seen r.first) : ((table.addSeen r).addMatched r).Consistent where
  matched_le := Nat.succ_le_succ h.matched_le
  first1ms_sum := by
    simp only [addMatched_first1ms, Finset.sum_add_distrib]
    exact Nat.add_le_add h.first1ms_sum
      (sum_toNat_le_one fun _ _ hi hj => TxRec.leads_unique hi hj)
  first_sum := by
    simp only [addMatched_first, Finset.sum_add_distrib]
    exact Nat.add_le_add h.first_sum hr.one_le_sum
  first1ms_le i := by
    rw [addMatched_first1ms, addMatched_first]
    apply Nat.add_le_add (h.first1ms_le i)
    cases hlead : r.leads i with
    | false => exact Nat.zero_le _
    | true => simp [TxRec.leads_first hr hlead]
  first_le i := by
    rw [addMatched_first, addMatched_lags_length]
    apply Nat.add_le_add (h.first_le i)
    by_cases hi : r.arrivals.get i = some r.first
    · simp [hi]
    · simp [hi]
  lags_le i := by
    rw [addMatched_lags_length]
    show _ ≤ (table.addSeen r).seen.get i
    rw [addSeen_seen]
    exact Nat.add_le_add_right (h.lags_le i) _
  seen_le i := h.addSeen.seen_le i

end TxTable

/-! ## The loops -/

namespace Collector

structure Tallied (c : Collector n) : Prop where
  blocks : ∀ e ∈ c.blocks.entries, BlockTally c.minSources e.2
  txs : ∀ e ∈ c.txs.entries, Tally e.2.arrivals e.2.seen e.2.first

theorem tallied_run {c₀ : Collector n} (h₀ : c₀.IsNew) (es : List (Event n)) :
    (c₀.run es).Tallied where
  blocks e he := by
    rw [run_minSources]
    exact blockTally_run h₀ es e.1 e.2 (AList.mem_lookup_iff.mpr he)
  txs e he := txTally_run h₀ es e.1 e.2 (AList.mem_lookup_iff.mpr he)

variable {c : Collector n} {since : Option Nat} {til interval : Nat} {i : Fin n}

theorem completedAt_of_counts {r : BlockRec n} (h : c.counts since til r = true) :
    r.completedAt.isSome := by
  unfold counts at h
  split at h
  · cases h
  · next heq => rw [heq]; rfl

theorem blockTable_consistent (hc : c.Tallied) (since : Option Nat) (til : Nat) :
    (c.blockTable since til).Consistent c.minSources := by
  apply List.foldlRecOn c.blocks.entries _ BlockTable.consistent_empty
  intro table h e he
  split
  · next hcounts => exact h.add (hc.blocks e he) (completedAt_of_counts hcounts)
  · exact h

def BlockDelay (c : Collector n) (i : Fin n) (x : ℚ) : Prop :=
  ∃ key r a, c.blocks.lookup key = some r ∧ r.arrivals.get i = some a ∧ IsDelay r.first a x

def TxLag (c : Collector n) (i : Fin n) (x : ℚ) : Prop :=
  ∃ hash r a, c.txs.lookup hash = some r ∧ r.arrivals.get i = some a ∧ IsDelay r.first a x

theorem blockTable_delays (hc : c.Tallied) :
    ∀ x ∈ (c.blockTable since til).samples.get i, c.BlockDelay i x := by
  apply List.foldlRecOn c.blocks.entries _
    (motive := fun table : BlockTable n => ∀ x ∈ table.samples.get i, c.BlockDelay i x)
  · intro x hx
    simp [BlockTable.empty] at hx
  · intro table ih e he x hx
    split at hx
    · rw [BlockTable.add_samples, List.mem_append] at hx
      rcases hx with hx | hx
      · exact ih x hx
      · obtain ⟨a, ha, hdelay⟩ := isDelay_of_mem (hc.blocks e he).tally hx
        exact ⟨e.1, e.2, a, AList.mem_lookup_iff.mpr he, ha, hdelay⟩
    · exact ih x hx

theorem txTable_consistent (hc : c.Tallied) : c.txTable.Consistent := by
  apply List.foldlRecOn c.txs.entries _ TxTable.consistent_empty
  intro table h e he
  split
  · exact h
  · split
    · exact h.addSeen
    · exact h.addMatched (hc.txs e he)

theorem txTable_lags (hc : c.Tallied) : ∀ x ∈ c.txTable.lags.get i, c.TxLag i x := by
  apply List.foldlRecOn c.txs.entries _
    (motive := fun table : TxTable n => ∀ x ∈ table.lags.get i, c.TxLag i x)
  · intro x hx
    simp [TxTable.empty] at hx
  · intro table ih e he x hx
    split at hx
    · exact ih x hx
    · split at hx
      · exact ih x hx
      · rw [TxTable.addMatched_lags, List.mem_append] at hx
        rcases hx with hx | hx
        · exact ih x hx
        · obtain ⟨a, ha, hdelay⟩ := isDelay_of_mem (hc.txs e he) hx
          exact ⟨e.1, e.2, a, AList.mem_lookup_iff.mpr he, ha, hdelay⟩

/-! ## The transaction table against the pairs -/

theorem txTable_matched (c : Collector n) : c.txTable.matched =
    c.txs.entries.countP fun e => c.inWindow e.2.first && c.minSources ≤ e.2.seen := by
  have hstep : ∀ (table : TxTable n) (e : Sigma fun _ : Hash => TxRec n),
      (if !c.inWindow e.2.first then table
        else if e.2.seen < c.minSources then table.addSeen e.2
        else (table.addSeen e.2).addMatched e.2).matched =
      table.matched + (c.inWindow e.2.first && c.minSources ≤ e.2.seen).toNat := by
    intro table e
    cases c.inWindow e.2.first with
    | false => rfl
    | true =>
        by_cases hseen : e.2.seen < c.minSources
        · simp [hseen, TxTable.addSeen]
        · simp [hseen, Nat.not_lt.mp hseen, TxTable.addSeen, TxTable.addMatched]
  calc c.txTable.matched = 0 + _ := foldl_count TxTable.matched hstep TxTable.empty c.txs.entries
    _ = _ := Nat.zero_add _

theorem txTable_seen (c : Collector n) (i : Fin n) : c.txTable.seen.get i =
    c.txs.entries.countP fun e => c.inWindow e.2.first && (e.2.arrivals.get i).isSome := by
  have hstep : ∀ (table : TxTable n) (e : Sigma fun _ : Hash => TxRec n),
      (if !c.inWindow e.2.first then table
        else if e.2.seen < c.minSources then table.addSeen e.2
        else (table.addSeen e.2).addMatched e.2).seen.get i =
      table.seen.get i + (c.inWindow e.2.first && (e.2.arrivals.get i).isSome).toNat := by
    intro table e
    cases c.inWindow e.2.first with
    | false => rfl
    | true =>
        by_cases hseen : e.2.seen < c.minSources
        · simp [hseen, TxTable.addSeen_seen]
        · have hmatched : ((table.addSeen e.2).addMatched e.2).seen.get i =
              (table.addSeen e.2).seen.get i := rfl
          simp [hseen, hmatched, TxTable.addSeen_seen]
  calc c.txTable.seen.get i = (TxTable.empty : TxTable n).seen.get i + _ :=
        foldl_count (fun table => table.seen.get i) hstep TxTable.empty c.txs.entries
    _ = 0 + _ := by rw [TxTable.empty, get_replicate]
    _ = _ := Nat.zero_add _

/-- A transaction has a row when it is in the window and both sources delivered it. -/
theorem row_isSome (counts : AList fun _ : String => UInt32) (other : Fin n) (r : TxRec n) :
    (c.row counts other r).isSome = (c.inWindow r.first &&
      ((r.arrivals.get c.reference).isSome && (r.arrivals.get other).isSome)) := by
  unfold row
  cases r.arrivals.get c.reference with
  | none => cases c.inWindow r.first <;> rfl
  | some tr =>
      cases r.arrivals.get other with
      | none => cases c.inWindow r.first <;> rfl
      | some tt => cases c.inWindow r.first <;> simp

theorem pairSummary_n (other : Fin n) : (c.pairSummary other interval).n =
    c.txs.entries.countP fun e => c.inWindow e.2.first &&
      ((e.2.arrivals.get c.reference).isSome && (e.2.arrivals.get other).isSome) := by
  rw [pairSummary_rows]
  show (c.rows other).length = _
  rw [rows, List.length_filterMap_eq_countP]
  simp only [row_isSome]

theorem pairSummary_n_le (other : Fin n) : (c.pairSummary other interval).n ≤
    min (c.txTable.seen.get c.reference) (c.txTable.seen.get other) := by
  rw [pairSummary_n, txTable_seen, txTable_seen]
  apply le_min
  · apply List.countP_mono_left
    intro e _ he
    simp only [Bool.and_eq_true] at he ⊢
    exact ⟨he.1, he.2.1⟩
  · apply List.countP_mono_left
    intro e _ he
    simp only [Bool.and_eq_true] at he ⊢
    exact ⟨he.1, he.2.2⟩

theorem seen_all_iff {r : TxRec n} (hr : Tally r.arrivals r.seen r.first) :
    n ≤ r.seen ↔ ∀ s, (r.arrivals.get s).isSome := by
  have hle : r.arrivals.countP Option.isSome ≤ n := Vector.countP_le_size
  have hmem : (∀ a ∈ r.arrivals, a.isSome) ↔ ∀ s, (r.arrivals.get s).isSome := by
    constructor
    · intro h s
      exact h _ (Vector.getElem_mem s.isLt)
    · intro h a ha
      obtain ⟨i, hi, rfl⟩ := Vector.mem_iff_getElem.mp ha
      exact h ⟨i, hi⟩
  rw [← hmem, ← Vector.countP_eq_size, hr.seen_eq]
  omega

theorem matched_le_pair (hc : c.Tallied) (hall : c.minSources = n) (other : Fin n) :
    c.txTable.matched ≤ (c.pairSummary other interval).n := by
  rw [txTable_matched, pairSummary_n]
  apply List.countP_mono_left
  intro e he hmatched
  simp only [Bool.and_eq_true, decide_eq_true_eq] at hmatched ⊢
  have hslots := (seen_all_iff (hc.txs e he)).mp (hall.ge.trans hmatched.2)
  exact ⟨hmatched.1, hslots _, hslots _⟩

theorem matched_eq_pair {c : Collector 2} (hc : c.Tallied) (hmin : c.minSources = 2)
    {other : Fin 2} (hother : other ≠ c.reference) :
    c.txTable.matched = (c.pairSummary other interval).n := by
  rw [txTable_matched, pairSummary_n]
  apply List.countP_congr
  intro e he
  simp only [Bool.and_eq_true, decide_eq_true_eq, hmin]
  rw [seen_all_iff (hc.txs e he)]
  constructor
  · intro h
    exact ⟨h.1, h.2 _, h.2 _⟩
  · intro h
    refine ⟨h.1, fun s => ?_⟩
    have hs : s = c.reference ∨ s = other := by omega
    rcases hs with rfl | rfl
    · exact h.2.1
    · exact h.2.2

/-! ## The printed columns -/

theorem blockLine_of_onEvent {e : Event n} {cols : List Column}
    (h : (c.onEvent e).2 = some (.blockLine cols)) : ∃ key r,
      (c.onEvent e).1.blocks.lookup key = some r ∧ cols = r.line c.sources key := by
  obtain ⟨s, t, p⟩ := e
  cases p with
  | block key seq hash txCount wireLen =>
      refine ⟨key, c.blockAfter key s t seq hash txCount, ?_, ?_⟩
      · rw [lookup_blocks_onEvent]
        exact if_pos rfl
      · simp only [onEvent, onBlock] at h
        split at h
        · cases h
          rfl
        · cases h
  | tx => cases h
  | connected detail =>
      simp only [onEvent, onConnected] at h
      split at h <;> cases h
  | disconnected reason =>
      simp only [onEvent, onDisconnected] at h
      split at h <;> cases h

theorem delay_mem_line {r : BlockRec n} {sources : Vector SourceInfo n} {key : String} {d : Nat}
    (h : Column.delay d ∈ r.line sources key) :
    ∃ i a, r.arrivals.get i = some a ∧ d = a - r.first := by
  simp only [BlockRec.line, List.mem_append, List.mem_cons, reduceCtorEq, List.not_mem_nil,
    or_false, false_or, List.mem_map] at h
  obtain ⟨slot, hslot, heq⟩ := h
  obtain ⟨i, hi, rfl⟩ := Vector.mem_iff_getElem.mp (Vector.mem_toList_iff.mp hslot)
  cases ha : r.arrivals.get ⟨i, hi⟩ with
  | none =>
      have ha' : r.arrivals[i] = none := ha
      rw [ha'] at heq
      cases heq
  | some a =>
      have ha' : r.arrivals[i] = some a := ha
      rw [ha'] at heq
      cases heq
      exact ⟨⟨i, hi⟩, a, ha, rfl⟩

theorem line_delays {e : Event n} (hc : (c.onEvent e).1.Tallied) {cols : List Column}
    (hcols : (c.onEvent e).2 = some (.blockLine cols)) {d : Nat}
    (hd : Column.delay d ∈ cols) : ∃ key r i a, (c.onEvent e).1.blocks.lookup key = some r ∧
      r.arrivals.get i = some a ∧ r.first ≤ a ∧ (d : ℤ) = a - r.first := by
  obtain ⟨key, r, hr, rfl⟩ := blockLine_of_onEvent hcols
  obtain ⟨i, a, ha, rfl⟩ := delay_mem_line hd
  have hle := (hc.blocks ⟨key, r⟩ (AList.mem_lookup_iff.mp hr)).tally.first_le i a ha
  exact ⟨key, r, i, a, hr, ha, hle, Nat.cast_sub hle⟩

end Collector

/-! ## The law of the tables -/

structure BlockSummary.Consistent (minSources : Nat) (b : BlockSummary) : Prop where
  wins_sum : (b.perSource.map (·.wins)).sum = b.completed
  bounds : ∀ x ∈ b.perSource, x.wins ≤ x.delay.n ∧ x.delay.n ≤ b.completed
  enough : minSources * b.completed ≤ (b.perSource.map (·.delay.n)).sum

namespace Collector

theorem blockSummary_consistent {c : Collector n} (hc : c.Tallied) (label : String)
    (since : Option Nat) (til : Nat) :
    (c.blockSummary label since til).Consistent c.minSources := by
  have h := blockTable_consistent hc since til
  have hn : ∀ i, (Percentiles.of (((c.blockTable since til).samples.get i).map
      Arith.exact.sample)).n = ((c.blockTable since til).samples.get i).length := by
    intro i
    rw [map_exact]
    exact sorted_length _
  constructor
  · rw [blockSummary, blockSummaryIn, List.map_map]
    exact (Fin.sum_univ_def _).symm.trans h.wins_sum
  · intro x hx
    obtain ⟨i, -, rfl⟩ := List.mem_map.mp hx
    show _ ≤ (Percentiles.of _).n ∧ (Percentiles.of _).n ≤ _
    rw [hn]
    exact ⟨h.wins_le i, h.samples_le i⟩
  · rw [blockSummary, blockSummaryIn, List.map_map]
    refine h.enough.trans (le_of_eq ?_)
    rw [Fin.sum_univ_def]
    exact congrArg List.sum (List.map_congr_left fun i _ => (hn i).symm)

/-- What the tables of one collector promise each other. -/
structure TablesAgree (c : Collector n) : Prop where
  block : ∀ label since til, (c.blockSummary label since til).Consistent c.minSources
  tx : c.txTable.Consistent
  pair_le : ∀ other interval, (c.pairSummary other interval).n ≤
    min (c.txTable.seen.get c.reference) (c.txTable.seen.get other)
  matched_le : c.minSources = n → ∀ other interval,
    c.txTable.matched ≤ (c.pairSummary other interval).n
  matched_eq : n = 2 → c.minSources = 2 → ∀ other interval, other ≠ c.reference →
    c.txTable.matched = (c.pairSummary other interval).n
  delays : ∀ since til i, ∀ x ∈ (c.blockTable since til).samples.get i, c.BlockDelay i x
  lags : ∀ i, ∀ x ∈ c.txTable.lags.get i, c.TxLag i x
  columns : ∀ e cols d, (c.onEvent e).2 = some (.blockLine cols) → Column.delay d ∈ cols →
    ∃ key r i a, (c.onEvent e).1.blocks.lookup key = some r ∧ r.arrivals.get i = some a ∧
      r.first ≤ a ∧ (d : ℤ) = a - r.first

/-- **The tables.** After any events, in any order and with any stamps, they agree. -/
theorem tables_agree (sources : Vector SourceInfo n) (reference : Fin n) (minSources : Nat)
    (warmup start : Nat) (es : List (Event n)) :
    ((new sources reference minSources warmup start).run es).TablesAgree := by
  have h₀ := isNew_new sources reference minSources warmup start
  have hc := tallied_run h₀ es
  constructor
  · exact blockSummary_consistent hc
  · exact txTable_consistent hc
  · exact fun other interval => pairSummary_n_le other
  · exact fun hall other interval => matched_le_pair hc hall other
  · rintro rfl hmin other interval hother
    exact matched_eq_pair hc hmin hother
  · exact fun since til i => blockTable_delays hc
  · exact fun i => txTable_lags hc
  · intro e cols d hcols hd
    have hnext := tallied_run h₀ (es ++ [e])
    rw [run_append, run_cons, run_nil] at hnext
    exact line_delays hnext hcols hd

end Collector

end FeedBench.Stats
