import FeedBench.Stats.Proofs.Reorder
import FeedBench.Stats.Sighting

/-!
# The tables say what was measured

A record is a sighting with a count and a minimum kept beside it.  The tally of the record makes
these what the sighting says they are, so each column of a table is a column of the sightings.
-/

namespace FeedBench.Stats

open Lib

variable {n : Nat}

/-! ## Figures -/

theorem ms_sub {a b : Nat} (h : b ≤ a) : ms (a - b) = ((a : ℚ) - b) / 10 ^ 6 := by
  unfold ms secs
  rw [Nat.cast_sub h]
  ring

theorem signedMs_eq (a b : Nat) : signedMs a b = ((a : ℚ) - b) / 10 ^ 6 := by
  unfold signedMs
  split
  · next h => exact ms_sub h
  · next h =>
    rw [ms_sub (by omega)]
    ring

@[simp] theorem exact_pct (part whole : Nat) : Arith.exact.pct part whole = share part whole := by
  show pct part whole = share part whole
  unfold pct share
  split
  · next h => simp [h]
  · ring

@[simp] theorem exact_median (v : List ℚ) : Arith.exact.median (sorted v) = middle v := by
  show median (sorted v) = middle v
  unfold median middle
  simp only [sorted_length]
  split
  · next h => simp [List.length_eq_zero_iff.mp h, sorted]
  · split
    · next hodd =>
      have hmid : (v.length - 1) / 2 = v.length / 2 := by omega
      rw [hmid]
      ring
    · have hmid : (v.length - 1) / 2 = v.length / 2 - 1 := by omega
      rw [hmid]

namespace Sighting

variable {v : Sighting n} {seen first : Nat} (h : Tally v seen first)

include h

theorem first_of_tally : v.first = first := h.first_eq.symm

theorem seen_of_tally : v.seen = seen := h.seen_eq.symm

theorem isFirst_iff (i : Fin n) : v.IsFirst i ↔ v.get i = some first := by
  unfold IsFirst
  rw [first_of_tally h]

theorem toList_delay (i : Fin n) : (v.delay i).toList = delayAt v first i := by
  unfold delay delayAt
  rw [first_of_tally h]
  apply congrArg
  apply Option.map_congr
  intro a ha
  exact (ms_sub (h.first_le i a ha)).symm

end Sighting

theorem TxRec.leads_iff (r : TxRec n) (i : Fin n) :
    r.leads i = true ↔ Sighting.IsAhead r.arrivals i := by
  have hmin : ∀ o, r.others i = some o ↔
      (∃ j, j ≠ i ∧ r.arrivals.get j = some o) ∧
        ∀ j, j ≠ i → ∀ b ∈ r.arrivals.get j, o ≤ b := by
    intro o
    unfold TxRec.others
    rw [List.min?_eq_some_iff]
    simp only [List.mem_filterMap, List.mem_filter, List.mem_finRange, true_and,
      decide_eq_true_eq]
    apply and_congr_right
    intro _
    constructor
    · intro hle j hj b hb
      exact hle b ⟨j, hj, hb⟩
    · rintro hle b ⟨j, hj, hb⟩
      exact hle j hj b hb
  unfold TxRec.leads Sighting.IsAhead
  cases ha : r.arrivals.get i with
  | none => simp
  | some a =>
      cases ho : r.others i with
      | none =>
          simp only [Bool.false_eq_true, false_iff]
          rintro ⟨a', -, ⟨j, hj, hsome⟩, -⟩
          obtain ⟨b, hb⟩ := Option.isSome_iff_exists.mp hsome
          unfold TxRec.others at ho
          rw [List.min?_eq_none_iff, List.filterMap_eq_nil_iff] at ho
          have := ho j (by simp [hj])
          rw [hb] at this
          cases this
      | some o =>
          obtain ⟨⟨j, hj, hjo⟩, hle⟩ := (hmin o).mp ho
          rw [decide_eq_true_eq]
          constructor
          · intro hahead
            refine ⟨a, rfl, ⟨j, hj, by rw [hjo]; rfl⟩, ?_⟩
            intro k hk b hb
            exact hahead.trans (hle k hk b hb)
          · rintro ⟨a', ha', -, hall⟩
            rw [Option.some.inj ha']
            exact hall j hj o hjo

namespace Collector

variable {c : Collector n}

def scope (c : Collector n) : Scope := ⟨c.inWindow, c.minSources⟩

/-! ## Transactions -/

section Txs

variable (hc : c.Tallied) {vs : List (Sighting n)}
  (hvs : (c.txs.entries.map fun e => e.2.arrivals).Perm vs)

include hc hvs

/-- A count of records is a count of sightings. -/
theorem countP_txs (p : TxRec n → Bool) (q : Sighting n → Bool)
    (h : ∀ r, Tally r.arrivals r.seen r.first → p r = q r.arrivals) :
    (c.txs.entries.countP fun e => p e.2) = vs.countP q := by
  rw [← hvs.countP_eq, List.countP_map]
  apply List.countP_congr
  intro e he
  rw [h e.2 (hc.txs e he)]
  rfl

theorem countP_inside (p : TxRec n → Bool) (q : Sighting n → Bool)
    (h : ∀ r, Tally r.arrivals r.seen r.first → p r = q r.arrivals) :
    (c.txs.entries.countP fun e => c.inWindow e.2.first && p e.2) =
      (c.scope.inside vs).countP q := by
  rw [Scope.inside, List.countP_filter]
  apply countP_txs hc hvs fun r => c.inWindow r.first && p r
  intro r hr
  rw [h r hr, Sighting.first_of_tally hr, Bool.and_comm]
  rfl

theorem countP_matched (p : TxRec n → Bool) (q : Sighting n → Bool)
    (h : ∀ r, Tally r.arrivals r.seen r.first → p r = q r.arrivals) :
    (c.txs.entries.countP fun e => c.isMatched e.2 && p e.2) =
      (c.scope.matched vs).countP q := by
  rw [Scope.matched, List.countP_filter, Scope.inside, List.countP_filter]
  apply countP_txs hc hvs fun r => c.isMatched r && p r
  intro r hr
  rw [h r hr, Sighting.first_of_tally hr, Sighting.seen_of_tally hr]
  unfold isMatched scope
  ac_rfl

theorem txTable_total_eq : c.txTable.total = (c.scope.inside vs).length := by
  have hcount := countP_inside hc hvs (fun _ => true) (fun _ => true) fun _ _ => rfl
  rw [txTable_total, ← List.countP_true]
  simpa only [Bool.and_true] using hcount

theorem txTable_matched_eq : c.txTable.matched = (c.scope.matched vs).length := by
  have hcount := countP_matched hc hvs (fun _ => true) (fun _ => true) fun _ _ => rfl
  rw [txTable_matched, ← List.countP_true]
  simpa only [Bool.and_true, isMatched] using hcount

theorem txTable_lags_perm (i : Fin n) : (c.txTable.lags.get i).Perm (c.scope.delays vs i) := by
  have hdelays : c.scope.delays vs i = vs.flatMap fun v =>
      if c.scope.minSources ≤ v.seen && c.scope.window v.first then (v.delay i).toList else [] := by
    unfold Scope.delays Scope.matched Scope.inside
    rw [List.filter_filter, List.filterMap_filter, List.filterMap_eq_flatMap_toList]
    apply List.flatMap_congr
    intro v _
    rw [apply_ite Option.toList]
    rfl
  rw [txTable_lags_eq, hdelays]
  refine List.Perm.trans (List.Perm.of_eq ?_) (hvs.flatMap_right _)
  rw [List.flatMap_map]
  apply List.flatMap_congr
  intro e he
  have hr := hc.txs e he
  rw [Sighting.first_of_tally hr, Sighting.seen_of_tally hr, Sighting.toList_delay hr,
    Bool.and_comm]
  rfl

theorem txSummary_line (i : Fin n) :
    c.txSummary.perSource[(i : Nat)]? = some (c.scope.txLine vs (c.sources.get i).name i) := by
  have hseen : c.txTable.seen.get i =
      (c.scope.inside vs).countP fun v => (v.get i).isSome := by
    rw [txTable_seen]
    exact countP_inside hc hvs (fun r => (r.arrivals.get i).isSome) _ fun _ _ => rfl
  have hfirst : c.txTable.first.get i = (c.scope.matched vs).countP fun v => v.IsFirst i := by
    rw [txTable_first]
    apply countP_matched hc hvs fun r => decide (r.arrivals.get i = some r.first)
    intro r hr
    exact decide_eq_decide.mpr (Sighting.isFirst_iff hr i).symm
  have hahead : c.txTable.first1ms.get i =
      (c.scope.matched vs).countP fun v => v.IsAhead i := by
    rw [txTable_first1ms]
    apply countP_matched hc hvs fun r => r.leads i
    intro r _
    rw [Bool.eq_iff_iff, decide_eq_true_eq]
    exact r.leads_iff i
  have hlags := sorted_eq_of_perm (txTable_lags_perm hc hvs i)
  unfold txSummary txSummaryIn
  dsimp only
  rw [List.getElem?_map, List.getElem?_eq_getElem (by simp), List.getElem_finRange,
    Option.map_some]
  unfold Scope.txLine
  simp only [Fin.cast_mk, Fin.eta, map_exact, hseen, hfirst, hahead, hlags, txTable_total_eq hc hvs,
    txTable_matched_eq hc hvs, exact_pct]

end Txs

/-! ## Blocks -/

section Blocks

variable {entries : List (BlockEntry n)} (i : Fin n)
  (htally : ∀ e ∈ entries, Tally e.2.arrivals e.2.seen e.2.first ∧
    e.2.arrivals.get e.2.firstSrc = some e.2.first)

include htally

/-- The winner of a block was first, and who was first alone has won. -/
theorem countP_firstSrc :
    (entries.map fun e => (e.2.arrivals : Sighting n)).countP (fun v => v.IsSoleFirst i) ≤
        entries.countP (fun e => e.2.firstSrc = i) ∧
      entries.countP (fun e => e.2.firstSrc = i) ≤
        (entries.map fun e => (e.2.arrivals : Sighting n)).countP fun v => v.IsFirst i := by
  rw [List.countP_map, List.countP_map]
  constructor
  · apply List.countP_mono_left
    intro e he hsole
    obtain ⟨hr, hsrc⟩ := htally e he
    rw [Function.comp_apply, decide_eq_true_eq] at hsole
    rw [decide_eq_true_eq]
    exact hsole.2 _ ((Sighting.isFirst_iff hr _).mpr hsrc)
  · apply List.countP_mono_left
    intro e he hwon
    obtain ⟨hr, hsrc⟩ := htally e he
    rw [decide_eq_true_eq] at hwon
    rw [Function.comp_apply, decide_eq_true_eq, Sighting.isFirst_iff hr, ← hwon]
    exact hsrc

theorem flatMap_delays :
    (entries.flatMap fun e => delayAt e.2.arrivals e.2.first i) =
      (entries.map fun e => (e.2.arrivals : Sighting n)).filterMap fun v => v.delay i := by
  rw [List.filterMap_eq_flatMap_toList, List.flatMap_map]
  apply List.flatMap_congr
  intro e he
  rw [Sighting.toList_delay (htally e he).1]

end Blocks

end Collector

end FeedBench.Stats
