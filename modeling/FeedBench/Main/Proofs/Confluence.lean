import FeedBench.Main.Proofs.Rolling
import FeedBench.Main.Report
import FeedBench.Stats.Proofs.Completion
import FeedBench.Stats.Proofs.Confluence
import FeedBench.Stats.Proofs.Reorder

/-!
# The report does not depend on the interleaving

Whatever order the channel delivers the events of different sources in, the records come out the
same.  The window is another matter: it sees the order of the connects and disconnects, and no
more.  So two runs that take these in the same order end in the same report, up to the rolling
summaries.
-/

namespace FeedBench

open Lib Stats

variable {n : Nat}

namespace Stats.Collector

/-! ## Links -/

def links (c : Collector n) : Vector Bool n × List (Nat × Option Nat) := (c.connected, c.allUp)

def linkMove (v : Vector Bool n × List (Nat × Option Nat)) (e : Event n) :
    Vector Bool n × List (Nat × Option Nat) :=
  match e.payload with
  | .connected _ =>
      if v.1.get e.source then v
      else
        let up := v.1.set e.source true e.source.isLt
        (up, if up.toList.all id && !lastOpen v.2 then v.2 ++ [(e.t, none)] else v.2)
  | .disconnected _ =>
      if v.1.get e.source then (v.1.set e.source false e.source.isLt, closeLast v.2 e.t) else v
  | _ => v

theorem links_onEvent (c : Collector n) (e : Event n) :
    (c.onEvent e).1.links = if e.link.isSome then linkMove c.links e else c.links := by
  obtain ⟨s, t, p⟩ := e
  cases p with
  | block | tx => rfl
  | connected detail =>
      show (c.onConnected s t detail).1.links = linkMove c.links ⟨s, t, .connected detail⟩
      unfold onConnected linkMove links
      dsimp only
      by_cases hc : c.connected.get s = true
      · rw [if_pos hc, if_pos hc]
      · rw [if_neg hc, if_neg hc]
        unfold allConnected
        dsimp only
        split <;> rfl
  | disconnected reason =>
      show (c.onDisconnected s t reason).1.links = linkMove c.links ⟨s, t, .disconnected reason⟩
      unfold onDisconnected linkMove links
      dsimp only
      by_cases hc : c.connected.get s = true
      · rw [hc]
        rfl
      · rw [Bool.not_eq_true] at hc
        rw [hc]
        rfl

variable {c₀ : Collector n} {es es' : List (Event n)}

theorem links_run_eq
    (h : es.filter (fun e => e.link.isSome) = es'.filter fun e => e.link.isSome) :
    (c₀.run es).links = (c₀.run es').links := by
  have hview : ∀ es : List (Event n),
      (c₀.run es).links = (es.filter fun e => e.link.isSome).foldl linkMove c₀.links :=
    fun es => foldl_view links (fun c e => c.links_onEvent e) c₀ es
  rw [hview, hview, h]

/-! ## Blocks -/

theorem counts_run (h₀ : c₀.IsNew) {stop : Nat} (hstop : ∀ e ∈ es, e.t ≤ stop) {key : String}
    {r : BlockRec n} (hr : (c₀.run es).blocks.lookup key = some r) :
    (c₀.run es).counts none stop r =
      (decide (c₀.minSources ≤ r.seen) && (c₀.run es).inWindow r.first) := by
  rw [Bool.eq_iff_iff, counts_none_iff, Bool.and_eq_true, decide_eq_true_eq]
  constructor
  · rintro ⟨done, hdone, -, hin⟩
    refine ⟨?_, hin⟩
    exact (blockTally_run h₀ es key r hr).completed_iff.mp (by rw [hdone]; rfl)
  · rintro ⟨hseen, hin⟩
    obtain ⟨d, hd, hgreatest⟩ := completedAt_latest h₀ hr hseen
    obtain ⟨e, he, rfl⟩ := List.mem_map.mp (List.mem_of_mem_take hgreatest.1)
    have hmem : e.t ∈ r.stamps := (stamps_perm h₀ hr).mem_iff.mp (List.mem_map_of_mem he)
    obtain ⟨s, hs⟩ := mem_values_iff.mp hmem
    have hslot : firstOf (Event.isBlockFrom key s) Event.t es = some e.t := by
      rw [← blockSlot_run h₀, blockSlot, hr, Option.bind_some, hs]
    obtain ⟨e', he', ht⟩ := Option.map_eq_some_iff.mp hslot
    refine ⟨e.t, hd, ?_, hin⟩
    rw [← ht]
    exact hstop e' (List.mem_of_find?_eq_some he')

def BlockRec.settled (r : BlockRec n) : BlockRec n := { r with completedAt := none }

theorem counted_run (h₀ : c₀.IsNew) {stop : Nat} (hstop : ∀ e ∈ es, e.t ≤ stop) :
    (c₀.run es).counted none stop =
      (mapVals BlockRec.settled (c₀.run es).blocks).entries.filter fun e =>
        decide (c₀.minSources ≤ e.2.seen) && (c₀.run es).inWindow e.2.first := by
  unfold counted
  show _ = ((c₀.run es).blocks.entries.map fun e =>
    (⟨e.1, BlockRec.settled e.2⟩ : BlockEntry n)).filter _
  rw [List.filter_map]
  have hfilter : (c₀.run es).blocks.entries.filter
      (fun e => (c₀.run es).counts none stop e.2) =
      (c₀.run es).blocks.entries.filter fun e =>
        decide (c₀.minSources ≤ e.2.seen) && (c₀.run es).inWindow e.2.first := by
    apply List.filter_congr
    intro e he
    exact counts_run h₀ hstop (AList.mem_lookup_iff.mpr he)
  rw [hfilter]
  rfl

/-! ## The tables -/

theorem run_start (c : Collector n) (es : List (Event n)) : (c.run es).start = c.start := by
  have hstep : ∀ (c : Collector n) (e : Event n), (c.onEvent e).1.start = c.start := by
    intro c e
    simp only [onEvent, onConnected, onDisconnected, onBlock, onTx]
    repeat' split
    all_goals rfl
  induction es generalizing c with
  | nil => rfl
  | cons e es ih => exact (ih (c.onEvent e).1).trans (hstep c e)

theorem sameTxs_run (h₀ : c₀.IsNew) (hag : c₀.Agreeing es)
    (h : SameStreams Event.source es es')
    (hlinks : es.filter (fun e => e.link.isSome) = es'.filter fun e => e.link.isSome) :
    SameTxs (c₀.run es) (c₀.run es') := by
  have hup : (c₀.run es).allUp = (c₀.run es').allUp := congrArg Prod.snd (links_run_eq hlinks)
  refine ⟨?_, ?_, ?_, entries_perm_of_lookup (lookup_txs_eq h₀ hag h)⟩
  · rw [run_settings, run_settings]
  · rw [run_start, run_start]
  · unfold inWindow
    rw [hup, run_warmup, run_warmup]

theorem counted_perm (h₀ : c₀.IsNew) (hag : c₀.Agreeing es)
    (h : SameStreams Event.source es es')
    (hlinks : es.filter (fun e => e.link.isSome) = es'.filter fun e => e.link.isSome) {stop : Nat}
    (hstop : ∀ e ∈ es, e.t ≤ stop) :
    ((c₀.run es).counted none stop).Perm ((c₀.run es').counted none stop) := by
  have hstop' : ∀ e ∈ es', e.t ≤ stop := fun e he => hstop e (h.symm.subset he)
  rw [counted_run h₀ hstop, counted_run h₀ hstop', (sameTxs_run h₀ hag h hlinks).window]
  apply List.Perm.filter
  apply entries_perm_of_lookup
  intro key
  rw [lookup_mapVals, lookup_mapVals]
  exact lookup_blocks_eq h₀ hag h key

theorem sourceReport_eq (h : SameStreams Event.source es es') :
    Main.sourceReport (c₀.run es) = Main.sourceReport (c₀.run es') := by
  funext i
  have hlane : (c₀.run es).lane i = (c₀.run es').lane i := lane_run_eq h i
  simp only [lane, Lane.mk.injEq] at hlane
  obtain ⟨-, -, hreconnects, hdetails, htx, hblock, hwire, hraw⟩ := hlane
  unfold Main.sourceReport
  rw [run_sources, run_sources, hreconnects, hdetails, htx, hblock, hwire, hraw]

end Stats.Collector

namespace Main

open Stats.Collector

/-- **The report.** Two runs that take the same events of each source, and the connects and
disconnects in the same order, end in the same report, up to the rolling summaries. -/
theorem report_confluent (sources : Vector SourceInfo n) (reference : Fin n)
    (minSources warmup start interval stop : Nat) (interrupted : Bool) (turns turns' : List (Turn n))
    (h : SameStreams Event.source (received turns) (received turns'))
    (hlinks : (received turns).filter (fun e => e.link.isSome) =
      (received turns').filter fun e => e.link.isSome)
    (hag : (new sources reference minSources warmup start).Agreeing (received turns))
    (hstop : ∀ e ∈ received turns, e.t ≤ stop) :
    { ((init (new sources reference minSources warmup start)).run turns).report
        minSources interval stop interrupted with blockIntervals := [] } =
      { ((init (new sources reference minSources warmup start)).run turns').report
        minSources interval stop interrupted with blockIntervals := [] } := by
  have h₀ := isNew_new sources reference minSources warmup start
  unfold report reportIn
  simp only [col_run, init, windowSecondsIn_exact, blockSummaryIn_exact, txSummaryIn_exact,
    pairSummaryIn_exact]
  generalize new sources reference minSources warmup start = c₀ at *
  have htxs := sameTxs_run h₀ hag h hlinks
  have hblock := blockSummary_congr (by rw [run_sources, run_sources])
    (counted_perm h₀ hag h hlinks hstop) "whole run"
  have hwindow : (c₀.run (received turns)).windowSeconds stop =
      (c₀.run (received turns')).windowSeconds stop := by
    have hup : (c₀.run (received turns)).allUp = (c₀.run (received turns')).allUp :=
      congrArg Prod.snd (links_run_eq hlinks)
    unfold windowSeconds windowSecondsIn
    rw [hup, run_warmup, run_warmup]
  simp only [hblock, htxs.txSummary, htxs.pairSummary, sourceReport_eq h, hwindow, run_start,
    run_warmup, run_reference]

def raced : List (Turn 2) :=
  [.recv 1 ⟨official, 1, .connected "a"⟩, .recv 2 ⟨eira, 2, .connected "b"⟩,
    .recv 5 ⟨official, 5, .block "seq:7" (some 7) none (some 1) 512⟩,
    .recv 7 ⟨eira, 7, .block "seq:7" (some 7) none none 0⟩]

/-- The same, but the later delivery is taken first, and a summary is printed in between. -/
def swapped : List (Turn 2) :=
  [.recv 1 ⟨official, 1, .connected "a"⟩, .recv 2 ⟨eira, 2, .connected "b"⟩,
    .recv 7 ⟨eira, 7, .block "seq:7" (some 7) none none 0⟩, .tick 8,
    .recv 9 ⟨official, 5, .block "seq:7" (some 7) none (some 1) 512⟩]

theorem report_confluent_raced :
    { ((init (new twoSources 1 2 0 0)).run raced).report 2 (10 ^ 9) 10 false with
        blockIntervals := [] } =
      { ((init (new twoSources 1 2 0 0)).run swapped).report 2 (10 ^ 9) 10 false with
        blockIntervals := [] } := by
  have hevents : received raced =
      [⟨official, 1, .connected "a"⟩, ⟨eira, 2, .connected "b"⟩,
        ⟨official, 5, .block "seq:7" (some 7) none (some 1) 512⟩,
        ⟨eira, 7, .block "seq:7" (some 7) none none 0⟩] := rfl
  apply report_confluent twoSources 1 2 0 0 (10 ^ 9) 10 false
  · intro s
    fin_cases s <;> rfl
  · rfl
  · refine ⟨?_, ?_, ?_, ?_, ?_, ?_⟩
    · intro key s s' t hs hs' _
      by_cases hk : "seq:7" = key
      · subst hk
        fin_cases s <;> fin_cases s' <;>
          simp_all [firstOf, Event.isBlockFrom] <;> omega
      · fin_cases s <;> simp_all [firstOf, Event.isBlockFrom]
    all_goals
      intro key e he e' he' v w hv hw
      simp only [hevents, List.mem_cons, List.not_mem_nil, or_false] at he he'
      rcases he with rfl | rfl | rfl | rfl <;> rcases he' with rfl | rfl | rfl | rfl <;>
        simp_all [Event.seqFor, Event.hashFor, Event.countFor, Event.blockKeyFor, nitroCountFor,
          Event.txCountFor]
  · decide

end Main

end FeedBench
