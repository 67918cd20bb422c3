import FeedBench.Main.Text
import FeedBench.Proofs.Measured
import FeedBench.Proofs.UtcString
import FeedBench.Report.Proofs.ReadBack

/-!
# What is printed can be read

The report of a run and its rolling summaries are read back, if the names on the command line can
be cells and no text of the header has a line break.
-/

namespace FeedBench

open Stats

/-! ## The clock -/

namespace Report

theorem not_mem_zeroPad (width : Nat) (x : Int) : '\n' ∉ zeroPad width x := by
  have hsign : '\n' ∉ if x < 0 then ['-'] else [] := by
    split
    all_goals decide
  refine List.not_mem_append (List.not_mem_append hsign fun hmem => ?_) ?_
  · exact absurd (List.eq_of_mem_replicate hmem) (by decide)
  · exact not_mem_of_digits (all_isDigit_toDigits _) (by decide)

theorem not_mem_utc (y m d hour minute second : Int) : '\n' ∉ render y m d hour minute second := by
  have happend : ∀ {s t : List Char}, '\n' ∉ s → '\n' ∉ t → '\n' ∉ s ++ t := List.not_mem_append
  have hpad := not_mem_zeroPad
  unfold render
  iterate 11 apply happend
  all_goals first | exact hpad _ _ | decide

theorem exists_utcString {t : Int} (hmax : t / 1000000000 < 9223372036854775808) :
    ∃ s, utcString t = some s ∧ '\n' ∉ s := by
  have hsecs : ∃ secs : Int, (if t < 0 then 0 else I64.ofU64 (t / 1000000000).toNat) = secs ∧
      0 ≤ secs ∧ secs < 9223372036854775808 := by
    by_cases hneg : t < 0
    · exact ⟨0, if_pos hneg, by omega⟩
    · refine ⟨t / 1000000000, ?_, by omega⟩
      rw [if_neg hneg, I64.ofU64_of_lt (by omega)]
      omega
  obtain ⟨secs, heq, hpos, hlt⟩ := hsecs
  have hdays : 0 ≤ secs / 86400 ∧ secs / 86400 < 4611686018427387904 := by omega
  obtain ⟨date, hcivil, -⟩ := civilFromDays_date hdays.1 hdays.2
  unfold utcString
  simp only [heq, hcivil, Option.bind_eq_bind, Option.bind_some]
  exact ⟨_, rfl, not_mem_utc _ _ _ _ _ _⟩

end Report

/-! ## The details of the sources -/

namespace Stats.Collector

variable {n : Nat}

theorem details_move {P : String → Prop} {l : Lane} (h : P l.details) {e : Event n}
    (he : ∀ detail, e.payload = .connected detail → P detail) : P (l.move e).details := by
  unfold Lane.move
  cases hp : e.payload with
  | connected detail =>
      dsimp only
      split
      all_goals exact he detail hp
  | disconnected | block | tx => exact h

theorem details_onEvent {P : String → Prop} {c : Collector n} (h : ∀ i, P (c.details.get i))
    {e : Event n} (he : ∀ detail, e.payload = .connected detail → P detail) (i : Fin n) :
    P ((c.onEvent e).1.details.get i) := by
  have hlane := congrArg Lane.details (c.lane_onEvent e i)
  show P ((c.onEvent e).1.lane i).details
  rw [hlane]
  split
  · exact details_move (h i) he
  · exact h i

theorem details_run {P : String → Prop} {c : Collector n} {es : List (Event n)}
    (h : ∀ i, P (c.details.get i))
    (hes : ∀ e ∈ es, ∀ detail, e.payload = .connected detail → P detail) (i : Fin n) :
    P ((c.run es).details.get i) := by
  induction es generalizing c with
  | nil => exact h i
  | cons e es ih =>
      exact ih (fun i => details_onEvent h (hes e List.mem_cons_self) i)
        fun e' hmem => hes e' (List.mem_cons_of_mem e hmem)

end Stats.Collector

/-! ## The names of a report -/

namespace Main

open FeedBench.Report

variable {n : Nat}

theorem not_mem_toList_append {s t : String} (hs : '\n' ∉ s.toList) (ht : '\n' ∉ t.toList) :
    '\n' ∉ (s ++ t).toList := by
  rw [String.toList_append]
  exact List.not_mem_append hs ht

variable {A A' : Arith}

theorem pairNames_pairSummary {c : Collector n} (h : ∀ i, IsCell (c.sources.get i).name.toList)
    (other : Fin n) (interval : Nat) : PairNames (c.pairSummaryIn A other interval) where
  reference := h c.reference
  other := h other
  size_source := by
    show '\n' ∉ (if c.nitroPresent then "nitro frame"
      else (c.sources.get c.reference).name ++ " per-block count").toList
    split
    · decide
    · exact not_mem_toList_append (h c.reference).one_line (by decide)
  label := by
    intro b hb
    have hlabels : ∀ x ∈ Stats.buckets.zipIdx, IsCell (x.1.1 ++ " txs").toList := by decide
    obtain ⟨x, hx, rfl⟩ := List.mem_map.mp hb
    exact hlabels x hx

theorem tableNames_report {c : Collector n} (h : ∀ i, IsCell (c.sources.get i).name.toList)
    (blockIntervals : List BlockSummary) (minSources interval stop : Nat) (interrupted : Bool) :
    TableNames (reportIn A c blockIntervals minSources interval stop interrupted) where
  label := by
    show '\n' ∉ "whole run".toList
    decide
  block := forall_mem_map fun i _ => h i
  tx := forall_mem_map fun i _ => h i
  pair := forall_mem_map fun i _ => pairNames_pairSummary h i interval

theorem not_mem_fairnessNote : '\n' ∉ fairnessNote.toList := by
  unfold fairnessNote
  refine not_mem_toList_append (not_mem_toList_append (not_mem_toList_append
    (not_mem_toList_append ?_ ?_) ?_) ?_) ?_
  all_goals decide

/-! ## Rolling summaries -/

theorem not_mem_toString (k : Nat) : '\n' ∉ (toString k).toList := Text.not_mem_toString rfl

theorem not_mem_label (m : Main n) (now : Nat) : '\n' ∉ (m.label now).toList := by
  unfold label
  refine not_mem_toList_append (not_mem_toList_append (not_mem_toList_append
    (not_mem_toList_append ?_ (not_mem_toString _)) ?_) (not_mem_toString _)) ?_
  all_goals decide

/-- Every rolling summary of a run can be read back. -/
theorem readSummary_summariesIn {m : Main n} (h : ∀ i, IsCell (m.col.sources.get i).name.toList)
    (turns : List (Turn n)) : ∀ b ∈ m.summariesIn A turns,
      readSummary (renderBlockSummary b) = some (printedBlock b) := by
  induction turns generalizing m with
  | nil => exact List.forall_mem_nil _
  | cons turn turns ih =>
      cases turn with
      | recv now ev =>
          apply ih
          intro i
          show IsCell ((m.col.onEvent ev).1.sources.get i).name.toList
          rw [Collector.onEvent_sources]
          exact h i
      | tick now =>
          rw [summariesIn, List.forall_mem_cons]
          exact ⟨readSummary_renderBlockSummary (not_mem_label m now)
            (forall_mem_map fun i _ => h i), ih h⟩

/-! ## Counts -/

theorem countsOfBlock_blockSummaryIn (A A' : Arith) (c : Collector n) (label : String)
    (since : Option Nat) (til : Nat) : countsOfBlock (c.blockSummaryIn A label since til) =
      countsOfBlock (c.blockSummaryIn A' label since til) := by
  have hcount : ∀ (A : Arith) (v : List ℚ), (Percentiles.of (v.map A.sample)).n = v.length := by
    intro A v
    exact (sorted_length _).trans (List.length_map _)
  unfold countsOfBlock Collector.blockSummaryIn
  simp only [List.map_map, Function.comp_def, hcount]

theorem countsOfTx_txSummaryIn (c : Collector n) :
    countsOfTx (c.txSummaryIn A) = countsOfTx (c.txSummaryIn A') := by
  unfold countsOfTx Collector.txSummaryIn
  simp only [List.map_map, Function.comp_def]

theorem countsOfPair_pairSummaryIn (c : Collector n) (other : Fin n) (interval : Nat) :
    countsOfPair (c.pairSummaryIn A other interval) =
      countsOfPair (c.pairSummaryIn A' other interval) := by
  have hbucket : ∀ (A : Arith) (rows : List Row) (b : Nat),
      bucketRows (rows.map fun x => { x with diff := A.sample x.diff }) b =
        (bucketRows rows b).map fun x => { x with diff := A.sample x.diff } := by
    intro A rows b
    unfold bucketRows
    rw [List.filter_map]
    rfl
  have hblocks : ∀ (A : Arith) (rows : List Row),
      blocksOf (rows.map fun x => { x with diff := A.sample x.diff }) = blocksOf rows := by
    intro A rows
    unfold blocksOf
    rw [List.filterMap_map]
    rfl
  unfold countsOfPair Collector.pairSummaryIn Collector.pairSummaryOf BucketStats.of
  simp only [List.map_map, Function.comp_def, List.length_map, sorted_length, hbucket, hblocks]

theorem countsOfBlock_summariesIn (m : Main n) (turns : List (Turn n)) :
    (m.summariesIn A turns).map countsOfBlock = (m.summariesIn A' turns).map countsOfBlock := by
  induction turns generalizing m with
  | nil => rfl
  | cons turn turns ih =>
      cases turn with
      | recv now ev => exact ih _
      | tick now =>
          have hcounts := countsOfBlock_blockSummaryIn A A' m.col (m.label now)
            (some m.lastSummary) now
          rw [summariesIn, summariesIn, List.map_cons, List.map_cons, hcounts, ih]

namespace Program

/-! ## The report -/

theorem headerTexts_cover {p : Program} {stamp : Stamp} {host : Host} {startUtc endUtc : List Char}
    {h : Header} (htargets : ∀ i, '\n' ∉ (p.jobs.get i).place.target) (hhost : '\n' ∉ host.name)
    (hstart : '\n' ∉ startUtc) (hend : '\n' ∉ endUtc)
    (hsources : ∀ s ∈ h.sources, '\n' ∉ s.info.name.toList ∧ '\n' ∉ s.info.kind.toList ∧
      '\n' ∉ s.detail.toList) : HeaderTexts (p.cover stamp host startUtc endUtc) h where
  tool := by
    show '\n' ∉ "feedbench".toList
    decide
  version := by
    show '\n' ∉ "0.1.2".toList
    decide
  start_utc := hstart
  end_utc := hend
  hostname := hhost
  stamp := by
    show '\n' ∉ (stampText stamp).toList
    cases stamp with
    | arrival => decide
    | decoded => decide
  fairness_note := by
    dsimp only [cover]
    exact not_mem_fairnessNote
  place := by
    apply forall_mem_map
    intro job hjob
    obtain ⟨i, hi, rfl⟩ := Vector.mem_iff_getElem.mp (Vector.mem_toList_iff.mp hjob)
    refine ⟨htargets ⟨i, hi⟩, ?_⟩
    cases p.jobs[i] with
    | eira addr level =>
        show '\n' ∉ level.name.toList
        cases level with
        | received | processed | confirmed => decide
    | nitro src offer stamp => exact List.not_mem_nil
    | wsjson src stamp => exact List.not_mem_nil
    | wsraw src stamp => exact List.not_mem_nil
  source := hsources

theorem not_mem_kind (job : Job) : '\n' ∉ job.info.kind.toList := by
  cases job with
  | nitro => exact (by decide : '\n' ∉ "nitro".toList)
  | eira => exact (by decide : '\n' ∉ "eira".toList)
  | wsjson => exact (by decide : '\n' ∉ "wsjson".toList)
  | wsraw => exact (by decide : '\n' ∉ "wsraw".toList)

theorem sameCounts_printed (r : Main.Report) :
    (FeedBench.Report.printed r).SameCounts (tables r) where
  block := by
    show countsOfBlock (printedBlock r.block) = countsOfBlock r.block
    unfold countsOfBlock printedBlock
    rw [List.map_map]
    rfl
  tx := by
    show countsOfTx (printedTx r.tx) = countsOfTx r.tx
    unfold countsOfTx printedTx
    rw [List.map_map]
    rfl
  pairs := by
    show (r.pairs.map printedPair).map countsOfPair = r.pairs.map countsOfPair
    rw [List.map_map]
    apply List.map_congr_left
    intro pair _
    rw [Function.comp_apply]
    unfold countsOfPair printedPair
    rw [List.map_map]
    rfl

variable {p : Program} {start stop : Nat} {interrupted : Bool} {turns : List (Turn p.n)}

theorem sameCounts_printedReport :
    (FeedBench.Report.printed (p.printedReport start stop interrupted turns)).SameCounts
      (tables (((init (p.collector start)).run turns).report p.minSources p.interval stop
        interrupted)) where
  block := (sameCounts_printed _).block.trans (countsOfBlock_blockSummaryIn _ _ _ _ _ _)
  tx := (sameCounts_printed _).tx.trans (countsOfTx_txSummaryIn _)
  pairs := by
    refine (sameCounts_printed _).pairs.trans ?_
    show (List.map _ _).map countsOfPair = (List.map _ _).map countsOfPair
    rw [List.map_map, List.map_map]
    exact List.map_congr_left fun i _ => countsOfPair_pairSummaryIn _ i p.interval

theorem countsOfBlock_printedSummaries :
    (p.printedSummaries start turns).map (fun b => countsOfBlock (printedBlock b)) =
      ((init (p.collector start)).run turns).blockIntervals.map countsOfBlock := by
  have hprinted : ∀ b, countsOfBlock (printedBlock b) = countsOfBlock b := by
    intro b
    unfold countsOfBlock printedBlock
    rw [List.map_map]
    rfl
  simp only [hprinted]
  rw [summariesIn_exact]
  exact countsOfBlock_summariesIn _ turns

theorem headerTexts_printedReport (hnames : ∀ i, IsCell (p.jobs.get i).info.name.toList)
    (htargets : ∀ i, '\n' ∉ (p.jobs.get i).place.target) {host : Host} (hhost : '\n' ∉ host.name)
    (hdetails : ∀ e ∈ received turns, ∀ detail, e.payload = .connected detail →
      '\n' ∉ detail.toList) {startUtc endUtc : List Char} (hstart : '\n' ∉ startUtc)
    (hend : '\n' ∉ endUtc) (stamp : Stamp) :
    HeaderTexts (p.cover stamp host startUtc endUtc)
      (p.printedReport start stop interrupted turns).header := by
  have hcol : ((init (p.collector start)).run turns).col =
      (p.collector start).run (received turns) := col_run _ _
  have hsources : ∀ i, ((p.collector start).run (received turns)).sources.get i =
      (p.jobs.get i).info := by
    intro i
    rw [Collector.run_sources, ← sources_get]
    rfl
  have hdetail : ∀ i, '\n' ∉
      (((p.collector start).run (received turns)).details.get i).toList := by
    apply Collector.details_run (P := fun detail => '\n' ∉ detail.toList) _ hdetails
    intro i
    have hempty : (p.collector start).details.get i = "" := Vector.getElem_replicate i.isLt
    rw [hempty]
    exact List.not_mem_nil
  apply headerTexts_cover htargets hhost hstart hend
  apply forall_mem_map
  intro i _
  show '\n' ∉ (((init (p.collector start)).run turns).col.sources.get i).name.toList ∧
    '\n' ∉ (((init (p.collector start)).run turns).col.sources.get i).kind.toList ∧
    '\n' ∉ (((init (p.collector start)).run turns).col.details.get i).toList
  rw [hcol, hsources]
  exact ⟨(hnames i).one_line, not_mem_kind _, hdetail i⟩

/-- **The printed report.**  If the names of the sources can be cells and no target, no detail of a
connection and not the name of the host has a line break, every run ends with a text, and a
reader of it finds the tables of the report in doubles, every figure at the decimals it is printed
with, and with them the counts of the exact report.  The rolling summaries printed on the way are
read back as well. -/
theorem report_read (p : Program) (hnames : ∀ i, IsCell (p.jobs.get i).info.name.toList)
    (htargets : ∀ i, '\n' ∉ (p.jobs.get i).place.target) (host : Host) (hhost : '\n' ∉ host.name)
    (hstart : host.startWall / 1000000000 < 9223372036854775808)
    (hend : host.endWall / 1000000000 < 9223372036854775808) (stamp : Stamp) (start stop : Nat)
    (interrupted : Bool) (turns : List (Turn p.n))
    (hdetails : ∀ e ∈ received turns, ∀ detail, e.payload = .connected detail →
      '\n' ∉ detail.toList) :
    (∃ text, p.text stamp host (p.printedReport start stop interrupted turns) = some text ∧
      FeedBench.Report.read text =
        some (FeedBench.Report.printed (p.printedReport start stop interrupted turns))) ∧
    (FeedBench.Report.printed (p.printedReport start stop interrupted turns)).SameCounts
      (tables (((init (p.collector start)).run turns).report p.minSources p.interval stop
        interrupted)) ∧
    (∀ b ∈ p.printedSummaries start turns,
      readSummary (renderBlockSummary b) = some (printedBlock b)) ∧
    (p.printedSummaries start turns).map (fun b => countsOfBlock (printedBlock b)) =
      ((init (p.collector start)).run turns).blockIntervals.map countsOfBlock := by
  have hnew : ∀ i, IsCell ((init (p.collector start)).col.sources.get i).name.toList := by
    intro i
    show IsCell (p.sources.get i).name.toList
    rw [sources_get]
    exact hnames i
  have hcells : ∀ i,
      IsCell (((init (p.collector start)).run turns).col.sources.get i).name.toList := by
    intro i
    rw [col_run, Collector.run_sources]
    exact hnew i
  refine ⟨?_, sameCounts_printedReport, readSummary_summariesIn hnew turns,
    countsOfBlock_printedSummaries⟩
  obtain ⟨startUtc, hstartUtc, hstartLine⟩ := exists_utcString hstart
  obtain ⟨endUtc, hendUtc, hendLine⟩ := exists_utcString hend
  have hheader : HeaderTexts (p.cover stamp host startUtc endUtc)
      (p.printedReport start stop interrupted turns).header :=
    headerTexts_printedReport hnames htargets hhost hdetails hstartLine hendLine stamp
  refine ⟨_, ?_, read_render hheader (tableNames_report hcells _ _ _ _ _)⟩
  unfold text
  rw [hstartUtc, hendUtc]
  rfl

def pairTicks : List (Turn pairProgram.n) := pairTurns ++ [.tick 3000000000]

theorem report_read_pair :
    (∃ text, pairProgram.text .arrival ⟨"host".toList, 0, 4000000000⟩
        (pairProgram.printedReport 0 4000000000 false pairTicks) = some text ∧
      FeedBench.Report.read text =
        some (FeedBench.Report.printed (pairProgram.printedReport 0 4000000000 false pairTicks))) ∧
    (FeedBench.Report.printed (pairProgram.printedReport 0 4000000000 false pairTicks)).SameCounts
      (tables (((init (pairProgram.collector 0)).run pairTicks).report 2 (10 ^ 9) 4000000000
        false)) ∧
    (∀ b ∈ pairProgram.printedSummaries 0 pairTicks,
      readSummary (renderBlockSummary b) = some (printedBlock b)) ∧
    (pairProgram.printedSummaries 0 pairTicks).map (fun b => countsOfBlock (printedBlock b)) =
      ((init (pairProgram.collector 0)).run pairTicks).blockIntervals.map countsOfBlock := by
  have hnames : ∀ i, IsCell (pairProgram.jobs.get i).info.name.toList := by decide +kernel
  have htargets : ∀ i, '\n' ∉ (pairProgram.jobs.get i).place.target := by decide +kernel
  refine report_read pairProgram hnames htargets ⟨"host".toList, 0, 4000000000⟩ (by decide)
    (by decide) (by decide) .arrival 0 4000000000 false pairTicks ?_
  have hlines : ((received pairTicks).all fun e => match e.payload with
      | .connected detail => !detail.toList.contains '\n'
      | _ => true) = true := by decide +kernel
  intro e he detail hdetail
  have hline := List.all_eq_true.mp hlines e he
  rw [hdetail] at hline
  simpa using hline

end Program

end Main

end FeedBench
