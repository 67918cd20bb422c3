import FeedBench.Main.Proofs.Confluence
import FeedBench.Proofs.Adapters
import FeedBench.Stats.Proofs.Attribution
import FeedBench.Ws.Proofs.Connect

/-!
# The report says what was delivered

From the command line to the tables: what a program reports is what its sources delivered.  The
adapters convey their deliveries, the channel keeps the order of each, the records keep the first
arrival at each source, and the tables count the records.
-/

namespace FeedBench

open Lib Stats

variable {n : Nat}

/-! ## Counters -/

namespace Stats

theorem toNat_move (l : Lane) (e : Event n) :
    (l.move e).txEvents.toNat = (l.txEvents.toNat + e.tx.toList.length) % 2 ^ 64 ∧
      (l.move e).rawTxBytes.toNat =
        (l.rawTxBytes.toNat + (e.tx.toList.map fun tx => tx.2.toNat).sum) % 2 ^ 64 := by
  have hsame : l.txEvents.toNat = (l.txEvents.toNat + 0) % 2 ^ 64 ∧
      l.rawTxBytes.toNat = (l.rawTxBytes.toNat + 0) % 2 ^ 64 := by
    have htx := l.txEvents.toNat_lt
    have hraw := l.rawTxBytes.toNat_lt
    omega
  obtain ⟨s, t, p⟩ := e
  cases p with
  | block => exact hsame
  | disconnected => exact hsame
  | connected detail =>
      unfold Lane.move
      dsimp only
      split
      · exact hsame
      · exact hsame
  | tx hash blockKey txCount swap rawLen =>
      refine ⟨UInt64.toNat_add _ _, ?_⟩
      show (l.rawTxBytes + rawLen.toUInt64).toNat = _
      rw [UInt64.toNat_add, UInt32.toNat_toUInt64]
      simp [Event.tx]

theorem toNat_foldl_move (l : Lane) (es : List (Event n)) :
    (es.foldl Lane.move l).txEvents.toNat =
        (l.txEvents.toNat + (es.filterMap Event.tx).length) % 2 ^ 64 ∧
      (es.foldl Lane.move l).rawTxBytes.toNat =
        (l.rawTxBytes.toNat + ((es.filterMap Event.tx).map fun tx => tx.2.toNat).sum) %
          2 ^ 64 := by
  induction es generalizing l with
  | nil =>
      have htx := l.txEvents.toNat_lt
      have hraw := l.rawTxBytes.toNat_lt
      simp only [List.foldl_nil, List.filterMap_nil, List.length_nil, List.map_nil, List.sum_nil]
      omega
  | cons e es ih =>
      have hcons : (e :: es).filterMap Event.tx = e.tx.toList ++ es.filterMap Event.tx := by
        rw [List.filterMap_cons]
        cases e.tx <;> rfl
      have hmove := toNat_move l e
      have hrest := ih (l.move e)
      rw [List.foldl_cons, hcons, List.length_append, List.map_append, List.sum_append]
      omega

namespace Collector

variable {c₀ : Collector n}

theorem counters_run (h₀ : c₀.IsNew) (es : List (Event n)) (i : Fin n) :
    ((c₀.run es).txEvents.get i).toNat =
        ((es.filter fun e => e.source = i).filterMap Event.tx).length % 2 ^ 64 ∧
      ((c₀.run es).rawTxBytes.get i).toNat =
        (((es.filter fun e => e.source = i).filterMap Event.tx).map fun tx => tx.2.toNat).sum %
          2 ^ 64 := by
  have hview : (c₀.run es).lane i =
      (es.filter fun e => e.source = i).foldl Lane.move (c₀.lane i) := by
    apply foldl_view (fun c : Collector n => c.lane i)
    intro c e
    rw [lane_onEvent]
    simp only [decide_eq_true_eq]
  have hcount := toNat_foldl_move (c₀.lane i) (es.filter fun e => e.source = i)
  rw [← hview] at hcount
  have htx : (c₀.lane i).txEvents = 0 := by
    show c₀.txEvents.get i = 0
    rw [h₀.txEvents, get_replicate]
  have hraw : (c₀.lane i).rawTxBytes = 0 := by
    show c₀.rawTxBytes.get i = 0
    rw [h₀.rawTxBytes, get_replicate]
  rw [htx, hraw, UInt64.toNat_zero, Nat.zero_add, Nat.zero_add] at hcount
  exact hcount

/-! ## Blocks -/

section Blocks

variable (h₀ : c₀.IsNew) {es : List (Event n)} {stop : Nat} (hstop : ∀ e ∈ es, e.t ≤ stop)

include h₀ hstop

theorem counted_tally : ∀ e ∈ (c₀.run es).counted none stop,
    Tally e.2.arrivals e.2.seen e.2.first ∧ e.2.arrivals.get e.2.firstSrc = some e.2.first := by
  rw [counted_run h₀ hstop]
  intro e he
  obtain ⟨e, hmem, rfl⟩ := List.mem_map.mp (List.mem_filter.mp he).1
  have hr := blockTally_run h₀ es e.1 e.2 (AList.mem_lookup_iff.mpr hmem)
  exact ⟨hr.tally, hr.first_src⟩

theorem counted_arrivals {vs : List (Sighting n)}
    (hvs : ((c₀.run es).blocks.entries.map fun e => e.2.arrivals).Perm vs) :
    (((c₀.run es).counted none stop).map fun e => (e.2.arrivals : Sighting n)).Perm
      ((c₀.run es).scope.matched vs) := by
  have hmatched : (c₀.run es).scope.matched vs = vs.filter fun v =>
      decide (c₀.minSources ≤ v.seen) && (c₀.run es).inWindow v.first := by
    unfold Scope.matched Scope.inside scope
    rw [List.filter_filter, run_minSources]
  have hfilter : ((c₀.run es).blocks.entries.map fun e => (e.2.arrivals : Sighting n)).filter
        (fun v => decide (c₀.minSources ≤ v.seen) && (c₀.run es).inWindow v.first) =
      ((c₀.run es).counted none stop).map fun e => e.2.arrivals := by
    rw [counted_run h₀ hstop]
    show _ = (((c₀.run es).blocks.entries.map fun e =>
      (⟨e.1, BlockRec.settled e.2⟩ : BlockEntry n)).filter _).map _
    rw [List.filter_map, List.filter_map, List.map_map]
    apply congrArg
    apply List.filter_congr
    intro e he
    have hr := (blockTally_run h₀ es e.1 e.2 (AList.mem_lookup_iff.mpr he)).tally
    rw [Function.comp_apply, Sighting.first_of_tally hr, Sighting.seen_of_tally hr]
    rfl
  rw [hmatched, ← hfilter]
  exact hvs.filter _

/-- **Blocks.** The summary of the whole run is the one the sightings make, but for the wins of
sources that were first at the same instant. -/
theorem blockSummary_eq {vs : List (Sighting n)}
    (hvs : ((c₀.run es).blocks.entries.map fun e => e.2.arrivals).Perm vs) (label : String) :
    ((c₀.run es).blockSummary label none stop).completed =
        ((c₀.run es).scope.matched vs).length ∧
      ∀ i : Fin n, ∃ line,
        ((c₀.run es).blockSummary label none stop).perSource[(i : Nat)]? = some line ∧
          line.name = (c₀.sources.get i).name ∧
          line.winPct = share line.wins ((c₀.run es).scope.matched vs).length ∧
          line.delay = Percentiles.of ((c₀.run es).scope.delays vs i) ∧
          ((c₀.run es).scope.matched vs).countP (fun v => v.IsSoleFirst i) ≤ line.wins ∧
          line.wins ≤ ((c₀.run es).scope.matched vs).countP fun v => v.IsFirst i := by
  have hperm := counted_arrivals h₀ hstop hvs
  have htally := counted_tally h₀ hstop
  have hcompleted : ((c₀.run es).blockTable none stop).completed =
      ((c₀.run es).scope.matched vs).length := by
    rw [blockTable_completed, ← hperm.length_eq, List.length_map]
  constructor
  · exact hcompleted
  · intro i
    have hdelays : Percentiles.of (((c₀.run es).blockTable none stop).samples.get i) =
        Percentiles.of ((c₀.run es).scope.delays vs i) := by
      unfold Percentiles.of Scope.delays
      rw [blockTable_samples, flatMap_delays i htally, sorted_eq_of_perm (hperm.filterMap _)]
    have hwins := countP_firstSrc i htally
    rw [hperm.countP_eq, hperm.countP_eq, ← blockTable_wins] at hwins
    let table := (c₀.run es).blockTable none stop
    refine ⟨{ name := ((c₀.run es).sources.get i).name
              wins := table.wins.get i
              winPct := pct (table.wins.get i) table.completed
              delay := Percentiles.of (table.samples.get i) }, ?_, ?_, ?_, hdelays, hwins⟩
    · unfold blockSummary blockSummaryIn
      dsimp only
      rw [List.getElem?_map, List.getElem?_eq_getElem (by simp), List.getElem_finRange]
      simp only [Option.map_some, map_exact]
      rfl
    · rw [run_sources]
    · rw [← hcompleted]
      exact exact_pct _ _

end Blocks

end Collector

end Stats

namespace Main.Program

open Stats.Collector

variable (p : Program) (L : Libraries) (worlds : ∀ i : Fin p.n, (p.jobs.get i).World)

/-! ## Arrivals -/

def delivered (i : Fin p.n) : List Delivery := (p.jobs.get i).deliveries L i (worlds i)

/-- When each source first delivered the block of that key. -/
def sightBlock (key : String) : Sighting p.n :=
  .ofFn fun i => firstOf (Delivery.carriesBlock key) Delivery.t (p.delivered L worlds i)

def sightTx (hash : Hash) : Sighting p.n :=
  .ofFn fun i => firstOf (Delivery.carriesTx hash) Delivery.t (p.delivered L worlds i)

theorem conveys (i : Fin p.n) : Conveys i (p.delivered L worlds i) (p.sent L worlds i) :=
  (p.jobs.get i).conveys L i (worlds i)

theorem isNew_collector (start : Nat) : (p.collector start).IsNew :=
  isNew_new p.sources p.reference p.minSources p.warmup start

theorem collector_minSources (start : Nat) : (p.collector start).minSources = p.minSources := by
  have hone := p.one_le_minSources
  have hle := p.minSources_le
  show max 1 (min p.minSources (max p.n 1)) = p.minSources
  omega

theorem collector_nitroPresent (start : Nat) : (p.collector start).nitroPresent =
    decide (∃ i, (p.collector start).isNitro i = true) := by
  rw [Bool.eq_iff_iff, decide_eq_true_eq]
  show p.sources.toList.any (·.kind == "nitro") = true ↔ _
  rw [List.any_eq_true]
  constructor
  · rintro ⟨source, hsource, hkind⟩
    obtain ⟨i, hi, rfl⟩ := List.getElem_of_mem hsource
    exact ⟨⟨i, by simpa using hi⟩, hkind⟩
  · rintro ⟨i, hi⟩
    exact ⟨p.sources.get i, by simp [Vector.get], hi⟩

variable {p L worlds} {es : List (Event p.n)} {start : Nat}

/-- Whatever is recorded was delivered first at that instant. -/
theorem firstOf_taken (htaken : p.Taken L worlds es) {q : Event p.n → Bool} {i : Fin p.n} {t : Nat}
    (hown : ∀ e, q e = true → decide (e.source = i) = true)
    (h : firstOf q Event.t es = some t) : firstOf q Event.t (p.sent L worlds i) = some t := by
  rw [← firstOf_filter hown] at h
  exact firstOf_of_prefix (htaken i) h

theorem firstOf_takenAll {i : Fin p.n} (hall : p.TakenAll L worlds i es) {q : Event p.n → Bool}
    (hown : ∀ e, q e = true → decide (e.source = i) = true) :
    firstOf q Event.t es = firstOf q Event.t (p.sent L worlds i) := by
  rw [← firstOf_filter hown, hall]

theorem blockSlot_takenAll {i : Fin p.n} (hall : p.TakenAll L worlds i es) (key : String) :
    ((p.collector start).run es).blockSlot key i = (p.sightBlock L worlds key).get i := by
  rw [blockSlot_run (p.isNew_collector start), firstOf_takenAll hall fun _ => source_of_isBlockFrom,
    (p.conveys L worlds i).firstOf_block, sightBlock, get_ofFn]

theorem txSlot_takenAll {i : Fin p.n} (hall : p.TakenAll L worlds i es) (hash : Hash) :
    ((p.collector start).run es).txSlot hash i = (p.sightTx L worlds hash).get i := by
  rw [txSlot_run (p.isNew_collector start), firstOf_takenAll hall fun _ => source_of_isTxFrom,
    (p.conveys L worlds i).firstOf_tx, sightTx, get_ofFn]

/-! ## The records -/

def blockKeys (p : Program) (L : Libraries) (worlds : ∀ i : Fin p.n, (p.jobs.get i).World) :
    List String :=
  ((List.finRange p.n).flatMap fun i => (p.delivered L worlds i).flatMap Delivery.blocks).dedup

def txHashes (p : Program) (L : Libraries) (worlds : ∀ i : Fin p.n, (p.jobs.get i).World) :
    List Hash :=
  ((List.finRange p.n).flatMap fun i =>
    (p.delivered L worlds i).flatMap fun d => d.txs.map Prod.fst).dedup

theorem mem_blockKeys {key : String} : key ∈ p.blockKeys L worlds ↔
    ∃ i, ((p.sightBlock L worlds key).get i).isSome := by
  unfold blockKeys sightBlock
  rw [List.mem_dedup]
  simp only [List.mem_flatMap, List.mem_finRange, true_and, get_ofFn, firstOf_isSome,
    Delivery.carriesBlock, List.any_eq_true, beq_iff_eq, exists_eq_right]

theorem mem_txHashes {hash : Hash} : hash ∈ p.txHashes L worlds ↔
    ∃ i, ((p.sightTx L worlds hash).get i).isSome := by
  unfold txHashes sightTx
  rw [List.mem_dedup]
  simp only [List.mem_flatMap, List.mem_finRange, true_and, get_ofFn, firstOf_isSome,
    Delivery.carriesTx, List.any_eq_true, beq_iff_eq, List.mem_map]

def blockSights (p : Program) (L : Libraries) (worlds : ∀ i : Fin p.n, (p.jobs.get i).World) :
    List (Sighting p.n) := (p.blockKeys L worlds).map (p.sightBlock L worlds)

/-- The transactions that were delivered, and their blocks, the events being taken in the order
`es`. -/
def txSights (p : Program) (L : Libraries) (worlds : ∀ i : Fin p.n, (p.jobs.get i).World)
    (start : Nat) (es : List (Event p.n)) : List (TxSight p.n) :=
  (p.txHashes L worlds).map
    ((p.collector start).txSight es (p.txHashes L worlds) (p.sightTx L worlds))

def scope (p : Program) (start : Nat) (es : List (Event p.n)) : Scope :=
  ⟨((p.collector start).run es).inWindow, p.minSources⟩

def sizeSource (p : Program) : String :=
  if ∃ i : Fin p.n, ((p.jobs.get i).info.kind == "nitro") = true then "nitro frame"
  else (p.jobs.get p.reference).info.name ++ " per-block count"

theorem nodup_blockKeys : (p.blockKeys L worlds).Nodup := List.nodup_dedup _

theorem nodup_txHashes : (p.txHashes L worlds).Nodup := List.nodup_dedup _

section TakenAll

variable (hall : ∀ i, p.TakenAll L worlds i es)

include hall

theorem blocks_takenAll : (((p.collector start).run es).blocks.entries.map fun e =>
    e.2.arrivals).Perm (p.blockSights L worlds) := by
  have hslot : ∀ key i, ((p.collector start).run es).blockSlot key i =
      (p.sightBlock L worlds key).get i := fun key i => blockSlot_takenAll (hall i) key
  apply entries_map_perm (fun _ (r : BlockRec p.n) => (r.arrivals : Sighting p.n)) nodup_blockKeys
  · intro key
    rw [mem_blockKeys, ← AList.lookup_isSome]
    constructor
    · intro hmem
      obtain ⟨r, hr⟩ := Option.isSome_iff_exists.mp hmem
      obtain ⟨i, hi⟩ := (blockTally_run (p.isNew_collector start) es key r hr).tally.first_present
      refine ⟨i, ?_⟩
      rw [← hslot, blockSlot, hr, Option.bind_some, hi]
      rfl
    · rintro ⟨i, hi⟩
      rw [← hslot, blockSlot] at hi
      exact Option.isSome_of_isSome_bind hi
  · intro key r hr
    apply ext_get
    intro i
    rw [← hslot, blockSlot, hr]
    rfl

theorem txs_takenAll : (((p.collector start).run es).txs.entries.map fun e =>
    ((p.collector start).run es).sight e.2).Perm (p.txSights L worlds start es) :=
  sights_perm (fun hash i => txSlot_takenAll (hall i) hash) (p.isNew_collector start)
    (fun _ => mem_txHashes) nodup_txHashes (p.collector_nitroPresent start)

end TakenAll

/-- **Arrivals.** Whenever one looks, what is on record for a source is when it first delivered
the block, or the transaction.  As soon as all that the task of a source has sent is taken, all
its deliveries are on record and its counters count its transactions. -/
theorem arrivals_measured (p : Program) (L : Libraries)
    (worlds : ∀ i : Fin p.n, (p.jobs.get i).World) (start : Nat) (es : List (Event p.n))
    (htaken : p.Taken L worlds es) (i : Fin p.n) :
    (∀ key t, ((p.collector start).run es).blockSlot key i = some t →
        (p.sightBlock L worlds key).get i = some t) ∧
      (∀ hash t, ((p.collector start).run es).txSlot hash i = some t →
        (p.sightTx L worlds hash).get i = some t) ∧
      (p.TakenAll L worlds i es →
        (∀ key, ((p.collector start).run es).blockSlot key i =
          (p.sightBlock L worlds key).get i) ∧
        (∀ hash, ((p.collector start).run es).txSlot hash i =
          (p.sightTx L worlds hash).get i) ∧
        (((p.collector start).run es).txEvents.get i).toNat =
          ((p.delivered L worlds i).flatMap Delivery.txs).length % 2 ^ 64 ∧
        (((p.collector start).run es).rawTxBytes.get i).toNat =
          (((p.delivered L worlds i).flatMap Delivery.txs).map fun tx => tx.2.toNat).sum %
            2 ^ 64) := by
  have h₀ := p.isNew_collector start
  have hconveys := p.conveys L worlds i
  refine ⟨?_, ?_, ?_⟩
  · intro key t h
    rw [blockSlot_run h₀] at h
    rw [sightBlock, get_ofFn, ← hconveys.firstOf_block]
    exact firstOf_taken htaken (fun _ => source_of_isBlockFrom) h
  · intro hash t h
    rw [txSlot_run h₀] at h
    rw [sightTx, get_ofFn, ← hconveys.firstOf_tx]
    exact firstOf_taken htaken (fun _ => source_of_isTxFrom) h
  · intro hall
    have hcount := counters_run h₀ es i
    rw [hall, hconveys.filterMap_tx] at hcount
    exact ⟨blockSlot_takenAll hall, txSlot_takenAll hall, hcount⟩

def noLibraries : Libraries where
  frameFromSlice _ := .error "expected value"
  valueFromSlice _ := none
  base64 _ := .error "Invalid byte"
  hexDecode _ := none
  keccak256 _ := .replicate 32 0
  decompress := Ws.Client.noDeflate
  commitment
    | .received => 1
    | .processed => 2
    | .confirmed => 3

def pairLibraries : Libraries :=
  { noLibraries with
    frameFromSlice := fun _ => .ok [⟨9, none, some "tx"⟩]
    base64 := fun _ => .ok [4, 0xc7, 1, 2, 3, 4, 5, 6, 7] }

def pairProgram : Program where
  n := 2
  jobs := #v[.eira "http://127.0.0.1:1".toList .confirmed,
    .nitro ⟨['n'], "ws://feed/".toList⟩ .none .arrival]
  reference := ⟨0, by decide⟩
  minSources := 2
  warmup := 0
  interval := 10 ^ 9
  names_nodup := by decide
  one_le_minSources := by decide
  minSources_le := by decide
  second_le_interval := by decide

def pairEira : Fin pairProgram.n := ⟨0, by decide⟩

def pairNitro : Fin pairProgram.n := ⟨1, by decide⟩

def pairAttempt : Attempt where
  dial := Ws.Client.sampleDial
  reads := [.bytes 1 (Ws.Client.sampleHead ++ [0x82, 1])]
  env := ⟨fun _ => #v[0, 0, 0, 0], fun _ => none, fun _ => 9⟩
  polls := [.read (.bytes 7 [0x7b, 0x82, 1]), .read (.bytes 8 [0x7b])]
  up := 3
  down := 9

/-- The Eira source delivers the transaction of the Nitro source at instant 5, and another one of
the same block after it. -/
def pairWorld : ∀ i : Fin pairProgram.n, (pairProgram.jobs.get i).World
  | (⟨0, _⟩ : Fin 2) =>
      let t (hash : List UInt8) : Eira.Transaction := ⟨hash, 3, 9, 9, [], [1, 2]⟩
      ([⟨[⟨1, .ack 1⟩, ⟨5, .transaction (t (List.replicate 32 0))⟩,
        ⟨6, .transaction (t (List.replicate 32 7))⟩], none⟩] : List Eira.Session)
  | (⟨1, _⟩ : Fin 2) => ([pairAttempt] : List Attempt)

/-- All that the Nitro source sent is taken, and the block of the Eira source, but none of its
transactions. -/
def pairTaken : List (Event pairProgram.n) :=
  (pairProgram.sent pairLibraries pairWorld pairEira).take 2 ++
    pairProgram.sent pairLibraries pairWorld pairNitro

theorem arrivals_measured_pair :
    (pairProgram.sightBlock pairLibraries pairWorld "seq:9").get pairEira = some 5 ∧
      ((pairProgram.collector 0).run pairTaken).blockSlot "seq:9" pairNitro = some 7 ∧
      (((pairProgram.collector 0).run pairTaken).txEvents.get pairNitro).toNat = 2 := by
  have hstreams : ∀ i, pairTaken.filter (fun e => e.source = i) <+:
      pairProgram.sent pairLibraries pairWorld i := by decide +kernel
  have hall : pairProgram.TakenAll pairLibraries pairWorld pairNitro pairTaken := by
    unfold TakenAll
    decide +kernel
  have heira := arrivals_measured pairProgram pairLibraries pairWorld 0 pairTaken hstreams pairEira
  have hnitro := (arrivals_measured pairProgram pairLibraries pairWorld 0 pairTaken hstreams
    pairNitro).2.2 hall
  refine ⟨heira.1 "seq:9" 5 (by decide +kernel), ?_, ?_⟩
  · rw [hnitro.1]
    decide +kernel
  · rw [hnitro.2.2.1]
    decide +kernel

/-- What a report says, in terms of what was delivered and of the window.  The blocks of the
transactions, and these alone, go by the order in which the events were taken. -/
structure Reports (p : Program) (L : Libraries) (worlds : ∀ i : Fin p.n, (p.jobs.get i).World)
    (start interval : Nat) (es : List (Event p.n)) (r : Report) : Prop where
  completed : r.block.completed = ((p.scope start es).matched (p.blockSights L worlds)).length
  lines : r.block.perSource.length = p.n
  blocks : ∀ i : Fin p.n, ∃ line, r.block.perSource[(i : Nat)]? = some line ∧
    line.name = (p.jobs.get i).info.name ∧
    line.winPct = share line.wins r.block.completed ∧
    line.delay = Percentiles.of ((p.scope start es).delays (p.blockSights L worlds) i) ∧
    ((p.scope start es).matched (p.blockSights L worlds)).countP (fun v => v.IsSoleFirst i) ≤
      line.wins ∧
    line.wins ≤ ((p.scope start es).matched (p.blockSights L worlds)).countP fun v => v.IsFirst i
  /-- Each block has one winner. -/
  wins : (r.block.perSource.map (·.wins)).sum = r.block.completed
  txs : r.tx = (p.scope start es).txTable (p.txSights L worlds start es) fun i =>
    (p.jobs.get i).info.name
  pairs : r.pairs = ((List.finRange p.n).filter (· ≠ p.reference)).map fun j =>
    pairTable (p.jobs.get p.reference).info.name (p.jobs.get j).info.name p.sizeSource start
      interval ((p.scope start es).pairRows (p.txSights L worlds start es) p.reference j)

section Settings

variable {p : Program} (start : Nat) (es : List (Event p.n))

theorem scope_run : ((p.collector start).run es).scope = p.scope start es := by
  unfold Collector.scope Program.scope
  rw [run_minSources, collector_minSources]

theorem reference_run : ((p.collector start).run es).reference = p.reference := run_reference _ _

theorem name_run (i : Fin p.n) :
    (((p.collector start).run es).sources.get i).name = (p.jobs.get i).info.name := by
  rw [run_sources, ← sources_get]
  rfl

theorem sizeSource_run : ((p.collector start).run es).sizeSource = p.sizeSource := by
  have hnitro : ∀ i, (p.collector start).isNitro i = ((p.jobs.get i).info.kind == "nitro") := by
    intro i
    rw [← sources_get]
    rfl
  unfold Collector.sizeSource Program.sizeSource
  rw [reference_run, name_run, run_nitroPresent, collector_nitroPresent]
  simp only [decide_eq_true_eq, hnitro]

end Settings

/-- **The report.** When all that the tasks have sent is taken, the tables are those that the
deliveries make: each number is a count, or a percentile of the delays, over the blocks or the
transactions the sources delivered inside the window. -/
theorem report_measured (p : Program) (L : Libraries)
    (worlds : ∀ i : Fin p.n, (p.jobs.get i).World) (start stop : Nat) (interrupted : Bool)
    (turns : List (Turn p.n)) (hall : ∀ i, p.TakenAll L worlds i (received turns))
    (hstop : ∀ e ∈ received turns, e.t ≤ stop) :
    p.Reports L worlds start p.interval (received turns)
      (((init (p.collector start)).run turns).report p.minSources p.interval stop
        interrupted) := by
  have h₀ := p.isNew_collector start
  have htallied := tallied_run h₀ (received turns)
  have hcol : ((init (p.collector start)).run turns).col =
      (p.collector start).run (received turns) := col_run _ _
  have htxs : (((p.collector start).run (received turns)).txs.entries.map fun e =>
      ((p.collector start).run (received turns)).sight e.2).Perm
        (p.txSights L worlds start (received turns)) := txs_takenAll hall
  have hblock := blockSummary_eq h₀ hstop (blocks_takenAll hall) "whole run"
  rw [scope_run] at hblock
  unfold report reportIn
  simp only [windowSecondsIn_exact, blockSummaryIn_exact, txSummaryIn_exact, pairSummaryIn_exact]
  rw [hcol]
  refine ⟨hblock.1, ?_, ?_, ?_, ?_, ?_⟩
  · simp [blockSummary, blockSummaryIn]
  · intro i
    obtain ⟨line, hline, hlineName, hpct, hrest⟩ := hblock.2 i
    refine ⟨line, hline, ?_, ?_, hrest⟩
    · rw [hlineName, ← sources_get]
      rfl
    · rw [hpct, hblock.1]
  · exact (blockSummary_consistent htallied _ _ _).wins_sum
  · rw [txSummary_eq htxs htallied, scope_run]
    simp only [name_run]
  · rw [reference_run]
    apply List.map_congr_left
    intro j _
    rw [pairSummary_eq htxs htallied, reference_run, name_run, name_run, sizeSource_run,
      scope_run, run_start]
    rfl

/-- All that the tasks sent is taken, the events of the Nitro source last. -/
def pairTurns : List (Turn pairProgram.n) :=
  (pairProgram.sent pairLibraries pairWorld pairEira ++
    pairProgram.sent pairLibraries pairWorld pairNitro).map (Turn.recv 10)

def pairReport : Report :=
  ((init (pairProgram.collector 0)).run pairTurns).report 2 (10 ^ 9) 10 false

/-- The Nitro source is two milliseconds behind, in one interval and one bucket. -/
theorem report_measured_pair :
    (pairReport.block.completed = 1 ∧ pairReport.tx.total = 2 ∧ pairReport.tx.matched = 1) ∧
      pairReport.pairs.map (fun s => (s.n, s.intervals.map (·.n), s.buckets.map (·.txs))) =
        [(1, [1], [1, 0, 0, 0])] := by
  have hall : ∀ i, pairProgram.TakenAll pairLibraries pairWorld i (received pairTurns) := by
    unfold TakenAll
    decide +kernel
  have hstop : ∀ e ∈ received pairTurns, e.t ≤ 10 := by decide +kernel
  have hreport := report_measured pairProgram pairLibraries pairWorld 0 10 false pairTurns hall
    hstop
  refine ⟨⟨?_, ?_, ?_⟩, ?_⟩
  · exact hreport.completed.trans (by decide +kernel)
  · exact (congrArg TxSummary.total hreport.txs).trans (by decide +kernel)
  · exact (congrArg TxSummary.matched hreport.txs).trans (by decide +kernel)
  · exact (congrArg (List.map _) hreport.pairs).trans (by decide +kernel)

end Main.Program

end FeedBench
