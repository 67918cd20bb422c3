import FeedBench.Lib.Renaming
import FeedBench.Stats.Proofs.Records
import FeedBench.Stats.Proofs.Tables

/-!
# All sources are treated alike

Nothing in the collector depends on the number a source happens to have, and of the clock it
uses only the order of the stamps and their distances.  Numbering the sources otherwise
numbers the tables otherwise, and a clock that is ahead by a constant changes no table at all.
-/

namespace FeedBench.Stats

open Lib

variable {n : Nat}

/-- Other numbers for the sources, and another reading of the clock. -/
structure Recast (n : Nat) where
  source : Equiv.Perm (Fin n)
  clock : Nat → Nat
  mono : StrictMono clock

namespace Collector

def raised (c : Collector n) (s : Fin n) (detail : String) : Collector n :=
  { c with
    reconnects :=
      if c.everConnected.get s then c.reconnects.set s (c.reconnects.get s + 1) s.isLt
      else c.reconnects
    connected := c.connected.set s true s.isLt
    everConnected := c.everConnected.set s true s.isLt
    details := c.details.set s detail s.isLt }

def opened (c : Collector n) (t : Nat) : Collector n :=
  if c.allConnected && !lastOpen c.allUp then { c with allUp := c.allUp ++ [(t, none)] } else c

theorem onConnected_fst (c : Collector n) (s : Fin n) (t : Nat) (detail : String) :
    (c.onConnected s t detail).1 =
      if c.connected.get s then { c with details := c.details.set s detail s.isLt }
      else (c.raised s detail).opened t := by
  unfold onConnected
  split <;> rfl

end Collector

namespace Recast

variable (T : Recast n)

def event (e : Event n) : Event n := ⟨T.source e.source, T.clock e.t, e.payload⟩

def slots (v : Vector (Option Nat) n) : Vector (Option Nat) n :=
  .ofFn fun s => (v.get (T.source.symm s)).map T.clock

def block (r : BlockRec n) : BlockRec n :=
  { r with
    arrivals := T.slots r.arrivals
    first := T.clock r.first
    firstSrc := T.source r.firstSrc
    completedAt := r.completedAt.map T.clock }

def tx (r : TxRec n) : TxRec n :=
  { r with
    arrivals := T.slots r.arrivals
    first := T.clock r.first }

def stretch (stretch : Nat × Option Nat) : Nat × Option Nat :=
  (T.clock stretch.1, stretch.2.map T.clock)

def collector (c : Collector n) : Collector n where
  sources := moved T.source c.sources
  nitroPresent := c.nitroPresent
  reference := T.source c.reference
  minSources := c.minSources
  warmup := c.warmup
  start := T.clock c.start
  blocks := mapVals T.block c.blocks
  txs := mapVals T.tx c.txs
  connected := moved T.source c.connected
  everConnected := moved T.source c.everConnected
  reconnects := moved T.source c.reconnects
  details := moved T.source c.details
  txEvents := moved T.source c.txEvents
  blockEvents := moved T.source c.blockEvents
  wireBytes := moved T.source c.wireBytes
  rawTxBytes := moved T.source c.rawTxBytes
  allUp := c.allUp.map T.stretch

/-! ## Slots -/

@[simp] theorem get_slots (v : Vector (Option Nat) n) (s : Fin n) :
    (T.slots v).get s = (v.get (T.source.symm s)).map T.clock :=
  get_ofFn _ s

theorem get_slots_apply (v : Vector (Option Nat) n) (s : Fin n) :
    (T.slots v).get (T.source s) = (v.get s).map T.clock := by
  rw [get_slots, Equiv.symm_apply_apply]

@[simp] theorem slots_replicate :
    T.slots (Vector.replicate n none) = Vector.replicate n none := by
  apply ext_get
  intro s
  simp

theorem slots_set (v : Vector (Option Nat) n) (s : Fin n) (t : Nat) :
    T.slots (v.set s (some t) s.isLt) =
      (T.slots v).set (T.source s) (some (T.clock t)) (T.source s).isLt := by
  apply ext_get
  intro s'
  rw [get_slots, get_set, get_set, get_slots]
  by_cases h : s = T.source.symm s'
  · rw [if_pos h, if_pos (by rw [h, Equiv.apply_symm_apply])]
    rfl
  · rw [if_neg h, if_neg fun heq => h (by rw [← heq, Equiv.symm_apply_apply])]

theorem toList_slots_perm (v : Vector (Option Nat) n) :
    ((T.slots v).toList.filterMap id).Perm ((v.toList.filterMap id).map T.clock) := by
  have hslots : (T.slots v).toList =
      (((List.finRange n).map T.source.symm).map v.get).map (Option.map T.clock) := by
    rw [toList_eq_map, List.map_map, List.map_map]
    apply List.map_congr_left
    intro s _
    exact T.get_slots v s
  have hvalues : (v.toList.filterMap id).map T.clock =
      (((List.finRange n).map v.get).map (Option.map T.clock)).filterMap id := by
    rw [toList_eq_map, List.map_filterMap]
    simp only [List.filterMap_map]
    rfl
  rw [hslots, hvalues]
  exact (((Equiv.Perm.map_finRange_perm T.source.symm).map v.get).map _).filterMap id

/-! ## Deliveries -/

theorem lastArrival_block (r : BlockRec n) (t : Nat) :
    (T.block r).lastArrival (T.clock t) = T.clock (r.lastArrival t) := by
  unfold BlockRec.lastArrival
  have hmax : ((T.slots r.arrivals).toList.filterMap id).max? =
      (r.arrivals.toList.filterMap id).max?.map T.clock := by
    rw [max?_perm (T.toList_slots_perm r.arrivals), max?_map T.mono.monotone]
  show ((T.slots r.arrivals).toList.filterMap id).max?.getD (T.clock t) = _
  rw [hmax, Option.getD_map]

theorem block_record (r : BlockRec n) (s : Fin n) (t : Nat) :
    T.block (r.record s t) = (T.block r).record (T.source s) (T.clock t) := by
  unfold block BlockRec.record
  simp only [slots_set, T.mono.lt_iff_lt]
  split <;> rfl

theorem block_deliver (r : BlockRec n) (minSources : Nat) (s : Fin n) (t : Nat) :
    (T.block r).deliver minSources (T.source s) (T.clock t) =
      (T.block (r.deliver minSources s t).1, (r.deliver minSources s t).2) := by
  have hslot : ((T.block r).arrivals.get (T.source s)).isSome = (r.arrivals.get s).isSome := by
    show ((T.slots r.arrivals).get (T.source s)).isSome = _
    rw [get_slots_apply, Option.isSome_map]
  unfold BlockRec.deliver
  rw [hslot, ← block_record]
  dsimp only
  rw [lastArrival_block]
  split
  · rfl
  · show (if (r.record s t).seen = minSources then _ else _) = _
    split <;> rfl

theorem block_fill (r : BlockRec n) (seq hash txCount) :
    T.block (r.fill seq hash txCount) = (T.block r).fill seq hash txCount := rfl

theorem block_fresh (seq : Option UInt64) (s : Fin n) (t : Nat) :
    T.block (.fresh seq s t) = .fresh seq (T.source s) (T.clock t) := by
  unfold block BlockRec.fresh
  rw [slots_replicate]
  rfl

theorem tx_deliver (r : TxRec n) (s : Fin n) (t : Nat) :
    T.tx (r.deliver s t) = (T.tx r).deliver (T.source s) (T.clock t) := by
  have hslot : ((T.tx r).arrivals.get (T.source s)).isSome = (r.arrivals.get s).isSome := by
    show ((T.slots r.arrivals).get (T.source s)).isSome = _
    rw [get_slots_apply, Option.isSome_map]
  unfold TxRec.deliver
  rw [hslot]
  split
  · rfl
  · unfold tx
    simp only [slots_set, T.mono.lt_iff_lt]
    split <;> rfl

theorem tx_fresh (t : Nat) : T.tx (.fresh t : TxRec n) = .fresh (T.clock t) := by
  unfold tx TxRec.fresh
  rw [slots_replicate]

/-! ## One event -/

theorem allConnected_collector (c : Collector n) :
    (T.collector c).allConnected = c.allConnected :=
  all_moved T.source c.connected id

theorem lastOpen_stretch (allUp : List (Nat × Option Nat)) :
    Collector.lastOpen (allUp.map T.stretch) = Collector.lastOpen allUp := by
  unfold Collector.lastOpen
  rw [List.getLast?_map]
  rcases allUp.getLast? with _ | ⟨a, _ | b⟩ <;> rfl

theorem closeLast_stretch (allUp : List (Nat × Option Nat)) (t : Nat) :
    Collector.closeLast (allUp.map T.stretch) (T.clock t) =
      (Collector.closeLast allUp t).map T.stretch := by
  unfold Collector.closeLast
  rw [List.getLast?_map]
  rcases allUp.getLast? with _ | ⟨a, _ | b⟩
  · rfl
  · rw [List.map_append, List.map_dropLast]
    rfl
  · rfl

theorem opened_collector (c : Collector n) (t : Nat) :
    (T.collector c).opened (T.clock t) = T.collector (c.opened t) := by
  unfold Collector.opened
  rw [allConnected_collector, show Collector.lastOpen (T.collector c).allUp =
    Collector.lastOpen c.allUp from T.lastOpen_stretch c.allUp]
  split
  · unfold collector
    rw [List.map_append]
    rfl
  · rfl

theorem raised_collector (c : Collector n) (s : Fin n) (detail : String) :
    (T.collector c).raised (T.source s) detail = T.collector (c.raised s detail) := by
  unfold Collector.raised collector
  simp only [moved_set, get_moved_apply]
  split
  · rw [moved_set]
  · rfl

theorem onConnected_collector (c : Collector n) (s : Fin n) (t : Nat) (detail : String) :
    ((T.collector c).onConnected (T.source s) (T.clock t) detail).1 =
      T.collector (c.onConnected s t detail).1 := by
  have hconnected : (T.collector c).connected.get (T.source s) = c.connected.get s :=
    get_moved_apply T.source c.connected s
  rw [Collector.onConnected_fst, Collector.onConnected_fst, hconnected]
  split
  · unfold collector
    simp only [moved_set]
  · rw [raised_collector, opened_collector]

theorem onDisconnected_collector (c : Collector n) (s : Fin n) (t : Nat) (reason : String) :
    ((T.collector c).onDisconnected (T.source s) (T.clock t) reason).1 =
      T.collector (c.onDisconnected s t reason).1 := by
  have hconnected : (T.collector c).connected.get (T.source s) = c.connected.get s :=
    get_moved_apply T.source c.connected s
  unfold Collector.onDisconnected
  rw [hconnected]
  split
  · rfl
  · unfold collector
    simp only [moved_set, closeLast_stretch]

theorem onBlock_collector (c : Collector n) (s : Fin n) (t : Nat) (key : String) (seq hash txCount)
    (wireLen : UInt64) :
    ((T.collector c).onBlock (T.source s) (T.clock t) key seq hash txCount wireLen).1 =
      T.collector (c.onBlock s t key seq hash txCount wireLen).1 := by
  have hbefore : ((T.collector c).blocks.lookup key).getD (.fresh seq (T.source s) (T.clock t)) =
      T.block ((c.blocks.lookup key).getD (.fresh seq s t)) := by
    show ((mapVals T.block c.blocks).lookup key).getD _ = _
    rw [lookup_mapVals, ← block_fresh, Option.getD_map]
  unfold Collector.onBlock
  have hmin : (T.collector c).minSources = c.minSources := rfl
  rw [hbefore, ← block_fill, hmin]
  dsimp only
  rw [block_deliver]
  unfold collector
  simp only [moved_set, mapVals_insert, get_moved_apply]

theorem onTx_collector (c : Collector n) (s : Fin n) (t : Nat) (hash : Hash) (blockKey txCount)
    (swap : Bool) (rawLen : UInt32) :
    ((T.collector c).onTx (T.source s) (T.clock t) hash blockKey txCount swap rawLen).1 =
      T.collector (c.onTx s t hash blockKey txCount swap rawLen).1 := by
  have hbefore : ((T.collector c).txs.lookup hash).getD (.fresh (T.clock t)) =
      T.tx ((c.txs.lookup hash).getD (.fresh t)) := by
    show ((mapVals T.tx c.txs).lookup hash).getD _ = _
    rw [lookup_mapVals, ← tx_fresh, Option.getD_map]
  have hkind : (T.collector c).sources.get (T.source s) = c.sources.get s :=
    get_moved_apply T.source c.sources s
  unfold Collector.onTx
  have hfill : ∀ (r : TxRec n) (nitro : Bool), (T.tx r).fill nitro blockKey txCount swap =
      T.tx (r.fill nitro blockKey txCount swap) := fun _ _ => rfl
  rw [hbefore, hkind]
  dsimp only
  rw [hfill, ← tx_deliver]
  unfold collector
  simp only [moved_set, mapVals_insert, get_moved_apply]

theorem onEvent_collector (c : Collector n) (e : Event n) :
    ((T.collector c).onEvent (T.event e)).1 = T.collector (c.onEvent e).1 := by
  obtain ⟨s, t, p⟩ := e
  cases p with
  | connected detail => exact T.onConnected_collector c s t detail
  | disconnected reason => exact T.onDisconnected_collector c s t reason
  | block key seq hash txCount wireLen =>
      exact T.onBlock_collector c s t key seq hash txCount wireLen
  | tx hash blockKey txCount swap rawLen =>
      exact T.onTx_collector c s t hash blockKey txCount swap rawLen

/-- Every run of the renamed collector over the renamed events is the renamed run. -/
theorem run_collector (c : Collector n) (es : List (Event n)) :
    (T.collector c).run (es.map T.event) = T.collector (c.run es) := by
  induction es generalizing c with
  | nil => rfl
  | cons e es ih =>
      rw [List.map_cons, Collector.run_cons, Collector.run_cons, onEvent_collector, ih]

theorem collector_new (sources : Vector SourceInfo n) (reference : Fin n)
    (minSources warmup start : Nat) :
    T.collector (.new sources reference minSources warmup start) =
      .new (moved T.source sources) (T.source reference) minSources warmup (T.clock start) := by
  unfold collector Collector.new
  simp only [moved_replicate, mapVals_empty, List.map_nil, any_moved]

/-! ## The tables -/

def shift (source : Equiv.Perm (Fin n)) (d : Nat) : Recast n where
  source := source
  clock := (· + d)
  mono := fun _ _ h => Nat.add_lt_add_right h d

variable (σ : Equiv.Perm (Fin n)) (d : Nat) (c : Collector n)

theorem inWindow_shift (t : Nat) :
    ((shift σ d).collector c).inWindow (t + d) = c.inWindow t := by
  show (c.allUp.map (shift σ d).stretch).any _ = c.allUp.any _
  rw [List.any_map]
  congr 1
  funext stretch
  obtain ⟨a, b⟩ := stretch
  have hstart : (a + d + c.warmup ≤ t + d) ↔ (a + c.warmup ≤ t) := by omega
  have hstop : (b.map (· + d)).all (decide <| t + d < ·) = b.all (decide <| t < ·) := by
    cases b with
    | none => rfl
    | some b => simp
  show (decide (a + d + c.warmup ≤ t + d) && _) = _
  rw [decide_eq_decide.mpr hstart]
  exact congrArg _ hstop

theorem counts_shift (since : Option Nat) (til : Nat) (r : BlockRec n) :
    ((shift σ d).collector c).counts (since.map (· + d)) (til + d) ((shift σ d).block r) =
      c.counts since til r := by
  have hwindow : ((shift σ d).collector c).inWindow ((shift σ d).block r).first =
      c.inWindow r.first := inWindow_shift σ d c r.first
  have hcompleted : ((shift σ d).block r).completedAt = r.completedAt.map (· + d) := rfl
  unfold Collector.counts
  rw [hwindow, hcompleted]
  cases r.completedAt with
  | none => rfl
  | some done => cases since <;> simp

end Recast

def BlockTable.moved (σ : Equiv.Perm (Fin n)) (table : BlockTable n) : BlockTable n where
  wins := Lib.moved σ table.wins
  samples := Lib.moved σ table.samples
  completed := table.completed

def TxTable.moved (σ : Equiv.Perm (Fin n)) (table : TxTable n) : TxTable n :=
  { table with
    seen := Lib.moved σ table.seen
    first := Lib.moved σ table.first
    first1ms := Lib.moved σ table.first1ms
    lags := Lib.moved σ table.lags }

namespace Recast

variable (σ : Equiv.Perm (Fin n)) (d : Nat) (c : Collector n)

theorem delays_shift (v : Vector (Option Nat) n) (first : Nat) (i : Fin n) :
    (((shift σ d).slots v).get i).map (fun a => ms (a - (first + d))) =
      (v.get (σ.symm i)).map fun a => ms (a - first) := by
  rw [get_slots]
  show ((v.get (σ.symm i)).map (· + d)).map (fun a => ms (a - (first + d))) = _
  cases v.get (σ.symm i) with
  | none => rfl
  | some a => rw [Option.map_some, Option.map_some, Option.map_some, Nat.add_sub_add_right]

theorem add_shift (table : BlockTable n) (r : BlockRec n) :
    (table.moved σ).add ((shift σ d).block r) = (table.add r).moved σ := by
  have hwins : ((table.moved σ).add ((shift σ d).block r)).wins =
      Lib.moved σ (table.add r).wins := by
    apply ext_get
    intro i
    have hsrc : ((shift σ d).block r).firstSrc = i ↔ r.firstSrc = σ.symm i :=
      (Equiv.eq_symm_apply σ).symm
    rw [BlockTable.add_wins, get_moved, BlockTable.add_wins, decide_eq_decide.mpr hsrc]
    exact congrArg (· + _) (get_moved σ table.wins i)
  have hsamples : ((table.moved σ).add ((shift σ d).block r)).samples =
      Lib.moved σ (table.add r).samples := by
    apply ext_get
    intro i
    rw [BlockTable.add_samples, get_moved, BlockTable.add_samples]
    exact congrArg₂ _ (get_moved σ table.samples i)
      (congrArg Option.toList (delays_shift σ d r.arrivals r.first i))
  show BlockTable.mk _ _ _ = BlockTable.mk _ _ _
  exact congrArg₂ (BlockTable.mk · · (table.completed + 1)) hwins hsamples

theorem blockTable_shift (since : Option Nat) (til : Nat) :
    ((shift σ d).collector c).blockTable (since.map (· + d)) (til + d) =
      (c.blockTable since til).moved σ := by
  have hempty : (BlockTable.empty : BlockTable n) = BlockTable.empty.moved σ := by
    simp [BlockTable.empty, BlockTable.moved]
  show (c.blocks.entries.map fun e =>
    (⟨e.1, (shift σ d).block e.2⟩ : Sigma fun _ => BlockRec n)).foldl _ BlockTable.empty = _
  rw [List.foldl_map, hempty]
  apply List.foldl_hom (BlockTable.moved σ)
  intro table entry
  dsimp only
  rw [counts_shift]
  split
  · exact add_shift σ d table entry.2
  · rfl

theorem others_shift (r : TxRec n) (i : Fin n) :
    ((shift σ d).tx r).others i = (r.others (σ.symm i)).map (· + d) := by
  have hslots : (((List.finRange n).map σ).filter (· ≠ i)).filterMap
      ((shift σ d).tx r).arrivals.get =
      (((List.finRange n).filter (· ≠ σ.symm i)).filterMap r.arrivals.get).map (· + d) := by
    rw [List.filter_map, List.filterMap_map, List.map_filterMap]
    have hne : (fun s => decide (s ≠ i)) ∘ σ = fun s => decide (s ≠ σ.symm i) := by
      funext s
      exact decide_eq_decide.mpr (not_congr (Equiv.eq_symm_apply σ).symm)
    rw [hne]
    apply List.filterMap_congr
    intro s _
    exact (shift σ d).get_slots_apply r.arrivals s
  have hperm := ((Equiv.Perm.map_finRange_perm σ).filter (· ≠ i)).filterMap
    ((shift σ d).tx r).arrivals.get
  unfold TxRec.others
  rw [← min?_perm hperm, hslots]
  exact min?_map (fun _ _ h => Nat.add_le_add_right h d) _

theorem leads_shift (r : TxRec n) (i : Fin n) :
    ((shift σ d).tx r).leads i = r.leads (σ.symm i) := by
  have harrival : ((shift σ d).tx r).arrivals.get i = (r.arrivals.get (σ.symm i)).map (· + d) :=
    (shift σ d).get_slots r.arrivals i
  unfold TxRec.leads
  rw [harrival, others_shift]
  cases r.arrivals.get (σ.symm i) with
  | none => rfl
  | some a =>
      cases r.others (σ.symm i) with
      | none => rfl
      | some o =>
          apply decide_eq_decide.mpr
          show a + d + oneMs ≤ o + d ↔ a + oneMs ≤ o
          omega

theorem addSeen_shift (table : TxTable n) (r : TxRec n) :
    (table.moved σ).addSeen ((shift σ d).tx r) = (table.addSeen r).moved σ := by
  have hseen : ((table.moved σ).addSeen ((shift σ d).tx r)).seen =
      Lib.moved σ (table.addSeen r).seen := by
    apply ext_get
    intro i
    rw [TxTable.addSeen_seen, get_moved, TxTable.addSeen_seen]
    have harrival : (((shift σ d).tx r).arrivals.get i).isSome =
        (r.arrivals.get (σ.symm i)).isSome := by
      rw [show ((shift σ d).tx r).arrivals.get i = _ from (shift σ d).get_slots r.arrivals i,
        Option.isSome_map]
      rfl
    rw [harrival]
    exact congrArg (· + _) (get_moved σ table.seen i)
  unfold TxTable.moved TxTable.addSeen at hseen ⊢
  dsimp only at hseen ⊢
  rw [hseen]

theorem addMatched_shift (table : TxTable n) (r : TxRec n) :
    (table.moved σ).addMatched ((shift σ d).tx r) = (table.addMatched r).moved σ := by
  have hlags : ((table.moved σ).addMatched ((shift σ d).tx r)).lags =
      Lib.moved σ (table.addMatched r).lags := by
    apply ext_get
    intro i
    rw [TxTable.addMatched_lags, get_moved, TxTable.addMatched_lags]
    exact congrArg₂ _ (get_moved σ table.lags i)
      (congrArg Option.toList (delays_shift σ d r.arrivals r.first i))
  have hfirst : ((table.moved σ).addMatched ((shift σ d).tx r)).first =
      Lib.moved σ (table.addMatched r).first := by
    apply ext_get
    intro i
    rw [TxTable.addMatched_first, get_moved, TxTable.addMatched_first]
    have harrival : ((shift σ d).tx r).arrivals.get i = some ((shift σ d).tx r).first ↔
        r.arrivals.get (σ.symm i) = some r.first := by
      rw [show ((shift σ d).tx r).arrivals.get i = _ from (shift σ d).get_slots r.arrivals i]
      show (r.arrivals.get (σ.symm i)).map (· + d) = some (r.first + d) ↔ _
      cases r.arrivals.get (σ.symm i) <;> simp
    rw [decide_eq_decide.mpr harrival]
    exact congrArg (· + _) (get_moved σ table.first i)
  have hfirst1ms : ((table.moved σ).addMatched ((shift σ d).tx r)).first1ms =
      Lib.moved σ (table.addMatched r).first1ms := by
    apply ext_get
    intro i
    rw [TxTable.addMatched_first1ms, get_moved, TxTable.addMatched_first1ms, leads_shift]
    exact congrArg (· + _) (get_moved σ table.first1ms i)
  unfold TxTable.moved TxTable.addMatched at hlags hfirst hfirst1ms ⊢
  dsimp only at hlags hfirst hfirst1ms ⊢
  rw [hlags, hfirst, hfirst1ms]
  rfl

theorem txTable_shift : ((shift σ d).collector c).txTable = c.txTable.moved σ := by
  have hempty : (TxTable.empty : TxTable n) = TxTable.empty.moved σ := by
    simp [TxTable.empty, TxTable.moved]
  show (c.txs.entries.map fun e => (⟨e.1, (shift σ d).tx e.2⟩ : Sigma fun _ => TxRec n)).foldl
    _ TxTable.empty = _
  rw [List.foldl_map, hempty]
  apply List.foldl_hom (TxTable.moved σ)
  intro table entry
  have hwindow : ((shift σ d).collector c).inWindow ((shift σ d).tx entry.2).first =
      c.inWindow entry.2.first := inWindow_shift σ d c entry.2.first
  dsimp only
  rw [hwindow, addSeen_shift, addMatched_shift]
  split
  · rfl
  · show (if entry.2.seen < c.minSources then _ else _) = _
    split <;> rfl

theorem windowSeconds_shift (now : Nat) :
    ((shift σ d).collector c).windowSeconds (now + d) = c.windowSeconds now := by
  unfold Collector.windowSeconds Collector.windowSecondsIn
  show max ((c.allUp.map (shift σ d).stretch).map _).sum 0 = _
  rw [List.map_map]
  congr 3
  funext stretch
  obtain ⟨a, b⟩ := stretch
  have hstop : (b.map (· + d)).getD (now + d) = b.getD now + d := Option.getD_map (· + d) now b
  have hstart : a + d + c.warmup = a + c.warmup + d := by omega
  show (if a + d + c.warmup < (b.map (· + d)).getD (now + d) then
    Arith.exact.secs ((b.map (· + d)).getD (now + d) - (a + d + c.warmup)) else 0) = _
  rw [hstop, hstart, Nat.add_sub_add_right]
  simp only [Nat.add_lt_add_iff_right]

/-! ### Pairs -/

theorem signedMs_shift (a b : Nat) : signedMs (a + d) (b + d) = signedMs a b := by
  unfold signedMs
  simp only [Nat.add_le_add_iff_right, Nat.add_sub_add_right]

theorem refCounts_shift : ((shift σ d).collector c).refCounts = c.refCounts := by
  have hkeys : ((shift σ d).collector c).txs.entries.filterMap
      (fun e => ((shift σ d).collector c).refKey e.2) =
      c.txs.entries.filterMap fun e => c.refKey e.2 := by
    show (c.txs.entries.map fun e => (⟨e.1, (shift σ d).tx e.2⟩ : Sigma fun _ => TxRec n)).filterMap
      _ = _
    rw [List.filterMap_map]
    apply List.filterMap_congr
    intro entry _
    have harrival : (((shift σ d).tx entry.2).arrivals.get (σ c.reference)).isSome =
        (entry.2.arrivals.get c.reference).isSome := by
      rw [show ((shift σ d).tx entry.2).arrivals.get (σ c.reference) = _ from
        (shift σ d).get_slots_apply entry.2.arrivals c.reference, Option.isSome_map]
    show (if (((shift σ d).tx entry.2).arrivals.get (σ c.reference)).isSome then entry.2.blockKey
      else none) = _
    rw [harrival]
    rfl
  unfold Collector.refCounts
  rw [hkeys]
  rfl

end Recast

def Row.later (d : Nat) (x : Row) : Row := { x with first := x.first + d }

namespace Recast

variable (σ : Equiv.Perm (Fin n)) (d : Nat) (c : Collector n)

theorem row_shift (counts : AList fun _ : String => UInt32) (other : Fin n) (r : TxRec n) :
    ((shift σ d).collector c).row counts (σ other) ((shift σ d).tx r) =
      (c.row counts other r).map (Row.later d) := by
  have hslot : ∀ s : Fin n, ((shift σ d).tx r).arrivals.get (σ s) =
      (r.arrivals.get s).map (· + d) := (shift σ d).get_slots_apply r.arrivals
  have hwindow : ((shift σ d).collector c).inWindow ((shift σ d).tx r).first =
      c.inWindow r.first := inWindow_shift σ d c r.first
  have href : ((shift σ d).collector c).reference = σ c.reference := rfl
  unfold Collector.row
  rw [href, hslot, hslot, hwindow]
  cases r.arrivals.get c.reference with
  | none => rfl
  | some tr =>
      cases r.arrivals.get other with
      | none => rfl
      | some tt =>
          dsimp only [Option.map_some]
          rw [signedMs_shift]
          split <;> rfl

theorem rows_shift (other : Fin n) :
    ((shift σ d).collector c).rows (σ other) = (c.rows other).map (Row.later d) := by
  unfold Collector.rows
  rw [refCounts_shift, List.map_filterMap]
  show (c.txs.entries.map fun e => (⟨e.1, (shift σ d).tx e.2⟩ : Sigma fun _ => TxRec n)).filterMap
    _ = _
  rw [List.filterMap_map]
  apply List.filterMap_congr
  intro entry _
  exact row_shift σ d c c.refCounts other entry.2

theorem byInterval_later (A : Arith) (start interval : Nat) (rows : List Row) :
    byInterval A (start + d) interval (rows.map (Row.later d)) =
      byInterval A start interval rows := by
  unfold byInterval group
  rw [List.foldl_map]
  congr 1
  funext m x
  show upsert (A.intervalOf (x.first + d - (start + d)) interval) _ _ _ = _
  rw [Nat.add_sub_add_right]
  rfl

theorem bucketRows_later (rows : List Row) (b : Nat) :
    bucketRows (rows.map (Row.later d)) b = (bucketRows rows b).map (Row.later d) := by
  unfold bucketRows
  rw [List.filter_map]
  rfl

theorem blocksOf_later (rows : List Row) : blocksOf (rows.map (Row.later d)) = blocksOf rows := by
  unfold blocksOf
  rw [List.filterMap_map]
  rfl

theorem map_diff_later (rows : List Row) :
    (rows.map (Row.later d)).map Row.diff = rows.map Row.diff := by
  rw [List.map_map]
  rfl

theorem pairSummary_shift (other : Fin n) (interval : Nat) :
    ((shift σ d).collector c).pairSummary (σ other) interval = c.pairSummary other interval := by
  have hname : ∀ s : Fin n, ((shift σ d).collector c).sources.get (σ s) = c.sources.get s :=
    get_moved_apply σ c.sources
  have href : ((shift σ d).collector c).reference = σ c.reference := rfl
  have hstart : ((shift σ d).collector c).start = c.start + d := rfl
  have hnitro : ((shift σ d).collector c).nitroPresent = c.nitroPresent := rfl
  have hbucket : ∀ label blocks sizedBlocks sizedTxs rows,
      BucketStats.of .exact label blocks sizedBlocks sizedTxs (rows.map (Row.later d)) =
        BucketStats.of .exact label blocks sizedBlocks sizedTxs rows := by
    intro label blocks sizedBlocks sizedTxs rows
    unfold BucketStats.of
    rw [map_diff_later]
  rw [Collector.pairSummary_rows, Collector.pairSummary_rows]
  unfold Collector.pairSummaryOf
  rw [rows_shift, hstart, href, hnitro]
  simp only [hname, List.length_map, map_diff_later, List.countP_map, bucketRows_later,
    blocksOf_later, byInterval_later, hbucket]
  rfl

/-! ### The report -/

theorem getElem?_finRange_map {α : Type*} (f : Fin n → α) (i : Fin n) :
    ((List.finRange n).map f)[(i : Nat)]? = some (f i) := by
  rw [List.getElem?_map, List.getElem?_eq_getElem (by simp), List.getElem_finRange]
  rfl

end Recast

/-- The report of `c'` is the report of `c`, its sources numbered by `σ` and its clock ahead by
`d`: the line of source `i` is the line of source `σ i`. -/
structure Renumbers (σ : Equiv.Perm (Fin n)) (d : Nat) (c c' : Collector n) : Prop where
  completed : ∀ label since til,
    (c'.blockSummary label (since.map (· + d)) (til + d)).completed =
      (c.blockSummary label since til).completed
  blocks : ∀ label since til (i : Fin n),
    (c'.blockSummary label (since.map (· + d)) (til + d)).perSource[(σ i : Nat)]? =
      (c.blockSummary label since til).perSource[(i : Nat)]?
  total : c'.txSummary.total = c.txSummary.total
  matched : c'.txSummary.matched = c.txSummary.matched
  syntheticSwaps : c'.txSummary.syntheticSwaps = c.txSummary.syntheticSwaps
  txs : ∀ i : Fin n, c'.txSummary.perSource[(σ i : Nat)]? = c.txSummary.perSource[(i : Nat)]?
  pairs : ∀ other interval, c'.pairSummary (σ other) interval = c.pairSummary other interval
  window : ∀ now, c'.windowSeconds (now + d) = c.windowSeconds now

namespace Recast

theorem renumbers_shift (σ : Equiv.Perm (Fin n)) (d : Nat) (c : Collector n) :
    Renumbers σ d c ((shift σ d).collector c) := by
  have hname : ∀ s : Fin n, ((shift σ d).collector c).sources.get (σ s) = c.sources.get s :=
    get_moved_apply σ c.sources
  refine ⟨?_, ?_, ?_, ?_, ?_, ?_, pairSummary_shift σ d c, windowSeconds_shift σ d c⟩
  · intro label since til
    exact (congrArg BlockTable.completed (blockTable_shift σ d c since til)).trans rfl
  · intro label since til i
    unfold Collector.blockSummary Collector.blockSummaryIn
    dsimp only
    rw [getElem?_finRange_map, getElem?_finRange_map, hname, blockTable_shift]
    unfold BlockTable.moved
    simp only [get_moved_apply]
  · exact (congrArg TxTable.total (txTable_shift σ d c)).trans rfl
  · exact (congrArg TxTable.matched (txTable_shift σ d c)).trans rfl
  · exact (congrArg TxTable.swaps (txTable_shift σ d c)).trans rfl
  · intro i
    unfold Collector.txSummary Collector.txSummaryIn
    dsimp only
    rw [getElem?_finRange_map, getElem?_finRange_map, hname, txTable_shift]
    unfold TxTable.moved
    simp only [get_moved_apply]

end Recast

namespace Collector

/-- **Symmetry.** Whatever is processed in whatever order, numbering the sources otherwise and
reading a clock that is ahead only renumbers the lines of the report. -/
theorem report_symmetric (σ : Equiv.Perm (Fin n)) (d : Nat) (sources : Vector SourceInfo n)
    (reference : Fin n) (minSources warmup start : Nat) (es : List (Event n)) :
    Renumbers σ d ((new sources reference minSources warmup start).run es)
      ((new (moved σ sources) (σ reference) minSources warmup (start + d)).run
        (es.map (Recast.shift σ d).event)) := by
  have hnew := (Recast.shift σ d).collector_new sources reference minSources warmup start
  have hrun := (Recast.shift σ d).run_collector (new sources reference minSources warmup start) es
  rw [hnew] at hrun
  rw [show (new (moved σ sources) (σ reference) minSources warmup (start + d)).run
    (es.map (Recast.shift σ d).event) = _ from hrun]
  exact Recast.renumbers_shift σ d _

end Collector

end FeedBench.Stats
