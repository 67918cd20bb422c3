import FeedBench.Stats.Proofs.Records
import FeedBench.Lib.Interleave
import Mathlib.Data.Fintype.Basic
import Mathlib.Tactic.FinCases

/-!
# Records do not depend on the interleaving

The channel keeps each source's own order and nothing else.  The per-source vectors are
views that one source drives, the first-writer-wins and the overridden fields are
registers, `syntheticSwap` and `blockFromNitro` are flags, and the slots of a record read
off each source's own sequence.
-/

namespace FeedBench.Stats

open Lib

variable {n : Nat}

namespace Collector

/-! ## Block registers -/

def blockSeq (key : String) (c : Collector n) : Option UInt64 :=
  (c.blocks.lookup key).bind (·.seq)

def blockHash (key : String) (c : Collector n) : Option String :=
  (c.blocks.lookup key).bind (·.hash)

def blockCount (key : String) (c : Collector n) : Option UInt32 :=
  (c.blocks.lookup key).bind (·.txCount)

theorem blockReported_onEvent (c : Collector n) (e : Event n) (key : String) :
    blockSeq key (c.onEvent e).1 = (blockSeq key c).or (e.seqFor key) ∧
      blockHash key (c.onEvent e).1 = (blockHash key c).or (e.hashFor key) ∧
      blockCount key (c.onEvent e).1 = (blockCount key c).or (e.countFor key) := by
  unfold blockSeq blockHash blockCount
  rw [lookup_blocks_onEvent]
  obtain ⟨s, t, p⟩ := e
  cases p with
  | block k seq hash txCount wireLen =>
      by_cases hk : k = key
      · subst hk
        simp only [if_true, Option.bind_some, blockAfter, BlockRec.deliver_seq,
          BlockRec.deliver_hash, BlockRec.deliver_txCount, blockBefore, Event.seqFor,
          Event.hashFor, Event.countFor]
        cases c.blocks.lookup k with
        | none => cases seq <;> simp [BlockRec.fresh, BlockRec.fill]
        | some r =>
            simp only [Option.getD_some, Option.bind_some, BlockRec.fill]
            refine ⟨?_, ?_, ?_⟩
            · cases r.seq <;> rfl
            · cases r.hash <;> rfl
            · cases r.txCount <;> rfl
      · simp [hk, Event.seqFor, Event.hashFor, Event.countFor]
  | tx | connected | disconnected =>
      simp [Event.seqFor, Event.hashFor, Event.countFor]

variable {c₀ : Collector n} {es es' : List (Event n)}

theorem blockSeq_run (h₀ : c₀.IsNew) (es : List (Event n)) (key : String) :
    Reported (fun v => ∃ e ∈ es, e.seqFor key = some v) (blockSeq key (c₀.run es)) :=
  register_foldl (I := fun _ => True) (fun _ _ h => h)
    (isRegister_of_or fun c e => (c.blockReported_onEvent e key).1)
    trivial (by simp [blockSeq, h₀.blocks]) es

theorem blockHash_run (h₀ : c₀.IsNew) (es : List (Event n)) (key : String) :
    Reported (fun v => ∃ e ∈ es, e.hashFor key = some v) (blockHash key (c₀.run es)) :=
  register_foldl (I := fun _ => True) (fun _ _ h => h)
    (isRegister_of_or fun c e => (c.blockReported_onEvent e key).2.1)
    trivial (by simp [blockHash, h₀.blocks]) es

theorem blockCount_run (h₀ : c₀.IsNew) (es : List (Event n)) (key : String) :
    Reported (fun v => ∃ e ∈ es, e.countFor key = some v) (blockCount key (c₀.run es)) :=
  register_foldl (I := fun _ => True) (fun _ _ h => h)
    (isRegister_of_or fun c e => (c.blockReported_onEvent e key).2.2)
    trivial (by simp [blockCount, h₀.blocks]) es

/-! ## Transaction registers and flags -/

def isNitro (c : Collector n) (s : Fin n) : Bool := (c.sources.get s).kind == "nitro"

def txBlockKey (hash : Hash) (c : Collector n) : Option String :=
  (c.txs.lookup hash).bind (·.blockKey)

def txCountOf (hash : Hash) (c : Collector n) : Option UInt32 :=
  (c.txs.lookup hash).bind (·.txCount)

def txFromNitro (hash : Hash) (c : Collector n) : Bool :=
  (c.txs.lookup hash).elim false (·.blockFromNitro)

def txSwap (hash : Hash) (c : Collector n) : Bool :=
  (c.txs.lookup hash).elim false (·.syntheticSwap)

def takesKey (c : Collector n) (e : Event n) (hash : Hash) : Bool :=
  (e.blockKeyFor hash).isSome &&
    ((txBlockKey hash c).isNone || (c.isNitro e.source && !txFromNitro hash c))

theorem txReported_onEvent (c : Collector n) (e : Event n) (hash : Hash) :
    (txBlockKey hash (c.onEvent e).1 =
        if c.takesKey e hash then e.blockKeyFor hash else txBlockKey hash c) ∧
      (txFromNitro hash (c.onEvent e).1 =
        if c.takesKey e hash then c.isNitro e.source else txFromNitro hash c) ∧
      (txCountOf hash (c.onEvent e).1 =
        if c.isNitro e.source && (e.txCountFor hash).isSome then e.txCountFor hash
        else txCountOf hash c) ∧
      txSwap hash (c.onEvent e).1 = (txSwap hash c || e.swapFor hash) := by
  unfold takesKey txBlockKey txFromNitro txCountOf txSwap
  rw [lookup_txs_onEvent]
  obtain ⟨s, t, p⟩ := e
  cases p with
  | tx h blockKey txCount swap rawLen =>
      by_cases hh : h = hash
      · subst hh
        simp only [if_true, txAfter, Option.bind_some, Option.elim_some, TxRec.deliver_blockKey,
          TxRec.deliver_txCount, TxRec.deliver_blockFromNitro, TxRec.deliver_syntheticSwap,
          TxRec.fill, Event.blockKeyFor, Event.txCountFor, Event.swapFor, beq_self_eq_true,
          Bool.true_and, isNitro]
        cases c.txs.lookup h <;> exact ⟨rfl, rfl, rfl, rfl⟩
      · simp [hh, Event.blockKeyFor, Event.txCountFor, Event.swapFor]
  | block | connected | disconnected =>
      simp [Event.blockKeyFor, Event.txCountFor, Event.swapFor]

/-- The invariant under which `txFromNitro` is a flag. -/
def NitroKeyed (sources : Vector SourceInfo n) (hash : Hash) (c : Collector n) : Prop :=
  c.sources = sources ∧ (txFromNitro hash c = true → (txBlockKey hash c).isSome)

theorem nitroKeyed_onEvent {sources : Vector SourceInfo n} {hash : Hash} (c : Collector n)
    (e : Event n) (h : NitroKeyed sources hash c) : NitroKeyed sources hash (c.onEvent e).1 := by
  refine ⟨by rw [onEvent_sources, h.1], fun hn => ?_⟩
  obtain ⟨hkey, hnitro, -⟩ := c.txReported_onEvent e hash
  rw [hnitro] at hn
  rw [hkey]
  split
  · next ht =>
    simp only [takesKey, Bool.and_eq_true] at ht
    exact ht.1
  · next ht =>
    rw [if_neg ht] at hn
    exact h.2 hn

def nitroCountFor (c₀ : Collector n) (hash : Hash) (e : Event n) : Option UInt32 :=
  if c₀.isNitro e.source then e.txCountFor hash else none

def nitroKeyFor (c₀ : Collector n) (hash : Hash) (e : Event n) : Bool :=
  (e.blockKeyFor hash).isSome && c₀.isNitro e.source

theorem isNitro_congr {c c' : Collector n} (h : c.sources = c'.sources) (s : Fin n) :
    c.isNitro s = c'.isNitro s := by
  rw [isNitro, isNitro, h]

theorem txBlockKey_run (h₀ : c₀.IsNew) (es : List (Event n)) (hash : Hash) :
    Reported (fun v => ∃ e ∈ es, e.blockKeyFor hash = some v) (txBlockKey hash (c₀.run es)) := by
  refine register_foldl (I := fun _ => True) (fun _ _ h => h) ?_ trivial
    (by simp [txBlockKey, h₀.txs]) es
  intro c e _
  obtain ⟨hkey, -⟩ := c.txReported_onEvent e hash
  rw [hkey]
  by_cases ht : c.takesKey e hash = true
  · rw [if_pos ht]
    simp only [takesKey, Bool.and_eq_true] at ht
    exact .inr ⟨ht.1, rfl⟩
  · rw [if_neg ht]
    refine .inl ⟨rfl, fun hsome => ?_⟩
    by_contra hnone
    exact ht (by simp_all [takesKey])

theorem txCountOf_run (h₀ : c₀.IsNew) (es : List (Event n)) (hash : Hash) :
    Reported (fun v => ∃ e ∈ es, c₀.nitroCountFor hash e = some v)
      (txCountOf hash (c₀.run es)) := by
  refine register_foldl (I := fun c => c.sources = c₀.sources)
    (fun c e h => by rw [onEvent_sources, h]) ?_ rfl (by simp [txCountOf, h₀.txs]) es
  intro c e hc
  obtain ⟨-, -, hcount, -⟩ := c.txReported_onEvent e hash
  rw [hcount, isNitro_congr hc, nitroCountFor]
  by_cases hn : c₀.isNitro e.source = true
  · cases hr : e.txCountFor hash with
    | none => exact .inl ⟨by simp, fun h => by simp at h⟩
    | some v => exact .inr ⟨by simp [hn], by simp [hn]⟩
  · exact .inl ⟨by simp [hn], fun h => by simp [hn] at h⟩

theorem txFromNitro_run (h₀ : c₀.IsNew) (es : List (Event n)) (hash : Hash) :
    txFromNitro hash (c₀.run es) = es.any (c₀.nitroKeyFor hash) := by
  have hstep : ∀ c e, NitroKeyed c₀.sources hash c →
      txFromNitro hash (c.onEvent e).1 = (txFromNitro hash c || c₀.nitroKeyFor hash e) := by
    intro c e hc
    obtain ⟨-, hnitro, -⟩ := c.txReported_onEvent e hash
    rw [hnitro]
    unfold nitroKeyFor takesKey
    rw [isNitro_congr hc.1]
    cases hf : txFromNitro hash c with
    | true =>
        obtain ⟨k, hk⟩ := Option.isSome_iff_exists.mp (hc.2 hf)
        simp [hk]
    | false =>
        cases (e.blockKeyFor hash).isSome <;> cases c₀.isNitro e.source <;> simp
  have hkeyed : NitroKeyed c₀.sources hash c₀ := ⟨rfl, by simp [txFromNitro, h₀.txs]⟩
  rw [run, flag_foldl nitroKeyed_onEvent (txFromNitro hash) hstep hkeyed]
  simp [txFromNitro, h₀.txs]

theorem txSwap_run (h₀ : c₀.IsNew) (es : List (Event n)) (hash : Hash) :
    txSwap hash (c₀.run es) = es.any (Event.swapFor hash) := by
  have hstep : ∀ (c : Collector n) (e : Event n), True →
      txSwap hash (c.onEvent e).1 = (txSwap hash c || e.swapFor hash) :=
    fun c e _ => (txReported_onEvent c e hash).2.2.2
  have hfold : txSwap hash (c₀.run es) = (txSwap hash c₀ || es.any (Event.swapFor hash)) :=
    flag_foldl (I := fun _ => True) (fun _ _ h => h) (txSwap hash) hstep trivial es
  rw [hfold]
  simp [txSwap, h₀.txs]

/-! ## Confluence -/

def Consistent {α : Type*} (es : List (Event n)) (report : Event n → Option α) : Prop :=
  ∀ e ∈ es, ∀ e' ∈ es, ∀ v w, report e = some v → report e' = some w → v = w

/-- What the two interleavings must satisfy: the least arrival of a block belongs to one
source, and reports about one record agree. -/
structure Agreeing (c₀ : Collector n) (es : List (Event n)) : Prop where
  first_unique : ∀ key s s' t, firstOf (Event.isBlockFrom key s) Event.t es = some t →
    firstOf (Event.isBlockFrom key s') Event.t es = some t →
    (∀ s'' t'', firstOf (Event.isBlockFrom key s'') Event.t es = some t'' → t ≤ t'') → s = s'
  seq : ∀ key, Consistent es (Event.seqFor key)
  hash : ∀ key, Consistent es (Event.hashFor key)
  count : ∀ key, Consistent es (Event.countFor key)
  blockKey : ∀ hash, Consistent es (Event.blockKeyFor hash)
  nitroCount : ∀ hash, Consistent es (c₀.nitroCountFor hash)

/-- The two collectors agree on every record (the completion instant of a block aside) and
on every per-source component. -/
structure SameRecords (c c' : Collector n) : Prop where
  blocks : ∀ key, (c.blocks.lookup key).map (fun r => { r with completedAt := none }) =
    (c'.blocks.lookup key).map (fun r => { r with completedAt := none })
  txs : ∀ hash, c.txs.lookup hash = c'.txs.lookup hash
  connected : c.connected = c'.connected
  everConnected : c.everConnected = c'.everConnected
  reconnects : c.reconnects = c'.reconnects
  details : c.details = c'.details
  txEvents : c.txEvents = c'.txEvents
  blockEvents : c.blockEvents = c'.blockEvents
  wireBytes : c.wireBytes = c'.wireBytes
  rawTxBytes : c.rawTxBytes = c'.rawTxBytes

variable {es es' : List (Event n)}

theorem lane_run_eq (h : SameStreams Event.source es es') (s : Fin n) :
    (c₀.run es).lane s = (c₀.run es').lane s := by
  have hview : ∀ es : List (Event n), (c₀.run es).lane s =
      (es.filter (fun e => e.source = s)).foldl Lane.move (c₀.lane s) := by
    intro es
    have hstep : ∀ (c : Collector n) (e : Event n), (c.onEvent e).1.lane s =
        if decide (e.source = s) = true then (c.lane s).move e else c.lane s := by
      intro c e
      rw [lane_onEvent]
      simp
    exact foldl_view (fun c => lane c s) hstep c₀ es
  rw [hview, hview, h s]

theorem blockSlot_run_eq (h₀ : c₀.IsNew) (h : SameStreams Event.source es es') (key : String)
    (s : Fin n) : (c₀.run es).blockSlot key s = (c₀.run es').blockSlot key s := by
  have hown : ∀ e : Event n, e.isBlockFrom key s = true → decide (e.source = s) = true :=
    fun _ he => source_of_isBlockFrom he
  rw [blockSlot_run h₀, blockSlot_run h₀, ← firstOf_filter hown, h s, firstOf_filter hown]

theorem txSlot_run_eq (h₀ : c₀.IsNew) (h : SameStreams Event.source es es') (hash : Hash)
    (s : Fin n) : (c₀.run es).txSlot hash s = (c₀.run es').txSlot hash s := by
  have hown : ∀ e : Event n, e.isTxFrom hash s = true → decide (e.source = s) = true :=
    fun _ he => source_of_isTxFrom he
  rw [txSlot_run h₀, txSlot_run h₀, ← firstOf_filter hown, h s, firstOf_filter hown]

/-- A register that all reports agree on does not see the interleaving. -/
theorem Consistent.reported_unique {α : Type*} {report : Event n → Option α}
    (hcons : Consistent es report) (h : SameStreams Event.source es es') {o o' : Option α}
    (ho : Reported (fun v => ∃ e ∈ es, report e = some v) o)
    (ho' : Reported (fun v => ∃ e ∈ es', report e = some v) o') : o = o' := by
  refine ho.unique ho' (fun v => ?_) ?_
  · simp only [h.mem_iff]
  · intro v w hv hw
    obtain ⟨e, he, hv⟩ := hv
    obtain ⟨e', he', hw⟩ := hw
    exact hcons e he e' he' v w hv hw

theorem lookup_blocks_eq (h₀ : c₀.IsNew) (hag : c₀.Agreeing es)
    (h : SameStreams Event.source es es') (key : String) :
    ((c₀.run es).blocks.lookup key).map (fun r => { r with completedAt := none }) =
      ((c₀.run es').blocks.lookup key).map (fun r => { r with completedAt := none }) := by
  have hslot := blockSlot_run_eq h₀ h key
  have hseq := (hag.seq key).reported_unique h (blockSeq_run h₀ es key) (blockSeq_run h₀ es' key)
  have hhash := (hag.hash key).reported_unique h (blockHash_run h₀ es key)
    (blockHash_run h₀ es' key)
  have hcount := (hag.count key).reported_unique h (blockCount_run h₀ es key)
    (blockCount_run h₀ es' key)
  have hfilled : ∀ (es : List (Event n)) (r : BlockRec n),
      (c₀.run es).blocks.lookup key = some r → ∃ t, Present r.arrivals t := by
    intro es r hr
    exact ⟨r.first, (blockTally_run h₀ es key r hr).tally.first_present⟩
  rcases rows_alike (fun r hr => hr.elim (hfilled es r) (hfilled es' r)) hslot with
    ⟨hr, hr'⟩ | ⟨r, r', hr, hr', harr⟩
  · rw [hr, hr']
  · have ht := blockTally_run h₀ es key r hr
    have ht' := blockTally_run h₀ es' key r' hr'
    obtain ⟨hseen, hfirst⟩ := ht.tally.unique (harr ▸ ht'.tally)
    have hread : ∀ s, r.arrivals.get s = firstOf (Event.isBlockFrom key s) Event.t es := by
      intro s
      rw [← blockSlot_run h₀ es key s, blockSlot, hr, Option.bind_some]
    have hsrc : r.firstSrc = r'.firstSrc := by
      apply hag.first_unique key _ _ r.first
      · rw [← hread, ht.first_src]
      · rw [← hread, harr, ht'.first_src, hfirst]
      · intro s t hs
        exact ht.tally.first_le s t (by rw [hread, hs])
    simp only [blockSeq, blockHash, blockCount, hr, hr', Option.bind_some] at hseq hhash hcount
    simp only [hr, hr', Option.map_some, harr, hseen, hfirst, hsrc, hseq, hhash, hcount]

theorem lookup_txs_eq (h₀ : c₀.IsNew) (hag : c₀.Agreeing es)
    (h : SameStreams Event.source es es') (hash : Hash) :
    (c₀.run es).txs.lookup hash = (c₀.run es').txs.lookup hash := by
  have hslot := txSlot_run_eq h₀ h hash
  have hkey := (hag.blockKey hash).reported_unique h (txBlockKey_run h₀ es hash)
    (txBlockKey_run h₀ es' hash)
  have hcount := (hag.nitroCount hash).reported_unique h (txCountOf_run h₀ es hash)
    (txCountOf_run h₀ es' hash)
  have hnitro : txFromNitro hash (c₀.run es) = txFromNitro hash (c₀.run es') := by
    rw [txFromNitro_run h₀, txFromNitro_run h₀, h.any_eq]
  have hswap : txSwap hash (c₀.run es) = txSwap hash (c₀.run es') := by
    rw [txSwap_run h₀, txSwap_run h₀, h.any_eq]
  have hfilled : ∀ (es : List (Event n)) (r : TxRec n),
      (c₀.run es).txs.lookup hash = some r → ∃ t, Present r.arrivals t := by
    intro es r hr
    exact ⟨r.first, (txTally_run h₀ es hash r hr).first_present⟩
  rcases rows_alike (fun r hr => hr.elim (hfilled es r) (hfilled es' r)) hslot with
    ⟨hr, hr'⟩ | ⟨r, r', hr, hr', harr⟩
  · rw [hr, hr']
  · obtain ⟨hseen, hfirst⟩ :=
      (txTally_run h₀ es hash r hr).unique (harr ▸ txTally_run h₀ es' hash r' hr')
    simp only [txBlockKey, txCountOf, txFromNitro, txSwap, hr, hr', Option.bind_some,
      Option.elim_some] at hkey hcount hnitro hswap
    rw [hr, hr', Option.some.injEq]
    obtain ⟨⟩ := r
    obtain ⟨⟩ := r'
    simp_all

/-- **Confluence.** Two interleavings of the same per-source sequences leave the same records
and the same per-source components. -/
theorem confluence (sources : Vector SourceInfo n) (reference : Fin n)
    (minSources warmup start : Nat) (es es' : List (Event n))
    (h : SameStreams Event.source es es')
    (hag : (new sources reference minSources warmup start).Agreeing es) :
    SameRecords ((new sources reference minSources warmup start).run es)
      ((new sources reference minSources warmup start).run es') := by
  have h₀ : (new sources reference minSources warmup start).IsNew :=
    isNew_new sources reference minSources warmup start
  have hlane : ∀ s, ((new sources reference minSources warmup start).run es).lane s =
      ((new sources reference minSources warmup start).run es').lane s := lane_run_eq h
  simp only [lane, Lane.mk.injEq] at hlane
  refine ⟨lookup_blocks_eq h₀ hag h, lookup_txs_eq h₀ hag h, ?_, ?_, ?_, ?_, ?_, ?_, ?_, ?_⟩
  all_goals
    apply ext_get
    intro s
    have := hlane s
    simp_all

def twoDeliveries : List (Event 2) :=
  [⟨official, 5, .block "seq:7" (some 7) none (some 1) 512⟩,
    ⟨eira, 7, .block "seq:7" (some 7) none none 0⟩]

theorem confluence_two_deliveries :
    SameRecords ((new twoSources 1 2 0 0).run twoDeliveries)
      ((new twoSources 1 2 0 0).run twoDeliveries.reverse) := by
  apply confluence twoSources 1 2 0 0
  · intro s
    fin_cases s <;> rfl
  · refine ⟨?_, ?_, ?_, ?_, ?_, ?_⟩
    · intro key s s' t hs hs' _
      by_cases hk : "seq:7" = key
      · subst hk
        fin_cases s <;> fin_cases s' <;>
          simp_all [firstOf, twoDeliveries, Event.isBlockFrom] <;> omega
      · fin_cases s <;> simp_all [firstOf, twoDeliveries, Event.isBlockFrom]
    all_goals
      intro key e he e' he' v w hv hw
      simp only [twoDeliveries, List.mem_cons, List.not_mem_nil, or_false] at he he'
      rcases he with rfl | rfl <;> rcases he' with rfl | rfl <;>
        simp_all [Event.seqFor, Event.hashFor, Event.countFor, Event.blockKeyFor, nitroCountFor,
          Event.txCountFor]

end Collector

end FeedBench.Stats
