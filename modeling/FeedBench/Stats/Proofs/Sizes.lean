import FeedBench.Stats.Tables
import FeedBench.Stats.Proofs.RecordLaw
import FeedBench.Stats.Proofs.Confluence

/-!
# Block sizes in the pair tables

The block a transaction is attributed to is the one its first Nitro event names, while the
size on its record is overwritten by every later one.  The two belong together as long as
the Nitro events of a transaction agree on the size; without a Nitro source, as long as the
reference source delivers a transaction under one key.  Then a block key has one size, and
the columns of the buckets add up.
-/

namespace FeedBench.Stats

open Lib

variable {n : Nat}

/-! ## Sizes as the events report them -/

namespace Collector

def nitroSizeFor (c₀ : Collector n) (key : String) (e : Event n) : Option UInt32 :=
  if c₀.isNitro e.source then
    match e.payload with
    | .block k _ _ txCount _ => if k = key then txCount else none
    | .tx _ blockKey txCount _ _ => if blockKey = some key then txCount else none
    | _ => none
  else none

def refTxFor (c₀ : Collector n) (key : String) (e : Event n) : Option Hash :=
  if e.source = c₀.reference then
    match e.payload with
    | .tx hash blockKey _ _ _ => if blockKey = some key then some hash else none
    | _ => none
  else none

def refTxs (c₀ : Collector n) (es : List (Event n)) (key : String) : List Hash :=
  (es.filterMap (c₀.refTxFor key)).dedup

/-- The size of a block: what the Nitro sources say, or else the reference's count. -/
def IsSize (c₀ : Collector n) (es : List (Event n)) (key : String) (v : UInt32) : Prop :=
  if c₀.nitroPresent then
    (∃ e ∈ es, c₀.nitroSizeFor key e = some v) ∧
      ∀ e ∈ es, ∀ w, c₀.nitroSizeFor key e = some w → w = v
  else v.toNat = (c₀.refTxs es key).length

/-- The Nitro events of one transaction carry one size, and none carries zero. -/
structure OneSize (c₀ : Collector n) (es : List (Event n)) : Prop where
  same : ∀ hash, ∀ e ∈ es, ∀ e' ∈ es, c₀.isNitro e.source → c₀.isNitro e'.source →
    e.isTxFrom hash e.source → e'.isTxFrom hash e'.source → e.txCountFor hash = e'.txCountFor hash
  nonzero : ∀ hash, ∀ e ∈ es, c₀.nitroCountFor hash e ≠ some 0

/-- A transaction the reference source delivered has one key, which it reported itself. -/
structure OneRefKey (c₀ : Collector n) (es : List (Event n)) : Prop where
  one : ∀ hash key key', ∀ e ∈ es, ∀ e' ∈ es, c₀.refTxFor key e = some hash →
    c₀.refTxFor key' e' = some hash → key = key'
  own : ∀ hash key, (∃ e ∈ es, e.isTxFrom hash c₀.reference) →
    (∃ e ∈ es, e.blockKeyFor hash = some key) → ∃ e ∈ es, c₀.refTxFor key e = some hash
  few : ∀ key, (c₀.refTxs es key).length < 2 ^ 32

/-- Every transaction stays with blocks of one size. -/
def Settled (c₀ : Collector n) (es : List (Event n)) : Prop :=
  if c₀.nitroPresent then c₀.OneSize es else c₀.OneRefKey es

/-! ## Rows -/

variable {c c₀ : Collector n} {es : List (Event n)} {other : Fin n}

theorem mem_rows {x : Row} (hx : x ∈ c.rows other) : ∃ hash r, c.txs.lookup hash = some r ∧
    (r.arrivals.get c.reference).isSome ∧ x.block = r.blockKey ∧
    x.size = if c.nitroPresent then r.txCount.filter fun _ => r.blockFromNitro
      else r.blockKey.bind fun k => c.refCounts.lookup k := by
  obtain ⟨⟨hash, r⟩, hmem, hrow⟩ := List.mem_filterMap.mp hx
  refine ⟨hash, r, AList.mem_lookup_iff.mpr hmem, ?_⟩
  unfold row at hrow
  split at hrow
  · next tr tt htr htt =>
    split at hrow
    · cases hrow
    · cases hrow
      exact ⟨by rw [htr]; rfl, rfl, rfl⟩
  · cases hrow

/-! ## With a Nitro source -/

/-- Once a Nitro source named the block, the key on record is one a Nitro event reported. -/
theorem nitroKey_run (h₀ : c₀.IsNew) (es : List (Event n)) (hash : Hash)
    (hn : txFromNitro hash (c₀.run es) = true) : ∃ e ∈ es, c₀.isNitro e.source = true ∧
      (e.blockKeyFor hash).isSome ∧ txBlockKey hash (c₀.run es) = e.blockKeyFor hash := by
  induction es using List.reverseRecOn with
  | nil => simp [txFromNitro, h₀.txs] at hn
  | append_singleton es e ih =>
      rw [run_append, run_cons, run_nil] at hn ⊢
      obtain ⟨hkey, hnitro, -⟩ := (c₀.run es).txReported_onEvent e hash
      rw [hnitro] at hn
      rw [hkey]
      by_cases ht : (c₀.run es).takesKey e hash = true
      · rw [if_pos ht] at hn ⊢
        rw [isNitro_congr ((c₀.run_sources es))] at hn
        simp only [takesKey, Bool.and_eq_true] at ht
        exact ⟨e, by simp, hn, ht.1, rfl⟩
      · rw [if_neg ht] at hn ⊢
        obtain ⟨e', he', hrest⟩ := ih hn
        exact ⟨e', List.mem_append_left _ he', hrest⟩

theorem reports_none {e : Event n} {hash : Hash} (h : e.isTxFrom hash e.source ≠ true) :
    e.blockKeyFor hash = none ∧ e.txCountFor hash = none := by
  obtain ⟨s, t, p⟩ := e
  cases p with
  | tx h' =>
      have hne : h' ≠ hash := by simpa [Event.isTxFrom] using h
      exact ⟨if_neg hne, if_neg hne⟩
  | block | connected | disconnected => exact ⟨rfl, rfl⟩

theorem isTxFrom_of_blockKeyFor {e : Event n} {hash : Hash} (h : (e.blockKeyFor hash).isSome) :
    e.isTxFrom hash e.source = true := by
  by_contra hfrom
  rw [(reports_none hfrom).1] at h
  cases h

theorem isTxFrom_of_txCountFor {e : Event n} {hash : Hash} (h : (e.txCountFor hash).isSome) :
    e.isTxFrom hash e.source = true := by
  by_contra hfrom
  rw [(reports_none hfrom).2] at h
  cases h

theorem nitroSizeFor_of_tx {e : Event n} {hash : Hash} {key : String}
    (hn : c₀.isNitro e.source = true) (hkey : e.blockKeyFor hash = some key) :
    c₀.nitroSizeFor key e = e.txCountFor hash := by
  obtain ⟨s, t, p⟩ := e
  cases p with
  | tx h' blockKey txCount swap rawLen =>
      by_cases hh : h' = hash
      · subst hh
        simp_all [nitroSizeFor, Event.blockKeyFor, Event.txCountFor]
      · simp [Event.blockKeyFor, hh] at hkey
  | block | connected | disconnected => cases hkey

theorem nitro_size_named (h₀ : c₀.IsNew) (hsame : c₀.OneSize es)
    (hcount : ∀ key, Consistent es (c₀.nitroSizeFor key)) {hash : Hash} {r : TxRec n}
    (hr : (c₀.run es).txs.lookup hash = some r) {v : UInt32} (hv : r.txCount = some v)
    (hn : r.blockFromNitro = true) : v ≠ 0 ∧ ∃ key, r.blockKey = some key ∧
      (∃ e ∈ es, c₀.nitroSizeFor key e = some v) ∧
        ∀ e ∈ es, ∀ w, c₀.nitroSizeFor key e = some w → w = v := by
  have hfrom : txFromNitro hash (c₀.run es) = true := by rw [txFromNitro, hr]; exact hn
  have hrec : txBlockKey hash (c₀.run es) = r.blockKey := by rw [txBlockKey, hr]; rfl
  obtain ⟨e, he, hnitro, hsome, hkey⟩ := nitroKey_run h₀ es hash hfrom
  obtain ⟨e', he', hcount'⟩ := (txCountOf_run h₀ es hash).sound v (by rw [txCountOf, hr]; exact hv)
  have hzero : v ≠ 0 := by
    intro hzero
    exact hsame.nonzero hash e' he' (hzero ▸ hcount')
  unfold nitroCountFor at hcount'
  split at hcount'
  · next hnitro' =>
    obtain ⟨key, hekey⟩ := Option.isSome_iff_exists.mp hsome
    have hsize : c₀.nitroSizeFor key e = some v := by
      rw [nitroSizeFor_of_tx hnitro hekey, ← hcount']
      exact hsame.same hash e he e' he' hnitro hnitro' (isTxFrom_of_blockKeyFor hsome)
        (isTxFrom_of_txCountFor (by rw [hcount']; rfl))
    refine ⟨hzero, key, by rw [← hrec, hkey, hekey], ⟨e, he, hsize⟩, ?_⟩
    intro e'' he'' w hw
    exact hcount key e'' he'' e he w v hw hsize
  · cases hcount'

/-! ## Without a Nitro source -/

theorem refTxFor_eq_some {e : Event n} {hash : Hash} {key : String} :
    c₀.refTxFor key e = some hash ↔
      e.isTxFrom hash c₀.reference = true ∧ e.blockKeyFor hash = some key := by
  obtain ⟨s, t, p⟩ := e
  cases p with
  | tx h' blockKey txCount swap rawLen =>
      simp only [refTxFor, Event.isTxFrom, Event.blockKeyFor, Bool.and_eq_true, beq_iff_eq]
      constructor
      · intro h
        split at h
        · split at h
          · cases h
            simp_all
          · cases h
        · cases h
      · rintro ⟨⟨rfl, rfl⟩, hkey⟩
        simp_all
  | block | connected | disconnected => simp [refTxFor, Event.isTxFrom]

theorem foldl_succ {α : Type*} (l : List α) (v : UInt32) :
    l.foldl (fun count _ => count + 1) v = v + UInt32.ofNat l.length := by
  induction l generalizing v with
  | nil => simp
  | cons x l ih =>
      rw [List.foldl_cons, ih, List.length_cons, UInt32.add_assoc, UInt32.ofNat_add,
        UInt32.add_comm (UInt32.ofNat l.length)]
      rfl

/-- The reference's count of a block: the records it has an arrival in, by their key. -/
theorem refCounts_eq (hno : c.nitroPresent = false) (key : String) :
    c.refCounts.lookup key =
      if (c.txs.entries.countP fun e => c.refKey e.2 = some key) = 0 then none
      else some (.ofNat (c.txs.entries.countP fun e => c.refKey e.2 = some key)) := by
  have hcount : ((c.txs.entries.filterMap fun e => c.refKey e.2).filter
      fun k => id k = key).length = c.txs.entries.countP fun e => c.refKey e.2 = some key := by
    rw [← List.countP_eq_length_filter, List.countP_filterMap]
    congr 1
    funext e
    cases c.refKey e.2 <;> simp
  have hany : (c.txs.entries.filterMap fun e => c.refKey e.2).any (fun k => id k = key) = true ↔
      (c.txs.entries.countP fun e => c.refKey e.2 = some key) ≠ 0 := by
    rw [← hcount, ← List.countP_eq_length_filter, ← Nat.pos_iff_ne_zero, List.countP_pos_iff,
      List.any_eq_true]
  rw [refCounts, if_neg (by simp [hno]), lookup_group, foldl_succ, UInt32.zero_add, hcount]
  by_cases hzero : (c.txs.entries.countP fun e => c.refKey e.2 = some key) = 0
  · rw [if_pos hzero, if_neg fun h => hany.mp h hzero]
  · rw [if_neg hzero, if_pos (hany.mpr hzero)]

theorem refCounts_lookup (hno : c.nitroPresent = false) {key : String} {v : UInt32}
    (hv : c.refCounts.lookup key = some v) : v = UInt32.ofNat
      (c.txs.entries.filter fun e => c.refKey e.2 = some key).length := by
  rw [refCounts_eq hno] at hv
  split at hv
  · cases hv
  · rw [← List.countP_eq_length_filter]
    exact (Option.some.inj hv).symm

theorem refKey_eq_some {r : TxRec n} {key : String} : c.refKey r = some key ↔
    (r.arrivals.get c.reference).isSome ∧ r.blockKey = some key := by
  unfold refKey
  split
  · next h => simp [h]
  · next h => simp [h]

theorem mem_refTxs_iff (h₀ : c₀.IsNew) (hone : c₀.OneRefKey es) {hash : Hash} {key : String} :
    hash ∈ c₀.refTxs es key ↔ ∃ r, (c₀.run es).txs.lookup hash = some r ∧
      (c₀.run es).refKey r = some key := by
  have hslot := txSlot_run h₀ es hash c₀.reference
  have hkey := txBlockKey_run h₀ es hash
  rw [refTxs, List.mem_dedup, List.mem_filterMap]
  constructor
  · rintro ⟨e, he, href⟩
    obtain ⟨hfrom, hekey⟩ := refTxFor_eq_some.mp href
    have hsome : (firstOf (Event.isTxFrom hash c₀.reference) Event.t es).isSome :=
      firstOf_isSome.mpr ⟨e, he, hfrom⟩
    rw [← hslot] at hsome
    obtain ⟨t, ht⟩ := Option.isSome_iff_exists.mp hsome
    obtain ⟨r, hr, harr⟩ := txSlot_lookup ht
    obtain ⟨key', hkey'⟩ := Option.isSome_iff_exists.mp (hkey.complete key ⟨e, he, hekey⟩)
    -- the key on record is the reference's own
    obtain ⟨e', he', href'⟩ := hone.own hash key' ⟨e, he, hfrom⟩ (hkey.sound key' hkey')
    have heq := hone.one hash key key' e he e' he' href href'
    rw [txBlockKey, hr, Option.bind_some] at hkey'
    refine ⟨r, hr, refKey_eq_some.mpr ⟨?_, by rw [hkey', heq]⟩⟩
    rw [run_reference, harr]
    rfl
  · rintro ⟨r, hr, hrefKey⟩
    obtain ⟨harr, hrkey⟩ := refKey_eq_some.mp hrefKey
    rw [run_reference] at harr
    have hsome : (firstOf (Event.isTxFrom hash c₀.reference) Event.t es).isSome := by
      rw [← hslot, txSlot, hr]
      exact harr
    exact hone.own hash key (firstOf_isSome.mp hsome)
      (hkey.sound key (by rw [txBlockKey, hr]; exact hrkey))

theorem refCounts_named (h₀ : c₀.IsNew) (hone : c₀.OneRefKey es)
    (hno : c₀.nitroPresent = false) {key : String} {v : UInt32}
    (hv : (c₀.run es).refCounts.lookup key = some v) :
    v.toNat = (c₀.refTxs es key).length := by
  rw [refCounts_lookup (by rw [run_nitroPresent, hno]) hv]
  have hperm : (((c₀.run es).txs.entries.filter fun e =>
      (c₀.run es).refKey e.2 = some key).map Sigma.fst).Perm (c₀.refTxs es key) := by
    apply (List.perm_ext_iff_of_nodup ?_ (List.nodup_dedup _)).mpr
    · intro hash
      rw [← refTxs, mem_refTxs_iff h₀ hone]
      simp only [List.mem_map, List.mem_filter, decide_eq_true_eq]
      constructor
      · rintro ⟨⟨hash', r⟩, ⟨hmem, hkey⟩, rfl⟩
        exact ⟨r, AList.mem_lookup_iff.mpr hmem, hkey⟩
      · rintro ⟨r, hr, hkey⟩
        exact ⟨⟨hash, r⟩, ⟨AList.mem_lookup_iff.mp hr, hkey⟩, rfl⟩
    · exact List.Nodup.sublist (List.filter_sublist.map _) (c₀.run es).txs.nodupKeys
  have hlen := hperm.length_eq
  rw [List.length_map] at hlen
  rw [hlen, UInt32.toNat_ofNat', Nat.mod_eq_of_lt (hone.few key)]

/-! ## Sized rows -/

/-- A sized row names the block whose size it has, and the size is not zero. -/
theorem size_named (h₀ : c₀.IsNew) (hsettled : c₀.Settled es)
    (hcount : ∀ key, Consistent es (c₀.nitroSizeFor key)) {x : Row}
    (hx : x ∈ (c₀.run es).rows other) {v : UInt32} (hv : x.size = some v) :
    v ≠ 0 ∧ ∃ key, x.block = some key ∧ c₀.IsSize es key v := by
  obtain ⟨hash, r, hr, harr, hblock, hsize⟩ := mem_rows hx
  rw [hv, run_nitroPresent] at hsize
  unfold Settled at hsettled
  unfold IsSize
  cases hno : c₀.nitroPresent with
  | true =>
      rw [hno, if_pos rfl] at hsize hsettled
      obtain ⟨hrv, hn⟩ := Option.filter_eq_some_iff.mp hsize.symm
      simp only [if_true, hblock]
      exact nitro_size_named h₀ hsettled hcount hr hrv hn
  | false =>
      rw [hno, if_neg Bool.false_ne_true] at hsize hsettled
      obtain ⟨key, hkey, hlookup⟩ := Option.bind_eq_some_iff.mp hsize.symm
      have hlen := refCounts_named h₀ hsettled hno hlookup
      have hmem : hash ∈ c₀.refTxs es key :=
        (mem_refTxs_iff h₀ hsettled).mpr ⟨r, hr, refKey_eq_some.mpr ⟨harr, hkey⟩⟩
      refine ⟨?_, key, by rw [hblock, hkey], by simpa using hlen⟩
      rintro rfl
      have := List.length_pos_of_mem hmem
      rw [← hlen] at this
      exact Nat.lt_irrefl _ this

theorem IsSize.unique {key : String} {v w : UInt32} (hv : c₀.IsSize es key v)
    (hw : c₀.IsSize es key w) : v = w := by
  unfold IsSize at hv hw
  split at hv
  · next hn =>
    rw [if_pos hn] at hw
    obtain ⟨e, he, hsize⟩ := hv.1
    exact hw.2 e he v hsize
  · next hn =>
    rw [if_neg hn] at hw
    exact UInt32.toNat_inj.mp (hv.trans hw.symm)

end Collector

/-! ## Buckets -/

theorem bucketOf_lt {v : UInt32} {b : Nat} (h : bucketOf v = some b) : b < buckets.length :=
  (List.findIdx?_eq_some_iff_findIdx_eq.mp h).1

theorem bucketOf_isSome {v : UInt32} (hv : v ≠ 0) : (bucketOf v).isSome := by
  have hpos : v.toNat ≠ 0 := fun h => hv (UInt32.toNat_inj.mp h)
  have hmax : v.toNat < 2 ^ 32 := v.toNat_lt
  rw [bucketOf, List.findIdx?_isSome]
  simp only [buckets, List.any_cons, List.any_nil, Bool.or_eq_true, Bool.and_eq_true,
    decide_eq_true_eq, UInt32.le_iff_toNat_le]
  simp
  omega

theorem size_bind_isSome {x : Row} (h : ∀ v, x.size = some v → v ≠ 0) :
    (x.size.bind bucketOf).isSome = x.size.isSome := by
  cases hx : x.size with
  | none => rfl
  | some v => exact bucketOf_isSome (h v hx)

namespace Collector

variable {c₀ : Collector n} {es : List (Event n)} {other : Fin n}

/-- The columns of a pair summary. -/
structure Attributed (c₀ : Collector n) (es : List (Event n)) (other : Fin n) (interval : Nat) :
    Prop where
  named : ∀ x ∈ (c₀.run es).rows other, ∀ v, x.size = some v →
    ∃ key, x.block = some key ∧ c₀.IsSize es key v
  one_bucket : ∀ x ∈ (c₀.run es).rows other, x.size.isSome →
    ∃! b, ∃ y ∈ bucketRows ((c₀.run es).rows other) b, y.block = x.block
  blocks_sum : (((c₀.run es).pairSummary other interval).buckets.map (·.blocks)).sum =
    ((((c₀.run es).rows other).filter (·.size.isSome)).filterMap (·.block)).dedup.length
  txs_sum : (((c₀.run es).pairSummary other interval).buckets.map (·.txs)).sum =
    (((c₀.run es).rows other).filter (·.size.isSome)).length
  intervals_sum : (((c₀.run es).pairSummary other interval).intervals.map (·.n)).sum =
    ((c₀.run es).pairSummary other interval).n

theorem bucket_unique (h₀ : c₀.IsNew) (hsettled : c₀.Settled es)
    (hcount : ∀ key, Consistent es (c₀.nitroSizeFor key)) {x y : Row}
    (hx : x ∈ (c₀.run es).rows other) (hy : y ∈ (c₀.run es).rows other) {b b' : Nat}
    (hblock : x.block = y.block) (hb : x.size.bind bucketOf = some b)
    (hb' : y.size.bind bucketOf = some b') : b = b' := by
  obtain ⟨v, hv, hvb⟩ := Option.bind_eq_some_iff.mp hb
  obtain ⟨w, hw, hwb⟩ := Option.bind_eq_some_iff.mp hb'
  obtain ⟨-, key, hkey, hsize⟩ := size_named h₀ hsettled hcount hx hv
  obtain ⟨-, key', hkey', hsize'⟩ := size_named h₀ hsettled hcount hy hw
  have heq : key = key' := Option.some.inj (hkey.symm.trans (hblock.trans hkey'))
  subst heq
  have hvw := hsize.unique hsize'
  subst hvw
  exact Option.some.inj (hvb.symm.trans hwb)

theorem pairSummary_txs (c : Collector n) (other : Fin n) (interval : Nat) :
    (c.pairSummary other interval).buckets.map (·.txs) =
      (List.range buckets.length).map fun b => (bucketRows (c.rows other) b).length := by
  rw [pairSummary_rows]
  have htxs : ∀ b, (sorted ((bucketRows (c.rows other) b).map (·.diff))).length =
      (bucketRows (c.rows other) b).length := fun b => by simp
  calc (c.pairSummaryOf .exact other interval (c.rows other)).buckets.map (·.txs)
      = (List.range buckets.length).map fun b =>
          (sorted ((bucketRows (c.rows other) b).map (·.diff))).length := rfl
    _ = (List.range buckets.length).map fun b => (bucketRows (c.rows other) b).length :=
        List.map_congr_left fun b _ => htxs b

theorem pairSummary_intervals_sum (c : Collector n) (other : Fin n) (interval : Nat) :
    ((c.pairSummary other interval).intervals.map (·.n)).sum =
      (c.pairSummary other interval).n := by
  rw [pairSummary_rows]
  have hperm : ((c.pairSummaryOf .exact other interval (c.rows other)).intervals.map (·.n)).Perm
      ((byInterval .exact c.start interval (c.rows other)).entries.map fun e => e.2.length) := by
    refine ((List.mergeSort_perm _ _).map _).trans (List.Perm.of_eq ?_)
    rw [List.map_map]
    exact List.map_congr_left fun e _ => List.length_mergeSort _
  rw [hperm.sum_eq]
  exact sum_group List.length rfl (fun x v => by simp) _ _

/-- **Block sizes.** While the Nitro events of a block agree on its size and every
transaction stays with blocks of one size, the pair tables attribute sizes coherently. -/
theorem sizes_attributed (sources : Vector SourceInfo n) (reference : Fin n) (minSources : Nat)
    (warmup start : Nat) (es : List (Event n)) (other : Fin n) (interval : Nat)
    (hcount : ∀ key,
      Consistent es ((new sources reference minSources warmup start).nitroSizeFor key))
    (hsettled : (new sources reference minSources warmup start).Settled es) :
    (new sources reference minSources warmup start).Attributed es other interval := by
  have h₀ := isNew_new sources reference minSources warmup start
  generalize new sources reference minSources warmup start = c₀ at *
  have hclass : ∀ x ∈ (c₀.run es).rows other,
      (x.size.bind bucketOf).isSome = x.size.isSome := fun x hx =>
    size_bind_isSome fun v hv => (size_named h₀ hsettled hcount hx hv).1
  have hlt : ∀ (x : Row) b, x.size.bind bucketOf = some b → b < buckets.length := by
    intro x b hb
    obtain ⟨v, -, hv⟩ := Option.bind_eq_some_iff.mp hb
    exact bucketOf_lt hv
  have hsized := List.filter_congr hclass
  constructor
  · exact fun x hx v hv => (size_named h₀ hsettled hcount hx hv).2
  · intro x hx hsize
    rw [← hclass x hx] at hsize
    obtain ⟨b, hb⟩ := Option.isSome_iff_exists.mp hsize
    refine ⟨b, ⟨x, List.mem_filter.mpr ⟨hx, by simpa using hb⟩, rfl⟩, ?_⟩
    rintro b' ⟨y, hy, hblock⟩
    obtain ⟨hy, hb'⟩ := List.mem_filter.mp hy
    exact bucket_unique h₀ hsettled hcount hy hx hblock (of_decide_eq_true hb') hb
  · rw [← hsized, pairSummary_rows]
    exact sum_class_keys hlt fun x hx y hy k b b' hk hk' =>
      bucket_unique h₀ hsettled hcount hx hy (hk.trans hk'.symm)
  · rw [← hsized, ← sum_class_length hlt, pairSummary_txs]
    rfl
  · exact pairSummary_intervals_sum _ other interval

def oneBlock : List (Event 2) :=
  [⟨official, 0, .connected ""⟩, ⟨eira, 0, .connected ""⟩,
    ⟨eira, 10, .tx (.replicate 32 1) (some "seq:7") none true 100⟩,
    ⟨official, 13, .tx (.replicate 32 1) (some "seq:7") (some 3) false 100⟩]

theorem oneBlock_reports {key : String} {e : Event 2} (he : e ∈ oneBlock) {v : UInt32}
    (hv : (new twoSources eira 2 0 0).nitroSizeFor key e = some v) : v = 3 := by
  simp only [oneBlock, List.mem_cons, List.not_mem_nil, or_false] at he
  rcases he with rfl | rfl | rfl | rfl
  · simp [nitroSizeFor] at hv
  · simp [nitroSizeFor] at hv
  · rw [nitroSizeFor, if_neg (by decide)] at hv
    cases hv
  · simp only [nitroSizeFor, Option.ite_none_right_eq_some] at hv
    exact (Option.some.inj hv.2.2).symm

theorem oneBlock_settled : (new twoSources eira 2 0 0).Settled oneBlock := by
  rw [Settled, if_pos (by decide)]
  have hcount : ∀ hash e, e ∈ oneBlock →
      (new twoSources eira 2 0 0).isNitro e.source → e.isTxFrom hash e.source →
      e.txCountFor hash = some 3 := by
    intro hash e he hn hfrom
    simp only [oneBlock, List.mem_cons, List.not_mem_nil, or_false] at he
    rcases he with rfl | rfl | rfl | rfl
    · cases hfrom
    · cases hfrom
    · exact absurd hn (by decide)
    · simp only [Event.isTxFrom, beq_self_eq_true, Bool.and_true, beq_iff_eq] at hfrom
      exact if_pos hfrom
  constructor
  · intro hash e he e' he' hn hn' hfrom hfrom'
    rw [hcount hash e he hn hfrom, hcount hash e' he' hn' hfrom']
  · intro hash e he hzero
    unfold nitroCountFor at hzero
    split at hzero
    · next hn =>
      have hfrom := isTxFrom_of_txCountFor (by rw [hzero]; rfl)
      rw [hcount hash e he hn hfrom] at hzero
      cases hzero
    · cases hzero

theorem sizes_attributed_oneBlock :
    (new twoSources eira 2 0 0).Attributed oneBlock official (300 * 10 ^ 9) :=
  sizes_attributed twoSources eira 2 0 0 oneBlock official (300 * 10 ^ 9)
    (fun _ _ he _ he' _ _ hv hw => (oneBlock_reports he hv).trans (oneBlock_reports he' hw).symm)
    oneBlock_settled

/-- One transaction, delivered by the Nitro source in a block of one and in a block of 60. -/
def movedBlock : List (Event 2) :=
  [⟨official, 0, .connected ""⟩, ⟨eira, 0, .connected ""⟩,
    ⟨official, 10, .tx (.replicate 32 1) (some "seq:1") (some 1) false 100⟩,
    ⟨official, 20, .tx (.replicate 32 1) (some "seq:2") (some 60) false 100⟩,
    ⟨eira, 30, .tx (.replicate 32 1) (some "seq:1") none false 100⟩]

theorem movedBlock_reports {key : String} {e : Event 2} (he : e ∈ movedBlock) {v : UInt32}
    (hv : (new twoSources eira 2 0 0).nitroSizeFor key e = some v) :
    v = if key = "seq:1" then 1 else 60 := by
  simp only [movedBlock, List.mem_cons, List.not_mem_nil, or_false] at he
  rcases he with rfl | rfl | rfl | rfl | rfl
  · simp [nitroSizeFor] at hv
  · simp [nitroSizeFor] at hv
  · simp only [nitroSizeFor, Option.ite_none_right_eq_some, Option.some.injEq] at hv
    rw [if_pos hv.2.1.symm, hv.2.2]
  · simp only [nitroSizeFor, Option.ite_none_right_eq_some, Option.some.injEq] at hv
    rw [← hv.2.1, if_neg (by decide), hv.2.2]
  · rw [nitroSizeFor, if_neg (by decide)] at hv
    cases hv

/-- The row of the transaction has the size of the other block. -/
theorem movedBlock_not_attributed :
    (∀ key, Consistent movedBlock ((new twoSources eira 2 0 0).nitroSizeFor key)) ∧
      ∃ x ∈ ((new twoSources eira 2 0 0).run movedBlock).rows official,
        x.block = some "seq:1" ∧ x.size = some 60 ∧
          ¬(new twoSources eira 2 0 0).IsSize movedBlock "seq:1" 60 := by
  have hrows : (((new twoSources eira 2 0 0).run movedBlock).rows official).map
      (fun x => (x.block, x.size)) = [(some "seq:1", some 60)] := by
    decide
  obtain ⟨x, hx, heq⟩ := List.map_eq_singleton_iff.mp hrows
  refine ⟨fun _ _ he _ he' _ _ hv hw =>
    (movedBlock_reports he hv).trans (movedBlock_reports he' hw).symm, x, ?_, ?_, ?_, ?_⟩
  · rw [hx]
    exact List.mem_singleton_self x
  · exact congrArg Prod.fst heq
  · exact congrArg Prod.snd heq
  · intro hsize
    rw [IsSize, if_pos (by decide)] at hsize
    have hone := hsize.2 ⟨official, 10, .tx (.replicate 32 1) (some "seq:1") (some 1) false 100⟩
      (by simp [movedBlock]) 1 (by decide)
    cases hone

end Collector

end FeedBench.Stats
