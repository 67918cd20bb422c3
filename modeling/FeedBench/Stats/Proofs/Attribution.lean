import FeedBench.Stats.Proofs.PairTable

/-!
# The block of a transaction

What the records say of a transaction, as the events tell it: who delivered it and when does not
depend on their order, but the block it is counted for does.  It is the first one that a Nitro
source names, or else the first one that any source names.
-/

namespace FeedBench.Stats.Collector

open Lib

variable {n : Nat} {c₀ : Collector n}

def nitroBlockFor (c₀ : Collector n) (hash : Hash) (e : Event n) : Option String :=
  if c₀.isNitro e.source then e.blockKeyFor hash else none

/-- The first block that a Nitro source names, or else the first one that any source names. -/
def blockOf (c₀ : Collector n) (es : List (Event n)) (hash : Hash) : Option String :=
  (es.findSome? (c₀.nitroBlockFor hash)).or (es.findSome? (Event.blockKeyFor hash))

/-- The last size that a Nitro source reports, once one of them has named the block. -/
def nitroSizeOf (c₀ : Collector n) (es : List (Event n)) (hash : Hash) : Option UInt32 :=
  if es.any (c₀.nitroKeyFor hash) then es.reverse.findSome? (c₀.nitroCountFor hash) else none

section Sights

variable (c₀ : Collector n) (es : List (Event n)) (hashes : List Hash)
  (sighted : Hash → Sighting n)

def refCountOf (key : String) : Nat :=
  hashes.countP fun hash =>
    ((sighted hash).get c₀.reference).isSome && c₀.blockOf es hash = some key

/-- The size of a transaction's block: as the Nitro sources report it, or as the reference
source counts it where there is no Nitro source. -/
def blockSizeOf (hash : Hash) : Option UInt32 :=
  if ∃ i, c₀.isNitro i then c₀.nitroSizeOf es hash
  else (c₀.blockOf es hash).bind fun key =>
    if c₀.refCountOf es hashes sighted key = 0 then none
    else some (.ofNat (c₀.refCountOf es hashes sighted key))

def txSight (hash : Hash) : TxSight n where
  arrivals := sighted hash
  swap := es.any (Event.swapFor hash)
  block := c₀.blockOf es hash
  size := c₀.blockSizeOf es hashes sighted hash

end Sights

/-! ## Blocks and sizes on record -/

theorem nitroKeyFor_eq (hash : Hash) (e : Event n) :
    c₀.nitroKeyFor hash e = (c₀.nitroBlockFor hash e).isSome := by
  unfold nitroKeyFor nitroBlockFor
  cases c₀.isNitro e.source <;> simp

/-- A key that is taken is the first one, or the first one of a Nitro source. -/
theorem takes_eq (named first key : Option String) (nitro : Bool) :
    (if key.isSome && ((named.or first).isNone || (nitro && !named.isSome)) then key
      else named.or first) = (named.or (if nitro then key else none)).or (first.or key) := by
  cases named <;> cases first <;> cases key <;> cases nitro <;> rfl

theorem txBlockKey_eq (h₀ : c₀.IsNew) (es : List (Event n)) (hash : Hash) :
    txBlockKey hash (c₀.run es) = c₀.blockOf es hash := by
  induction es using List.reverseRecOn with
  | nil => simp [txBlockKey, blockOf, h₀.txs]
  | append_singleton es e ih =>
      have hnamed : txFromNitro hash (c₀.run es) =
          (es.findSome? (c₀.nitroBlockFor hash)).isSome := by
        have hkeys : c₀.nitroKeyFor hash = fun e => (c₀.nitroBlockFor hash e).isSome :=
          funext (nitroKeyFor_eq hash)
        rw [txFromNitro_run h₀, List.isSome_findSome?, hkeys]
      obtain ⟨hkey, -⟩ := (c₀.run es).txReported_onEvent e hash
      rw [run_append, run_cons, run_nil, hkey]
      unfold takesKey
      rw [ih, hnamed, isNitro_congr (c₀.run_sources es)]
      unfold blockOf
      rw [takes_eq, List.findSome?_append, List.findSome?_append, List.findSome?_singleton,
        List.findSome?_singleton]
      rfl

theorem txCountOf_eq (h₀ : c₀.IsNew) (es : List (Event n)) (hash : Hash) :
    txCountOf hash (c₀.run es) = es.reverse.findSome? (c₀.nitroCountFor hash) := by
  induction es using List.reverseRecOn with
  | nil => simp [txCountOf, h₀.txs]
  | append_singleton es e ih =>
      obtain ⟨-, -, hcount, -⟩ := (c₀.run es).txReported_onEvent e hash
      rw [run_append, run_cons, run_nil, hcount, ih, isNitro_congr (c₀.run_sources es),
        List.reverse_append, List.reverse_singleton, List.singleton_append, List.findSome?_cons]
      unfold nitroCountFor
      cases c₀.isNitro e.source <;> cases e.txCountFor hash <;> simp

/-! ## Records -/

section Sights

variable {es : List (Event n)} {hashes : List Hash} {sighted : Hash → Sighting n}
  (hslot : ∀ hash i, (c₀.run es).txSlot hash i = (sighted hash).get i)

include hslot

theorem arrivals_eq {hash : Hash} {r : TxRec n} (hr : (c₀.run es).txs.lookup hash = some r) :
    r.arrivals = sighted hash := by
  apply ext_get
  intro i
  rw [← hslot, txSlot, hr]
  rfl

variable (h₀ : c₀.IsNew) (hmem : ∀ hash, hash ∈ hashes ↔ ∃ i, ((sighted hash).get i).isSome)

include h₀ hmem

theorem mem_txs_iff (hash : Hash) : hash ∈ (c₀.run es).txs ↔ hash ∈ hashes := by
  rw [hmem, ← AList.lookup_isSome]
  constructor
  · intro hsome
    obtain ⟨r, hr⟩ := Option.isSome_iff_exists.mp hsome
    obtain ⟨i, hi⟩ := (txTally_run h₀ es hash r hr).first_present
    refine ⟨i, ?_⟩
    rw [← hslot, txSlot, hr, Option.bind_some, hi]
    rfl
  · rintro ⟨i, hi⟩
    rw [← hslot, txSlot] at hi
    exact Option.isSome_of_isSome_bind hi

variable (hnodup : hashes.Nodup)

include hnodup

theorem refCount_eq (key : String) :
    ((c₀.run es).txs.entries.countP fun e => (c₀.run es).refKey e.2 = some key) =
      c₀.refCountOf es hashes sighted key := by
  have hperm := entries_map_perm (fun _ r => (r.arrivals, r.blockKey)) hnodup
    (mem_txs_iff hslot h₀ hmem) (f := fun hash => (sighted hash, c₀.blockOf es hash))
    fun hash r hr => by
      rw [arrivals_eq hslot hr, ← txBlockKey_eq h₀, txBlockKey, hr, Option.bind_some]
  have hcount := hperm.countP_eq fun x =>
    (x.1.get c₀.reference).isSome && decide (x.2 = some key)
  rw [List.countP_map, List.countP_map] at hcount
  rw [refCountOf]
  refine Eq.trans (List.countP_congr fun e _ => ?_) hcount
  rw [decide_eq_true_eq, refKey_eq_some, run_reference, Function.comp_apply, Bool.and_eq_true,
    decide_eq_true_eq]

variable (hnitro : c₀.nitroPresent = decide (∃ i, c₀.isNitro i = true))

include hnitro

theorem sizeOf_eq {hash : Hash} {r : TxRec n} (hr : (c₀.run es).txs.lookup hash = some r) :
    (c₀.run es).sizeOf r = c₀.blockSizeOf es hashes sighted hash := by
  have hkey : r.blockKey = c₀.blockOf es hash := by
    rw [← txBlockKey_eq h₀, txBlockKey, hr, Option.bind_some]
  unfold sizeOf blockSizeOf
  by_cases hany : ∃ i, c₀.isNitro i = true
  · have hpresent : (c₀.run es).nitroPresent = true := by
      rw [run_nitroPresent, hnitro, decide_eq_true_eq]
      exact hany
    have hcount : r.txCount = es.reverse.findSome? (c₀.nitroCountFor hash) := by
      rw [← txCountOf_eq h₀, txCountOf, hr, Option.bind_some]
    have hfrom : r.blockFromNitro = es.any (c₀.nitroKeyFor hash) := by
      rw [← txFromNitro_run h₀, txFromNitro, hr, Option.elim_some]
    rw [if_pos hpresent, if_pos hany, nitroSizeOf, hcount, hfrom]
    cases es.any (c₀.nitroKeyFor hash) <;>
      cases es.reverse.findSome? (c₀.nitroCountFor hash) <;> rfl
  · have habsent : (c₀.run es).nitroPresent = false := by
      rw [run_nitroPresent, hnitro, decide_eq_false_iff_not]
      exact hany
    rw [habsent, if_neg Bool.false_ne_true, if_neg hany, hkey]
    congr 1
    funext key
    rw [refCounts_eq habsent, refCount_eq hslot h₀ hmem hnodup]

/-- **Records.** What is on record of the transactions is what was measured of them. -/
theorem sights_perm :
    ((c₀.run es).txs.entries.map fun e => (c₀.run es).sight e.2).Perm
      (hashes.map (c₀.txSight es hashes sighted)) := by
  apply entries_map_perm (fun _ r => (c₀.run es).sight r) hnodup (mem_txs_iff hslot h₀ hmem)
  intro hash r hr
  have hswap : r.syntheticSwap = es.any (Event.swapFor hash) := by
    rw [← txSwap_run h₀, txSwap, hr, Option.elim_some]
  have hkey : r.blockKey = c₀.blockOf es hash := by
    rw [← txBlockKey_eq h₀, txBlockKey, hr, Option.bind_some]
  unfold sight txSight
  rw [arrivals_eq hslot hr, hswap, hkey, sizeOf_eq hslot h₀ hmem hnodup hnitro hr]

end Sights

end FeedBench.Stats.Collector
