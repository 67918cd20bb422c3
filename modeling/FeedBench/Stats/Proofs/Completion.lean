import FeedBench.Lib.OrderStat
import FeedBench.Stats.Proofs.RecordLaw

/-!
# The completion instant

`completedAt` is fixed by the first `minSources` deliveries of a block that are processed.
It is the instant at which the block was complete, the `minSources`-th smallest arrival
stamp, exactly when each of these deliveries is also among the earliest.
-/

namespace FeedBench.Stats

open Lib

variable {n : Nat}

def BlockRec.stamps (r : BlockRec n) : List Nat := r.arrivals.toList.filterMap id

/-! ## Deliveries -/

/-- The deliveries of a block in processing order: the first Block event of each source. -/
def deliveries (key : String) (es : List (Event n)) : List (Event n) :=
  es.foldl (fun ds e =>
    if e.blockKey = some key ∧ ∀ d ∈ ds, d.source ≠ e.source then ds ++ [e] else ds) []

variable {key : String} {es es' : List (Event n)} {e : Event n}

theorem deliveries_snoc : deliveries key (es ++ [e]) =
    if e.blockKey = some key ∧ ∀ d ∈ deliveries key es, d.source ≠ e.source then
      deliveries key es ++ [e]
    else deliveries key es := by
  rw [deliveries, List.foldl_append, List.foldl_cons, List.foldl_nil]
  rfl

theorem deliveries_prefix : deliveries key es <+: deliveries key (es ++ es') := by
  induction es' using List.reverseRecOn with
  | nil => rw [List.append_nil]
  | append_singleton es' e ih =>
      rw [← List.append_assoc, deliveries_snoc]
      split
      · exact ih.trans (List.prefix_append _ _)
      · exact ih

theorem deliveries_nodup : ((deliveries key es).map Event.source).Nodup := by
  induction es using List.reverseRecOn with
  | nil => exact List.nodup_nil
  | append_singleton es e ih =>
      rw [deliveries_snoc]
      split
      · next h =>
        rw [List.map_append, List.map_singleton, List.nodup_append]
        refine ⟨ih, List.nodup_singleton _, ?_⟩
        intro s hs s' hs' heq
        obtain ⟨d, hd, rfl⟩ := List.mem_map.mp hs
        rw [List.mem_singleton.mp hs'] at heq
        exact h.2 d hd heq
      · exact ih

theorem isBlockFrom_iff {s : Fin n} :
    e.isBlockFrom key s = true ↔ e.blockKey = some key ∧ e.source = s := by
  obtain ⟨s', t, p⟩ := e
  cases p <;> simp [Event.isBlockFrom, Event.blockKey]

theorem firstOf_deliveries (s : Fin n) : firstOf (Event.isBlockFrom key s) Event.t es =
    firstOf (fun e => e.source = s) Event.t (deliveries key es) := by
  induction es using List.reverseRecOn with
  | nil => rfl
  | append_singleton es e ih =>
      rw [deliveries_snoc]
      by_cases hfrom : e.isBlockFrom key s = true
      · rw [firstOf_snoc_of_pos hfrom, ih]
        obtain ⟨hkey, hs⟩ := isBlockFrom_iff.mp hfrom
        split
        · rw [firstOf_snoc_of_pos (by simpa using hs)]
        · next h =>
          -- the source has delivered already
          have hany : ∃ d ∈ deliveries key es, d.source = e.source := by
            by_contra hnone
            exact h ⟨hkey, fun d hd heq => hnone ⟨d, hd, heq⟩⟩
          obtain ⟨d, hd, heq⟩ := hany
          have hsome : (firstOf (fun e => e.source = s) Event.t (deliveries key es)).isSome :=
            firstOf_isSome.mpr ⟨d, hd, by simpa using heq.trans hs⟩
          obtain ⟨t, ht⟩ := Option.isSome_iff_exists.mp hsome
          rw [ht]
          rfl
      · rw [firstOf_snoc_of_neg (by simpa using hfrom), ih]
        split
        · next h =>
          rw [firstOf_snoc_of_neg]
          exact decide_eq_false fun hs => hfrom (isBlockFrom_iff.mpr ⟨h.1, hs⟩)
        · rfl

namespace Collector

variable {c₀ : Collector n} {r : BlockRec n}

/-- The stamps on record are those of the deliveries. -/
theorem stamps_perm (h₀ : c₀.IsNew) (hr : (c₀.run es).blocks.lookup key = some r) :
    ((deliveries key es).map Event.t).Perm r.stamps := by
  apply perm_values deliveries_nodup
  intro s
  rw [← firstOf_deliveries, ← blockSlot_run h₀, blockSlot, hr, Option.bind_some]

theorem seen_eq_length (h₀ : c₀.IsNew) (hr : (c₀.run es).blocks.lookup key = some r) :
    r.seen = (deliveries key es).length := by
  have hlen := (stamps_perm h₀ hr).length_eq
  rw [List.length_map, BlockRec.stamps, List.length_filterMap_eq_countP] at hlen
  rw [hlen, (blockTally_run h₀ es key r hr).tally.seen_eq, ← Vector.countP_toList]
  rfl

/-- The completion instant is the latest stamp of the first `minSources` deliveries. -/
theorem completedAt_latest (h₀ : c₀.IsNew) (hr : (c₀.run es).blocks.lookup key = some r)
    (hseen : c₀.minSources ≤ r.seen) : ∃ d, r.completedAt = some d ∧
      IsGreatest {t | t ∈ ((deliveries key es).map Event.t).take c₀.minSources} d := by
  have hdone := (blockTally_run h₀ es key r hr).completed_iff.mpr hseen
  obtain ⟨d, hd⟩ := Option.isSome_iff_exists.mp hdone
  obtain ⟨i, hi⟩ := (completion_run h₀ es key r hr).2 d hd
  obtain ⟨r', hr', -, hmax⟩ := hi.latest
  have hseen' := hi.seen_after
  rw [seenOf, hr'] at hseen'
  -- the deliveries processed up to the completing step are the first `minSources`
  have hfirst : deliveries key (es.take (i + 1)) =
      (deliveries key es).take c₀.minSources := by
    have hpre : deliveries key (es.take (i + 1)) <+:
        deliveries key (es.take (i + 1) ++ es.drop (i + 1)) := deliveries_prefix
    rw [List.take_append_drop, List.prefix_iff_eq_take] at hpre
    rw [hpre, ← seen_eq_length h₀ hr']
    exact congrArg (fun k => (deliveries key es).take k) hseen'
  refine ⟨d, hd, ?_⟩
  have hset : {t | t ∈ ((deliveries key es).map Event.t).take c₀.minSources} =
      {t | Present r'.arrivals t} := by
    ext t
    rw [Set.mem_ofPred_eq, Set.mem_ofPred_eq, ← List.map_take, ← hfirst,
      (stamps_perm h₀ hr').mem_iff]
    exact mem_values_iff
  rw [hset]
  exact hmax

/-- **The completion instant.** It is the `minSources`-th smallest arrival stamp exactly when
each of the first `minSources` deliveries processed has fewer than `minSources` deliveries of
the block stamped before it. -/
theorem completedAt_eq_kthSmallest_iff (sources : Vector SourceInfo n) (reference : Fin n)
    (minSources warmup start : Nat) (es : List (Event n)) (key : String) (r : BlockRec n)
    (hr : ((new sources reference minSources warmup start).run es).blocks.lookup key = some r)
    (hseen : (new sources reference minSources warmup start).minSources ≤ r.seen) :
    r.completedAt =
        kthSmallest (new sources reference minSources warmup start).minSources r.stamps ↔
      ∀ e ∈ (deliveries key es).take (new sources reference minSources warmup start).minSources,
        (deliveries key es).countP (·.t < e.t) <
          (new sources reference minSources warmup start).minSources := by
  have h₀ := isNew_new sources reference minSources warmup start
  generalize new sources reference minSources warmup start = c₀ at *
  obtain ⟨d, hd, hmax⟩ := completedAt_latest h₀ hr hseen
  have hlen : c₀.minSources ≤ ((deliveries key es).map Event.t).length := by
    rw [List.length_map, ← seen_eq_length h₀ hr]
    exact hseen
  rw [hd, eq_comm, ← kthSmallest_perm (stamps_perm h₀ hr),
    kthSmallest_eq_latest_iff h₀.minSources_pos hlen hmax, ← List.map_take, List.forall_mem_map]
  simp only [List.countP_map]
  rfl

def threeSources : Vector SourceInfo 3 :=
  #v[⟨"official", "nitro"⟩, ⟨"eira", "eira"⟩, ⟨"backup", "nitro"⟩]

def block7 (s : Fin 3) (t : Nat) : Event 3 := ⟨s, t, .block "seq:7" (some 7) none none 0⟩

def inOrder : List (Event 3) := [block7 0 1, block7 1 5, block7 2 9]

theorem completedAt_inOrder : ∃ r,
    ((new threeSources 1 2 0 0).run inOrder).blocks.lookup "seq:7" = some r ∧
      r.completedAt = kthSmallest 2 r.stamps := by
  obtain ⟨r, hr⟩ : ∃ r,
      ((new threeSources 1 2 0 0).run inOrder).blocks.lookup "seq:7" = some r := ⟨_, rfl⟩
  refine ⟨r, hr, ?_⟩
  refine (completedAt_eq_kthSmallest_iff threeSources 1 2 0 0 inOrder "seq:7" r hr ?_).mpr ?_
  · rw [seen_eq_length (isNew_new _ _ _ _ _) hr]
    decide
  · decide

def latestFirst : List (Event 3) := [block7 0 9, block7 1 1, block7 2 5]

/-- The block is complete at 5 and recorded as completed at 9. -/
theorem latestFirst_late : ∃ r,
    ((new threeSources 1 2 0 0).run latestFirst).blocks.lookup "seq:7" = some r ∧
      (new threeSources 1 2 0 0).minSources = 2 ∧ r.seen = 3 ∧
        r.completedAt = some 9 ∧ kthSmallest 2 r.stamps = some 5 := by
  refine ⟨_, rfl, by decide, by decide, by decide, ?_⟩
  rw [kthSmallest_eq_some_iff (by decide)]
  decide

end Collector

end FeedBench.Stats
