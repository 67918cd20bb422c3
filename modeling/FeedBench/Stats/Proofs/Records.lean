import FeedBench.Stats.Proofs.Steps
import Mathlib.Data.List.Induction

/-!
# The law of the records

Whatever is fed to `onEvent`, in whatever order, a record of the collector is a function
of the deliveries of its key: the slot of a source holds the stamp of that source's first
delivery, `seen` and `first` tally the slots, and a block completes once, at the delivery
that brings `seen` to `minSources`.
-/

namespace FeedBench.Stats

open Lib

variable {n : Nat}

/-! ## One delivery -/

namespace BlockRec

variable (r : BlockRec n) (minSources : Nat) (s : Fin n) (t : Nat)

/-- Everything a delivery can do to a block record. -/
theorem deliver_cases :
    ((∃ a, r.arrivals.get s = some a) ∧ r.deliver minSources s t = (r, false)) ∨
    (r.arrivals.get s = none ∧ r.seen + 1 ≠ minSources ∧
      r.deliver minSources s t = (r.record s t, false)) ∨
    (r.arrivals.get s = none ∧ r.seen + 1 = minSources ∧
      r.deliver minSources s t =
        ({ r.record s t with completedAt := some ((r.record s t).lastArrival t) }, true)) := by
  unfold deliver
  cases hs : r.arrivals.get s with
  | some a => exact .inl ⟨⟨a, rfl⟩, by simp⟩
  | none =>
      right
      by_cases hmin : r.seen + 1 = minSources
      · exact .inr ⟨rfl, hmin, by simp [record, hmin]⟩
      · exact .inl ⟨rfl, hmin, by simp [record, hmin]⟩

@[simp] theorem fill_arrivals (seq hash txCount) :
    (r.fill seq hash txCount).arrivals = r.arrivals := rfl

@[simp] theorem fill_seen (seq hash txCount) : (r.fill seq hash txCount).seen = r.seen := rfl

@[simp] theorem fill_first (seq hash txCount) : (r.fill seq hash txCount).first = r.first := rfl

@[simp] theorem fill_firstSrc (seq hash txCount) :
    (r.fill seq hash txCount).firstSrc = r.firstSrc := rfl

@[simp] theorem fill_completedAt (seq hash txCount) :
    (r.fill seq hash txCount).completedAt = r.completedAt := rfl

theorem deliver_reported : (r.deliver minSources s t).1.seq = r.seq ∧
    (r.deliver minSources s t).1.hash = r.hash ∧
    (r.deliver minSources s t).1.txCount = r.txCount := by
  rcases r.deliver_cases minSources s t with ⟨-, h⟩ | ⟨-, -, h⟩ | ⟨-, -, h⟩
  all_goals
    rw [h]
    exact ⟨rfl, rfl, rfl⟩

@[simp] theorem deliver_seq : (r.deliver minSources s t).1.seq = r.seq :=
  (r.deliver_reported minSources s t).1

@[simp] theorem deliver_hash : (r.deliver minSources s t).1.hash = r.hash :=
  (r.deliver_reported minSources s t).2.1

@[simp] theorem deliver_txCount : (r.deliver minSources s t).1.txCount = r.txCount :=
  (r.deliver_reported minSources s t).2.2

theorem deliver_arrivals (s' : Fin n) :
    (r.deliver minSources s t).1.arrivals.get s' =
      if s = s' then (r.arrivals.get s').or (some t) else r.arrivals.get s' := by
  rcases r.deliver_cases minSources s t with ⟨⟨a, ha⟩, h⟩ | ⟨ha, -, h⟩ | ⟨ha, -, h⟩
  · rw [h]
    split
    · next hs => subst hs; simp [ha]
    · rfl
  all_goals
    rw [h]
    show (r.arrivals.set s (some t) s.isLt).get s' = _
    rw [get_set]
    split
    · next hs => subst hs; simp [ha]
    · rfl

end BlockRec

namespace TxRec

variable (r : TxRec n) (s : Fin n) (t : Nat)

@[simp] theorem fill_arrivals (b k c w) : (r.fill b k c w).arrivals = r.arrivals := rfl

@[simp] theorem fill_seen (b k c w) : (r.fill b k c w).seen = r.seen := rfl

@[simp] theorem fill_first (b k c w) : (r.fill b k c w).first = r.first := rfl

theorem deliver_of_some {a : Nat} (h : r.arrivals.get s = some a) : r.deliver s t = r := by
  simp [deliver, h]

theorem deliver_of_none (h : r.arrivals.get s = none) :
    r.deliver s t =
      { r with
        arrivals := r.arrivals.set s (some t) s.isLt
        seen := r.seen + 1
        first := if t < r.first then t else r.first } := by
  simp [deliver, h]

@[simp] theorem deliver_blockKey : (r.deliver s t).blockKey = r.blockKey := by
  unfold deliver
  split <;> rfl

@[simp] theorem deliver_txCount : (r.deliver s t).txCount = r.txCount := by
  unfold deliver
  split <;> rfl

@[simp] theorem deliver_blockFromNitro :
    (r.deliver s t).blockFromNitro = r.blockFromNitro := by
  unfold deliver
  split <;> rfl

@[simp] theorem deliver_syntheticSwap : (r.deliver s t).syntheticSwap = r.syntheticSwap := by
  unfold deliver
  split <;> rfl

theorem deliver_arrivals (s' : Fin n) :
    (r.deliver s t).arrivals.get s' =
      if s = s' then (r.arrivals.get s').or (some t) else r.arrivals.get s' := by
  cases hs : r.arrivals.get s with
  | some a =>
      rw [r.deliver_of_some s t hs]
      split
      · next h => subst h; simp [hs]
      · rfl
  | none =>
      rw [r.deliver_of_none s t hs]
      show (r.arrivals.set s (some t) s.isLt).get s' = _
      rw [get_set]
      split
      · next h => subst h; simp [hs]
      · rfl

end TxRec

/-! ## What the slots hold -/

namespace Collector

structure IsNew (c : Collector n) : Prop where
  blocks : c.blocks = ∅
  txs : c.txs = ∅
  connected : c.connected = .replicate n false
  everConnected : c.everConnected = .replicate n false
  reconnects : c.reconnects = .replicate n 0
  details : c.details = .replicate n ""
  txEvents : c.txEvents = .replicate n 0
  blockEvents : c.blockEvents = .replicate n 0
  wireBytes : c.wireBytes = .replicate n 0
  rawTxBytes : c.rawTxBytes = .replicate n 0
  allUp : c.allUp = []
  minSources_pos : 1 ≤ c.minSources

theorem isNew_new (sources : Vector SourceInfo n) (reference : Fin n) (minSources : Nat)
    (warmup : Nat) (start : Nat) :
    (new sources reference minSources warmup start).IsNew := by
  constructor <;> first | rfl | exact Nat.le_max_left _ _

/-- The slots of a block key, empty when the key has no record. -/
def blockSlot (c : Collector n) (key : String) (s : Fin n) : Option Nat :=
  (c.blocks.lookup key).bind (·.arrivals.get s)

def txSlot (c : Collector n) (hash : Hash) (s : Fin n) : Option Nat :=
  (c.txs.lookup hash).bind (·.arrivals.get s)

theorem blockBefore_arrivals (c : Collector n) (key : String) (s s' : Fin n) (t : Nat)
    (seq hash txCount) :
    (c.blockBefore key s t seq hash txCount).arrivals.get s' = c.blockSlot key s' := by
  unfold blockBefore blockSlot
  cases c.blocks.lookup key with
  | none => simp [BlockRec.fresh]
  | some r => rfl

theorem blockSlot_onEvent (c : Collector n) (e : Event n) (key : String) (s : Fin n) :
    (c.onEvent e).1.blockSlot key s =
      if e.isBlockFrom key s then (c.blockSlot key s).or (some e.t) else c.blockSlot key s := by
  unfold blockSlot
  rw [lookup_blocks_onEvent]
  obtain ⟨s', t, p⟩ := e
  cases p with
  | block k seq hash txCount wireLen =>
      by_cases hk : k = key
      · subst hk
        simp only [if_true, Option.bind_some, blockAfter, BlockRec.deliver_arrivals,
          blockBefore_arrivals, Event.isBlockFrom, beq_self_eq_true, Bool.true_and, beq_iff_eq]
        rfl
      · simp [hk, Event.isBlockFrom]
  | tx | connected | disconnected => simp [Event.isBlockFrom]

theorem txSlot_onEvent (c : Collector n) (e : Event n) (hash : Hash) (s : Fin n) :
    (c.onEvent e).1.txSlot hash s =
      if e.isTxFrom hash s then (c.txSlot hash s).or (some e.t) else c.txSlot hash s := by
  unfold txSlot
  rw [lookup_txs_onEvent]
  obtain ⟨s', t, p⟩ := e
  cases p with
  | tx h blockKey txCount swap rawLen =>
      by_cases hh : h = hash
      · subst hh
        simp only [if_true, Option.bind_some, txAfter, TxRec.deliver_arrivals,
          TxRec.fill_arrivals, Event.isTxFrom, beq_self_eq_true, Bool.true_and, beq_iff_eq]
        cases c.txs.lookup h with
        | none => simp [TxRec.fresh]
        | some r => rfl
      · simp [hh, Event.isTxFrom]
  | block | connected | disconnected => simp [Event.isTxFrom]

variable {c₀ : Collector n}

theorem source_of_isBlockFrom {key : String} {s : Fin n} {e : Event n}
    (he : e.isBlockFrom key s = true) : decide (e.source = s) = true := by
  unfold Event.isBlockFrom at he
  split at he <;> simp_all

theorem source_of_isTxFrom {hash : Hash} {s : Fin n} {e : Event n}
    (he : e.isTxFrom hash s = true) : decide (e.source = s) = true := by
  unfold Event.isTxFrom at he
  split at he <;> simp_all

/-- A slot of a block holds the stamp of the source's first Block event of that key. -/
theorem blockSlot_run (h₀ : c₀.IsNew) (es : List (Event n)) (key : String) (s : Fin n) :
    (c₀.run es).blockSlot key s = firstOf (Event.isBlockFrom key s) Event.t es := by
  induction es using List.reverseRecOn with
  | nil => simp [blockSlot, h₀.blocks]
  | append_singleton es e ih =>
      rw [run_append, run_cons, run_nil, blockSlot_onEvent, ih]
      split
      · next he => rw [firstOf_snoc_of_pos he]
      · next he => rw [firstOf_snoc_of_neg (by simpa using he)]

theorem txSlot_run (h₀ : c₀.IsNew) (es : List (Event n)) (hash : Hash) (s : Fin n) :
    (c₀.run es).txSlot hash s = firstOf (Event.isTxFrom hash s) Event.t es := by
  induction es using List.reverseRecOn with
  | nil => simp [txSlot, h₀.txs]
  | append_singleton es e ih =>
      rw [run_append, run_cons, run_nil, txSlot_onEvent, ih]
      split
      · next he => rw [firstOf_snoc_of_pos he]
      · next he => rw [firstOf_snoc_of_neg (by simpa using he)]

end Collector

/-! ## The tally of a record -/

/-- A block record tallies its slots, its winner holds the first arrival, and it is
complete exactly from `minSources` deliveries on. -/
structure BlockTally (minSources : Nat) (r : BlockRec n) : Prop where
  tally : Tally r.arrivals r.seen r.first
  first_src : r.arrivals.get r.firstSrc = some r.first
  completed_iff : r.completedAt.isSome ↔ minSources ≤ r.seen
  first_le_completed : ∀ d, r.completedAt = some d → r.first ≤ d

def BlockRec.Untouched (r : BlockRec n) (s : Fin n) (t : Nat) : Prop :=
  r.arrivals = .replicate n none ∧ r.seen = 0 ∧ r.first = t ∧ r.firstSrc = s ∧
    r.completedAt = none

theorem BlockRec.record_tally {r : BlockRec n} {s : Fin n} {t : Nat}
    (h : r.Untouched s t ∨
      (Tally r.arrivals r.seen r.first ∧ r.arrivals.get r.firstSrc = some r.first))
    (hs : r.arrivals.get s = none) :
    Tally (r.record s t).arrivals (r.record s t).seen (r.record s t).first ∧
      (r.record s t).arrivals.get (r.record s t).firstSrc = some (r.record s t).first := by
  rcases h with ⟨harr, hseen, hfirst, hsrc, -⟩ | ⟨htally, hsrc⟩
  · have hstart := Tally.start s t
    simp only [record, harr, hseen, hfirst, hsrc, lt_irrefl, if_false, Nat.zero_add]
    exact ⟨hstart, by rw [get_set, if_pos rfl]⟩
  · refine ⟨htally.fill hs t, ?_⟩
    simp only [record]
    by_cases hlt : t < r.first
    · simp only [if_pos hlt]
      rw [get_set, if_pos rfl]
    · simp only [if_neg hlt]
      have hne : s ≠ r.firstSrc := by
        rintro h
        rw [h, hsrc] at hs
        cases hs
      rw [get_set, if_neg hne, hsrc]

theorem BlockRec.lastArrival_isGreatest {r : BlockRec n} {first : Nat} {seen : Nat}
    (h : Tally r.arrivals seen first) (t : Nat) :
    IsGreatest {a | Present r.arrivals a} (r.lastArrival t) :=
  isGreatest_max? ⟨first, h.first_present⟩

theorem BlockTally.deliver {minSources : Nat} (hmin : 1 ≤ minSources) {r : BlockRec n}
    {s : Fin n} {t : Nat} (h : r.Untouched s t ∨ BlockTally minSources r) :
    BlockTally minSources (r.deliver minSources s t).1 := by
  have hpre : r.arrivals.get s = none → r.Untouched s t ∨
      (Tally r.arrivals r.seen r.first ∧ r.arrivals.get r.firstSrc = some r.first) := by
    intro _
    exact h.imp id fun h => ⟨h.tally, h.first_src⟩
  have hcomplete : r.completedAt.isSome ↔ minSources ≤ r.seen := by
    rcases h with ⟨-, hseen, -, -, hnone⟩ | h
    · rw [hseen, hnone]
      simp only [Option.isSome_none, Bool.false_eq_true, false_iff]
      omega
    · exact h.completed_iff
  have hle : ∀ d, r.completedAt = some d → (r.record s t).first ≤ d := by
    intro d hd
    rcases h with ⟨-, -, -, -, hnone⟩ | h
    · rw [hnone] at hd
      cases hd
    · have := h.first_le_completed d hd
      simp only [BlockRec.record]
      split <;> omega
  rcases r.deliver_cases minSources s t with ⟨⟨a, ha⟩, heq⟩ | ⟨ha, hne, heq⟩ | ⟨ha, heq', heq⟩
  · rcases h with ⟨harr, -⟩ | h
    · rw [harr] at ha
      simp at ha
    · rw [heq]
      exact h
  · obtain ⟨htally, hsrc⟩ := BlockRec.record_tally (hpre ha) ha
    rw [heq]
    refine ⟨htally, hsrc, ?_, hle⟩
    show r.completedAt.isSome ↔ minSources ≤ r.seen + 1
    rw [hcomplete]
    omega
  · obtain ⟨htally, hsrc⟩ := BlockRec.record_tally (hpre ha) ha
    rw [heq]
    refine ⟨htally, hsrc, ?_, ?_⟩
    · show true = true ↔ minSources ≤ r.seen + 1
      simp [heq']
    · intro d hd
      cases hd
      obtain ⟨hmem, -⟩ := BlockRec.lastArrival_isGreatest htally t
      obtain ⟨s', hs'⟩ := hmem
      exact htally.first_le s' _ hs'

namespace Collector

variable {c₀ : Collector n}

theorem blockBefore_tally (c : Collector n) (key : String) (s : Fin n) (t : Nat)
    (seq hash txCount)
    (h : ∀ r, c.blocks.lookup key = some r → BlockTally c.minSources r) :
    (c.blockBefore key s t seq hash txCount).Untouched s t ∨
      BlockTally c.minSources (c.blockBefore key s t seq hash txCount) := by
  unfold blockBefore
  cases hr : c.blocks.lookup key with
  | none => exact .inl ⟨rfl, rfl, rfl, rfl, rfl⟩
  | some r =>
      obtain ⟨htally, hsrc, hiff, hle⟩ := h r hr
      exact .inr ⟨htally, hsrc, hiff, hle⟩

theorem blockTally_run (h₀ : c₀.IsNew) (es : List (Event n)) (key : String) (r : BlockRec n)
    (hr : (c₀.run es).blocks.lookup key = some r) : BlockTally c₀.minSources r := by
  induction es using List.reverseRecOn generalizing r with
  | nil => simp [h₀.blocks] at hr
  | append_singleton es e ih =>
      rw [run_append, run_cons, run_nil, lookup_blocks_onEvent] at hr
      split at hr
      · next k seq hash txCount wireLen hp =>
        split at hr
        · next hk =>
          cases hr
          unfold blockAfter
          rw [run_minSources]
          apply BlockTally.deliver h₀.minSources_pos
          have := (c₀.run es).blockBefore_tally key e.source e.t seq hash txCount
          rw [run_minSources] at this
          exact this ih
        · exact ih r hr
      · exact ih r hr

theorem txTally_run (h₀ : c₀.IsNew) (es : List (Event n)) (hash : Hash) (r : TxRec n)
    (hr : (c₀.run es).txs.lookup hash = some r) : Tally r.arrivals r.seen r.first := by
  induction es using List.reverseRecOn generalizing r with
  | nil => simp [h₀.txs] at hr
  | append_singleton es e ih =>
      rw [run_append, run_cons, run_nil, lookup_txs_onEvent] at hr
      split at hr
      · next h blockKey txCount swap rawLen hp =>
        split at hr
        · next hk =>
          cases hr
          unfold txAfter
          cases hl : (c₀.run es).txs.lookup hash with
          | none =>
              rw [Option.getD_none, TxRec.deliver_of_none _ _ _ (by simp [TxRec.fresh])]
              simpa [TxRec.fresh] using Tally.start e.source e.t
          | some r₀ =>
              rw [Option.getD_some]
              have h₀ := ih r₀ hl
              cases hs : r₀.arrivals.get e.source with
              | some a =>
                  rw [TxRec.deliver_of_some (a := a) _ _ _ (by simpa using hs)]
                  exact h₀
              | none =>
                  rw [TxRec.deliver_of_none _ _ _ (by simpa using hs)]
                  exact h₀.fill hs e.t
        · exact ih r hr
      · exact ih r hr

end Collector

end FeedBench.Stats
