import FeedBench.Stats.Summary
import FeedBench.Stats.Proofs.Records
import FeedBench.Lib.Stretch
import Mathlib.Algebra.BigOperators.Group.List.Basic

/-!
# The measurement window

`levels c₀ es i` says whether every source is flagged connected after `i` events, so that
the intervals of `allUp` are the stretches of that level: this holds in any processing
order.  With stamps in order the intervals are disjoint, `inWindow` reads the level off at
an instant, and `windowSeconds` measures it.
-/

namespace FeedBench.Stats

open Lib

variable {n : Nat}

namespace Collector

def levels (c₀ : Collector n) (es : List (Event n)) (i : Nat) : Bool :=
  (c₀.At es i).allConnected

def stampAt (es : List (Event n)) (i : Nat) : Nat := (es[i]?).elim 0 Event.t

theorem stampAt_lt {es : List (Event n)} {i : Nat} (hi : i < es.length) :
    stampAt es i = es[i].t := by
  simp [stampAt, hi]

/-! ## The intervals are the stretches -/

section Runs

variable {c₀ : Collector n} {es : List (Event n)} {e : Event n}

theorem levels_zero (h₀ : c₀.IsNew) : c₀.levels es 0 = false := by
  unfold levels
  rw [at_zero]
  exact c₀.not_allConnected (s := c₀.reference) (by rw [h₀.connected]; simp)

theorem lastOpen_concat (l : List (Nat × Option Nat)) (a : Nat) (b : Option Nat) :
    lastOpen (l ++ [(a, b)]) = b.isNone := by
  unfold lastOpen
  rw [List.getLast?_concat]
  cases b <;> rfl

theorem closeLast_concat (l : List (Nat × Option Nat)) (a t : Nat) :
    closeLast (l ++ [(a, none)]) t = l ++ [(a, some t)] := by
  unfold closeLast
  rw [List.getLast?_concat, List.dropLast_concat]

theorem lastOpen_of_closed {l : List (Nat × Option Nat)} (h : ∀ p ∈ l, p.2.isSome) :
    lastOpen l = false := by
  unfold lastOpen
  split
  · next a ha => exact absurd (h _ (List.mem_of_getLast? ha)) (by simp)
  · rfl

theorem lastOpen_stretches {up : Nat → Bool} {stamp : Nat → Nat} {m : Nat} (h : up 0 = false) :
    lastOpen (stretches up stamp m) = up m := by
  cases hm : up m with
  | true =>
      obtain ⟨l, a, hl, -⟩ := @stretches_open _ _ stamp _ h hm
      rw [hl, lastOpen_concat]
      rfl
  | false => exact lastOpen_of_closed (stretches_closed hm)

/-- One event moves the intervals the way one step moves the stretches. -/
theorem allUp_onEvent {c : Collector n} {up : Nat → Bool} {stamp : Nat → Nat} {m : Nat}
    (h : up 0 = false) (hc : c.allUp = stretches up stamp m) (hm : up m = c.allConnected)
    (hm' : up (m + 1) = (c.onEvent e).1.allConnected) (ht : stamp m = e.t) :
    (c.onEvent e).1.allUp = stretches up stamp (m + 1) := by
  have hopen : lastOpen c.allUp = c.allConnected := by rw [hc, lastOpen_stretches h, hm]
  have hsame : (c.onEvent e).1.connected = c.connected → (c.onEvent e).1.allUp = c.allUp →
      (c.onEvent e).1.allUp = stretches up stamp (m + 1) := by
    intro hconn hup
    rw [hup, hc, stretches_same]
    rw [hm', hm, allConnected_congr hconn]
  obtain ⟨s, t, p⟩ := e
  cases p with
  | block => exact hsame rfl rfl
  | tx => exact hsame rfl rfl
  | connected detail =>
      cases hs : c.connected.get s with
      | true =>
          apply hsame
          · simp [onEvent, onConnected, hs]
          · simp [onEvent, onConnected, hs]
      | false =>
          have hdown : up m = false := by rw [hm, c.not_allConnected hs]
          have hstep := c.onConnected_allUp t detail hs hopen
          change (c.onConnected s t detail).1.allUp = _
          change up (m + 1) = (c.onConnected s t detail).1.allConnected at hm'
          rw [hstep, hc]
          cases hall : (c.onConnected s t detail).1.allConnected with
          | true => rw [if_pos rfl, stretches_rise hdown (hm'.trans hall), ht]
          | false => rw [if_neg (by simp), stretches_same (by rw [hm', hall, hdown])]
  | disconnected reason =>
      have hstep := c.onDisconnected_allUp (s := s) t reason hopen
      cases hs : c.connected.get s with
      | false =>
          apply hsame
          · simp [onEvent, onDisconnected, hs]
          · simp [onEvent, onDisconnected, hs]
      | true =>
          have hdown' : up (m + 1) = false := by
            rw [hm']
            apply not_allConnected (s := s)
            rw [connected_onEvent, if_pos rfl]
            rfl
          change (c.onDisconnected s t reason).1.allUp = _
          rw [hstep, hs, Bool.and_true]
          cases hall : c.allConnected with
          | true =>
              obtain ⟨l, a, hl, hl'⟩ := @stretches_fall _ _ stamp _ h (hm.trans hall) hdown'
              rw [if_pos rfl, hc, hl, hl', closeLast_concat, ht]
          | false => rw [if_neg (by simp), hc, stretches_same (by rw [hdown', hm, hall])]

theorem allUp_at (h₀ : c₀.IsNew) {i : Nat} (hi : i ≤ es.length) :
    (c₀.At es i).allUp = stretches (c₀.levels es) (stampAt es) i := by
  induction i with
  | zero => rw [at_zero, h₀.allUp]; rfl
  | succ i ih =>
      rw [at_succ c₀ es hi]
      refine allUp_onEvent (levels_zero h₀) (ih (by omega)) rfl ?_ (stampAt_lt hi)
      rw [levels, at_succ c₀ es hi]

/-- In any processing order the intervals are the maximal stretches of the flags. -/
theorem allUp_run (h₀ : c₀.IsNew) (es : List (Event n)) :
    (c₀.run es).allUp = stretches (c₀.levels es) (stampAt es) es.length := by
  rw [← allUp_at h₀ le_rfl, at_length]

theorem lastOpen_run (h₀ : c₀.IsNew) (es : List (Event n)) :
    lastOpen (c₀.run es).allUp = (c₀.run es).allConnected := by
  rw [allUp_run h₀, lastOpen_stretches (levels_zero h₀), levels, at_length]

theorem allUp_closed (h₀ : c₀.IsNew) (h : (c₀.run es).allConnected = false) :
    ∀ p ∈ (c₀.run es).allUp, p.2.isSome := by
  rw [allUp_run h₀]
  exact stretches_closed (by rw [levels, at_length, h])

theorem allUp_open (h₀ : c₀.IsNew) (h : (c₀.run es).allConnected = true) :
    ∃ l a, (c₀.run es).allUp = l ++ [(a, none)] ∧ ∀ p ∈ l, p.2.isSome := by
  rw [allUp_run h₀]
  exact stretches_open (levels_zero h₀) (by rw [levels, at_length, h])

end Runs

/-! ## Stamps in order -/

def InOrder (es : List (Event n)) : Prop := es.Pairwise fun e e' => e.t ≤ e'.t

def upTo (t : Nat) (es : List (Event n)) : List (Event n) := es.filter fun e => e.t ≤ t

section Ordered

variable {c₀ : Collector n} {es : List (Event n)}

theorem InOrder.stampAt_le (h : InOrder es) {i j : Nat} (hij : i ≤ j) (hj : j < es.length) :
    stampAt es i ≤ stampAt es j := by
  rw [stampAt_lt (by omega), stampAt_lt hj]
  rcases Nat.lt_or_eq_of_le hij with hlt | heq
  · exact List.pairwise_iff_getElem.mp h i j (by omega) hj hlt
  · subst heq
    exact le_rfl

theorem InOrder.upTo_eq_take (h : InOrder es) (t : Nat) :
    ∃ k, k ≤ es.length ∧ upTo t es = es.take k ∧
      ∀ i, i < es.length → (stampAt es i ≤ t ↔ i < k) := by
  induction es with
  | nil => exact ⟨0, le_rfl, rfl, fun i hi => absurd hi (Nat.not_lt_zero i)⟩
  | cons e es ih =>
      obtain ⟨hhead, htail⟩ := List.pairwise_cons.mp h
      obtain ⟨k, hk, htake, hiff⟩ := ih htail
      by_cases he : e.t ≤ t
      · refine ⟨k + 1, Nat.succ_le_succ hk, ?_, ?_⟩
        · rw [upTo, List.filter_cons_of_pos (by simpa using he), List.take_succ_cons, ← htake]
          rfl
        · intro i hi
          cases i with
          | zero => simpa [stampAt] using he
          | succ i =>
              have := hiff i (by simpa using hi)
              simpa [stampAt] using this
      · have hlate : ∀ e' ∈ e :: es, t < e'.t := by
          intro e' he'
          rcases List.mem_cons.mp he' with heq | hmem
          · rw [heq]
            omega
          · have := hhead e' hmem
            omega
        refine ⟨0, Nat.zero_le _, ?_, ?_⟩
        · rw [List.take_zero, upTo, List.filter_eq_nil_iff]
          intro e' he'
          have := hlate e' he'
          simpa using this
        · intro i hi
          have := hlate _ (List.getElem_mem hi)
          rw [stampAt_lt hi]
          omega

theorem levels_take {i k : Nat} (hi : i ≤ k) : c₀.levels (es.take k) i = c₀.levels es i := by
  unfold levels At
  rw [List.take_take, Nat.min_eq_left hi]

theorem stampAt_take {i k : Nat} (hi : i < k) : stampAt (es.take k) i = stampAt es i := by
  unfold stampAt
  rw [List.getElem?_take_of_lt hi]

theorem inWindow_iff (c : Collector n) (t : Nat) : c.inWindow t = true ↔
    ∃ p ∈ c.allUp, p.1 + c.warmup ≤ t ∧ ∀ b, p.2 = some b → t < b := by
  unfold inWindow
  rw [List.any_eq_true]
  constructor
  · intro h
    obtain ⟨⟨a, b⟩, hp, hin⟩ := h
    refine ⟨(a, b), hp, ?_⟩
    cases b <;> simp_all
  · intro h
    obtain ⟨⟨a, b⟩, hp, hin⟩ := h
    refine ⟨(a, b), hp, ?_⟩
    cases b <;> simp_all

/-- The window at `t`, read off the events stamped by then. -/
theorem inWindow_run (h₀ : c₀.IsNew) (h : InOrder es) (t : Nat) :
    (c₀.run es).inWindow t = true ↔
      (∀ s : Fin n, (c₀.run (upTo t es)).connected.get s = true) ∧
        ∃ i, IsGreatest {i | i ∈ rises (c₀.levels (upTo t es)) (upTo t es).length} i ∧
          stampAt (upTo t es) i + c₀.warmup ≤ t := by
  obtain ⟨k, hk, htake, hiff⟩ := h.upTo_eq_take t
  have hlen : (es.take k).length = k := by simp [hk]
  have hrises : ∀ i, i ∈ rises (c₀.levels (es.take k)) k ↔ i ∈ rises (c₀.levels es) k := by
    intro i
    rw [mem_rises, mem_rises]
    constructor
    · rintro ⟨hi, hrise⟩
      rw [levels_take hi.le, levels_take hi] at hrise
      exact ⟨hi, hrise⟩
    · rintro ⟨hi, hrise⟩
      rw [levels_take hi.le, levels_take hi]
      exact ⟨hi, hrise⟩
  rw [inWindow_iff, allUp_run h₀, run_warmup, stretches_cover (levels_zero h₀) hk hiff, htake,
    hlen, ← allConnected_iff]
  refine and_congr Iff.rfl (exists_congr fun i => ?_)
  simp only [hrises]
  apply and_congr_right
  intro hi
  rw [stampAt_take (mem_rises.mp hi.1).1]

def measured (c : Collector n) (now : Nat) : List (Nat × Nat) :=
  c.allUp.map fun p => (p.1 + c.warmup, p.2.getD now)

theorem windowSeconds_eq (c : Collector n) (now : Nat) :
    c.windowSeconds now = secs ((c.measured now).map fun p => p.2 - p.1).sum := by
  have hone : ∀ start stop, (if start < stop then secs (stop - start) else 0) =
      secs (stop - start) := by
    intro start stop
    split
    · rfl
    · next h => rw [Nat.sub_eq_zero_of_le (Nat.le_of_not_lt h), secs_zero]
  have hsum : ∀ l : List (Nat × Option Nat),
      (l.map fun p => secs (p.2.getD now - (p.1 + c.warmup))).sum =
        secs ((l.map fun p => (p.1 + c.warmup, p.2.getD now)).map fun p => p.2 - p.1).sum := by
    intro l
    induction l with
    | nil => simp
    | cons p l ih => simp only [List.map_cons, List.sum_cons, ih, secs_add]
  unfold windowSeconds windowSecondsIn measured
  simp only [Arith.exact, hone]
  rw [hsum]
  exact max_eq_left (secs_nonneg _)

theorem windowSeconds_run (h₀ : c₀.IsNew) (h : InOrder es) {now : Nat}
    (hnow : ∀ e ∈ es, e.t ≤ now) :
    (c₀.run es).windowSeconds now =
      secs ((Finset.range now).filter fun t => (c₀.run es).inWindow t = true).card := by
  have hpair : (c₀.run es).allUp.Pairwise fun p q => ∃ b, p.2 = some b ∧ b ≤ q.1 := by
    rw [allUp_run h₀]
    exact stretches_pairwise fun i j hij hj => h.stampAt_le hij hj
  have hend : ∀ p ∈ (c₀.run es).allUp, p.2.getD now ≤ now := by
    intro p hp
    rw [allUp_run h₀] at hp
    obtain ⟨i, hi, rfl⟩ := List.mem_map.mp hp
    cases hf : fall (c₀.levels es) es.length i with
    | none => simp
    | some j =>
        have hj := (fall_eq_some hf).2.1
        simp only [Option.map_some, Option.getD_some]
        rw [stampAt_lt hj]
        exact hnow _ (List.getElem_mem hj)
  have hsame : ((Finset.range now).filter fun t => (c₀.run es).inWindow t = true) =
      (Finset.range now).filter fun t => ∃ p ∈ (c₀.run es).measured now, p.1 ≤ t ∧ t < p.2 := by
    ext t
    simp only [Finset.mem_filter, Finset.mem_range, inWindow_iff]
    apply and_congr_right
    intro ht
    unfold measured
    simp only [List.mem_map, exists_exists_and_eq_and]
    apply exists_congr
    intro p
    apply and_congr_right
    intro _
    apply and_congr_right
    intro _
    cases p.2 <;> simp [ht]
  rw [windowSeconds_eq, hsame, card_intervals]
  · unfold measured
    rw [List.pairwise_map]
    apply hpair.imp
    intro p q hpq
    obtain ⟨b, hb, hle⟩ := hpq
    simp only [hb, Option.getD_some]
    omega
  · intro p hp
    obtain ⟨q, hq, rfl⟩ := List.mem_map.mp hp
    exact hend q hq

end Ordered

/-! ## The law -/

/-- The intervals of `allUp` are the stretches with every flag up, and the window they make. -/
structure WindowLaw (c₀ : Collector n) (es : List (Event n)) : Prop where
  stretches : (c₀.run es).allUp = stretches (c₀.levels es) (stampAt es) es.length
  disjoint : (c₀.run es).allUp.Pairwise fun p q => ∃ b, p.2 = some b ∧ b ≤ q.1
  last_open : lastOpen (c₀.run es).allUp = true ↔ ∀ s : Fin n, (c₀.run es).connected.get s = true
  in_window : ∀ t, (c₀.run es).inWindow t = true ↔
    (∀ s : Fin n, (c₀.run (upTo t es)).connected.get s = true) ∧
      ∃ i, IsGreatest {i | i ∈ rises (c₀.levels (upTo t es)) (upTo t es).length} i ∧
        stampAt (upTo t es) i + c₀.warmup ≤ t
  seconds : ∀ now, (∀ e ∈ es, e.t ≤ now) → (c₀.run es).windowSeconds now =
    secs ((Finset.range now).filter fun t => (c₀.run es).inWindow t = true).card

/-- **The window.** Events processed in the order of their stamps leave the window law. -/
theorem window_law (sources : Vector SourceInfo n) (reference : Fin n) (minSources : Nat)
    (warmup start : Nat) (es : List (Event n)) (h : InOrder es) :
    (new sources reference minSources warmup start).WindowLaw es := by
  have h₀ : (new sources reference minSources warmup start).IsNew :=
    isNew_new sources reference minSources warmup start
  refine ⟨allUp_run h₀ es, ?_, ?_, inWindow_run h₀ h, fun now => windowSeconds_run h₀ h⟩
  · rw [allUp_run h₀]
    exact stretches_pairwise fun i j hij hj => h.stampAt_le hij hj
  · rw [lastOpen_run h₀, allConnected_iff]

def oneOutage : List (Event 1) := [⟨0, 3, .connected "a"⟩, ⟨0, 8, .disconnected "b"⟩]

theorem window_law_one_outage : (new #v[⟨"eira", "eira"⟩] 0 1 2 0).WindowLaw oneOutage :=
  window_law _ 0 1 2 0 oneOutage (by simp [InOrder, oneOutage])

end Collector

end FeedBench.Stats
