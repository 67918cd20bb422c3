import FeedBench.Stats.Proofs.Window

/-!
# The window when events are processed out of order

The channel keeps each source's own order and nothing else, so a Connected or Disconnected
can be processed after later-stamped events of other sources.  `connectedAt` is what a
source's own events say about an instant.  The window agrees with it after every event
exactly when every event that moves the window is `Timely`.
-/

namespace FeedBench.Stats

open Lib

variable {n : Nat}

namespace Collector

/-! ## What a source's own events say -/

def linkAt (es : List (Event n)) (s : Fin n) (t : Nat) : Option Bool :=
  ((es.filter fun e => decide (e.source = s) && decide (e.t ≤ t) && e.link.isSome).getLast?).bind
    Event.link

/-- Source `s` was connected at `t` according to its own events. -/
def connectedAt (es : List (Event n)) (s : Fin n) (t : Nat) : Bool := linkAt es s t == some true

def OwnOrder (es : List (Event n)) : Prop :=
  es.Pairwise fun e e' => e.source = e'.source → e.t ≤ e'.t

section Own

variable {c₀ : Collector n} {es : List (Event n)} {e : Event n} {s : Fin n} {t : Nat}

theorem linkAt_snoc : linkAt (es ++ [e]) s t =
    if e.source = s ∧ e.t ≤ t ∧ e.link.isSome then e.link else linkAt es s t := by
  unfold linkAt
  rw [List.filter_append, List.filter_cons, List.filter_nil]
  simp only [Bool.and_eq_true, decide_eq_true_eq, and_assoc]
  split
  · rw [List.getLast?_concat, Option.bind_some]
  · rw [List.append_nil]

theorem connectedAt_snoc : connectedAt (es ++ [e]) s t =
    if e.source = s ∧ e.t ≤ t ∧ e.link.isSome then e.link == some true
    else connectedAt es s t := by
  unfold connectedAt
  rw [linkAt_snoc]
  split <;> rfl

/-- From the last stamp of a source on, its flag is what its events say. -/
theorem connectedAt_late (h₀ : c₀.IsNew) (h : ∀ e ∈ es, e.source = s → e.t ≤ t) :
    connectedAt es s t = (c₀.run es).connected.get s := by
  induction es using List.reverseRecOn with
  | nil => simp [connectedAt, linkAt, h₀.connected]
  | append_singleton es e ih =>
      have hes := ih fun e' he' => h e' (List.mem_append_left _ he')
      rw [connectedAt_snoc, hes, run_append, run_cons, run_nil, connected_onEvent]
      by_cases hs : e.source = s
      · have ht := h e (by simp) hs
        cases hl : e.link with
        | none => simp
        | some b => simp [hs, ht]
      · simp [hs]

theorem OwnOrder.of_append {es' : List (Event n)} (h : OwnOrder (es ++ es')) : OwnOrder es :=
  (List.pairwise_append.mp h).1

theorem OwnOrder.last_le (h : OwnOrder (es ++ [e])) :
    ∀ e' ∈ es, e'.source = e.source → e'.t ≤ e.t :=
  fun e' he' => (List.pairwise_append.mp h).2.2 e' he' e (by simp)

end Own

/-! ## Soundness, and the events that keep it -/

def Covers (p : Nat × Option Nat) (t : Nat) : Prop := p.1 ≤ t ∧ ∀ b, p.2 = some b → t < b

/-- The window holds only instants at which every source was connected, and no two
intervals overlap. -/
structure Sound (c₀ : Collector n) (es : List (Event n)) : Prop where
  connected : ∀ t, (c₀.run es).inWindow t = true → ∀ s, connectedAt es s t = true
  disjoint : (c₀.run es).allUp.Pairwise fun p q => ∀ t, ¬(Covers p t ∧ Covers q t)

/-- A Connected that brings the last flag up comes after the end of every non-empty
interval, and the other sources' events show them connected from its stamp and the warm-up
on. -/
def TimelyConnected (c₀ : Collector n) (es : List (Event n)) (e : Event n) : Prop :=
  (c₀.run es).Opens e →
    (∀ p ∈ (c₀.run es).allUp, ∀ b, p.2 = some b → b ≤ e.t ∨ b ≤ p.1) ∧
      ∀ s, s ≠ e.source → ∀ t, e.t + c₀.warmup ≤ t → connectedAt es s t = true

/-- A Disconnected that drops a flag comes after the end of every interval that outlasted
the warm-up. -/
def TimelyDisconnected (c₀ : Collector n) (es : List (Event n)) (e : Event n) : Prop :=
  (c₀.run es).connected.get e.source = true →
    ∀ p ∈ (c₀.run es).allUp, ∀ b, p.2 = some b → b ≤ e.t ∨ b ≤ p.1 + c₀.warmup

def Timely (c₀ : Collector n) (es : List (Event n)) (e : Event n) : Prop :=
  match e.payload with
  | .connected _ => c₀.TimelyConnected es e
  | .disconnected _ => c₀.TimelyDisconnected es e
  | _ => True

section Steps

variable {c₀ : Collector n} {es : List (Event n)} {e : Event n}

theorem run_snoc (c : Collector n) (es : List (Event n)) (e : Event n) :
    c.run (es ++ [e]) = ((c.run es).onEvent e).1 := by
  rw [run_append, run_cons, run_nil]

theorem inWindow_congr {c c' : Collector n} (hw : c'.warmup = c.warmup)
    (hup : c'.allUp = c.allUp) (t : Nat) : c'.inWindow t = c.inWindow t := by
  rw [inWindow, inWindow, hup, hw]

theorem inWindow_opening {c c' : Collector n} {t₀ : Nat} (hw : c'.warmup = c.warmup)
    (hup : c'.allUp = c.allUp ++ [(t₀, none)]) (t : Nat) :
    c'.inWindow t = true ↔ c.inWindow t = true ∨ t₀ + c.warmup ≤ t := by
  simp only [inWindow_iff, hup, hw, List.mem_append, List.mem_singleton, or_and_right,
    exists_or, exists_eq_left]
  simp

theorem inWindow_dropping {c c' : Collector n} {l : List (Nat × Option Nat)} {o : Option Nat}
    {t₀ : Nat} (hw : c'.warmup = c.warmup)
    (hl : c.allUp = l ++ o.toList.map fun a => (a, none))
    (hl' : c'.allUp = l ++ o.toList.map fun a => (a, some t₀)) (hclosed : ∀ p ∈ l, p.2.isSome)
    (t : Nat) :
    c'.inWindow t = true ↔ c.inWindow t = true ∧
      (t < t₀ ∨ ∃ p ∈ c.allUp, ∃ b, p.2 = some b ∧ p.1 + c.warmup ≤ t ∧ t < b) := by
  rw [inWindow_iff, inWindow_iff, hw]
  constructor
  · intro h
    obtain ⟨p, hp, hle, hend⟩ := h
    rw [hl', List.mem_append] at hp
    rcases hp with hp | hp
    · have hmem : p ∈ c.allUp := by
        rw [hl]
        exact List.mem_append_left _ hp
      obtain ⟨b, hb⟩ := Option.isSome_iff_exists.mp (hclosed p hp)
      exact ⟨⟨p, hmem, hle, hend⟩, .inr ⟨p, hmem, b, hb, hle, hend b hb⟩⟩
    · obtain ⟨a, ha, rfl⟩ := List.mem_map.mp hp
      refine ⟨⟨(a, none), ?_, hle, fun b hb => by cases hb⟩, .inl (hend t₀ rfl)⟩
      rw [hl]
      exact List.mem_append_right _ (List.mem_map.mpr ⟨a, ha, rfl⟩)
  · intro h
    have hold : ∀ p ∈ c.allUp, ∀ b, p.2 = some b → p ∈ c'.allUp := by
      intro p hp b hb
      rw [hl, List.mem_append] at hp
      rw [hl']
      rcases hp with hp | hp
      · exact List.mem_append_left _ hp
      · obtain ⟨a, -, rfl⟩ := List.mem_map.mp hp
        cases hb
    obtain ⟨⟨p, hp, hle, hend⟩, hlt | ⟨q, hq, b, hb, hle', hlt⟩⟩ := h
    · cases hb : p.2 with
      | some b => exact ⟨p, hold p hp b hb, hle, hend⟩
      | none =>
          rw [hl, List.mem_append] at hp
          rcases hp with hp | hp
          · have := hclosed p hp
            rw [hb] at this
            cases this
          · obtain ⟨a, ha, rfl⟩ := List.mem_map.mp hp
            refine ⟨(a, some t₀), ?_, hle, fun b hb => ?_⟩
            · rw [hl']
              exact List.mem_append_right _ (List.mem_map.mpr ⟨a, ha, rfl⟩)
            · rw [← Option.some.inj hb]
              exact hlt
    · refine ⟨q, hold q hq b hb, hle', fun b' hb' => ?_⟩
      rw [hb] at hb'
      rw [← Option.some.inj hb']
      exact hlt

theorem Sound.of_same (h : c₀.Sound es) (hup : (c₀.run (es ++ [e])).allUp = (c₀.run es).allUp)
    (hconn : ∀ s t, connectedAt es s t = true → connectedAt (es ++ [e]) s t = true) :
    c₀.Sound (es ++ [e]) := by
  constructor
  · intro t ht s
    apply hconn
    apply h.connected t
    rwa [inWindow_congr (by simp) hup] at ht
  · rw [hup]
    exact h.disjoint

theorem sound_opening_iff (h₀ : c₀.IsNew) (h : c₀.Sound es) (hlink : e.link = some true)
    (hs : (c₀.run es).connected.get e.source = false)
    (hup : (c₀.run (es ++ [e])).allUp = (c₀.run es).allUp ++ [(e.t, none)]) :
    c₀.Sound (es ++ [e]) ↔
      (∀ p ∈ (c₀.run es).allUp, ∀ b, p.2 = some b → b ≤ e.t ∨ b ≤ p.1) ∧
        ∀ s, s ≠ e.source → ∀ t, e.t + c₀.warmup ≤ t → connectedAt es s t = true := by
  have hclosed := allUp_closed h₀ ((c₀.run es).not_allConnected hs)
  have hwin : ∀ t, (c₀.run (es ++ [e])).inWindow t = true ↔
      (c₀.run es).inWindow t = true ∨ e.t + c₀.warmup ≤ t := by
    intro t
    rw [inWindow_opening (by simp) hup, run_warmup]
  constructor
  · intro hsound
    constructor
    · intro p hp b hb
      by_contra hlate
      have hpair := hsound.disjoint
      rw [hup] at hpair
      have hp' := (List.pairwise_append.mp hpair).2.2 p hp (e.t, none) (by simp) (max p.1 e.t)
      refine hp' ⟨⟨le_max_left _ _, fun b' hb' => ?_⟩, le_max_right _ _, fun b' hb' => by cases hb'⟩
      rw [hb] at hb'
      cases hb'
      omega
    · intro s hse t ht
      have := hsound.connected t ((hwin t).mpr (.inr ht)) s
      rwa [connectedAt_snoc, if_neg fun hc => hse hc.1.symm] at this
  · intro htimely
    obtain ⟨hends, hothers⟩ := htimely
    constructor
    · intro t ht s
      rw [connectedAt_snoc, hlink]
      split
      · rfl
      · next hc =>
        rcases (hwin t).mp ht with hold | hnew
        · exact h.connected t hold s
        · refine hothers s (fun hse => hc ⟨hse.symm, ?_, rfl⟩) t hnew
          omega
    · rw [hup, List.pairwise_append]
      refine ⟨h.disjoint, by simp, ?_⟩
      intro p hp q hq t hcov
      rw [List.mem_singleton.mp hq] at hcov
      obtain ⟨b, hb⟩ := Option.isSome_iff_exists.mp (hclosed p hp)
      have hlt := hcov.1.2 b hb
      have hle := hcov.1.1
      have hle' : e.t ≤ t := hcov.2.1
      rcases hends p hp b hb with hend | hempty <;> omega

theorem sound_connected_iff (h₀ : c₀.IsNew) (h : c₀.Sound es) {detail : String}
    (hp : e.payload = .connected detail) :
    c₀.Sound (es ++ [e]) ↔ c₀.TimelyConnected es e := by
  have hlink : e.link = some true := by rw [Event.link, hp]
  have hmono : ∀ s t, connectedAt es s t = true → connectedAt (es ++ [e]) s t = true := by
    intro s t hst
    rw [connectedAt_snoc, hlink]
    split
    · rfl
    · exact hst
  rcases (c₀.run es).connected_allUp e hp (lastOpen_run h₀ es) with ⟨hopens, hup⟩ | ⟨hnot, hup⟩
  · rw [← run_snoc] at hup
    rw [sound_opening_iff h₀ h hlink hopens.1 hup]
    exact ⟨fun hiff _ => hiff, fun htimely => htimely hopens⟩
  · rw [← run_snoc] at hup
    exact ⟨fun _ hopens => absurd hopens hnot, fun _ => h.of_same hup hmono⟩

theorem allUp_drop (h₀ : c₀.IsNew) {reason : String} (hp : e.payload = .disconnected reason)
    (hs : (c₀.run es).connected.get e.source = true) :
    ∃ (l : List (Nat × Option Nat)) (o : Option Nat),
      (c₀.run es).allUp = l ++ o.toList.map (fun a => (a, none)) ∧
        (c₀.run (es ++ [e])).allUp = l ++ o.toList.map (fun a => (a, some e.t)) ∧
          ∀ p ∈ l, p.2.isSome := by
  have hup := (c₀.run es).onDisconnected_allUp (s := e.source) e.t reason (lastOpen_run h₀ es)
  have hrun : c₀.run (es ++ [e]) = ((c₀.run es).onDisconnected e.source e.t reason).1 := by
    rw [run_snoc, onEvent, hp]
  rw [← hrun, hs, Bool.and_true] at hup
  cases hall : (c₀.run es).allConnected with
  | false =>
      rw [hall, if_neg (by simp)] at hup
      refine ⟨(c₀.run es).allUp, none, ?_, ?_, allUp_closed h₀ hall⟩
      · rw [Option.toList_none, List.map_nil, List.append_nil]
      · rw [hup, Option.toList_none, List.map_nil, List.append_nil]
  | true =>
      obtain ⟨l, a, hl, hclosed⟩ := allUp_open h₀ hall
      rw [hall, if_pos rfl, hl, closeLast_concat] at hup
      exact ⟨l, some a, hl, hup, hclosed⟩

theorem sound_dropping_iff (h₀ : c₀.IsNew) (h : c₀.Sound es) {reason : String}
    (hp : e.payload = .disconnected reason) (hs : (c₀.run es).connected.get e.source = true) :
    c₀.Sound (es ++ [e]) ↔
      ∀ p ∈ (c₀.run es).allUp, ∀ b, p.2 = some b → b ≤ e.t ∨ b ≤ p.1 + c₀.warmup := by
  obtain ⟨l, o, hl, hl', hclosed⟩ := allUp_drop h₀ hp hs
  have hlink : e.link = some false := by rw [Event.link, hp]
  have hconn : ∀ s t, connectedAt (es ++ [e]) s t =
      if e.source = s ∧ e.t ≤ t then false else connectedAt es s t := by
    intro s t
    rw [connectedAt_snoc, hlink]
    simp
  have hwin := inWindow_dropping (by simp) hl hl' hclosed
  rw [run_warmup] at hwin
  constructor
  · intro hsound p hmem b hb
    by_contra hlate
    -- the window still holds an instant at which the source was down
    have hold : (c₀.run es).inWindow (max e.t (p.1 + c₀.warmup)) = true := by
      rw [inWindow_iff, run_warmup]
      refine ⟨p, hmem, le_max_right _ _, fun b' hb' => ?_⟩
      rw [hb] at hb'
      cases hb'
      omega
    have hnew : (c₀.run (es ++ [e])).inWindow (max e.t (p.1 + c₀.warmup)) = true := by
      rw [hwin]
      exact ⟨hold, .inr ⟨p, hmem, b, hb, le_max_right _ _, by omega⟩⟩
    have := hsound.connected _ hnew e.source
    rw [hconn, if_pos ⟨rfl, le_max_left _ _⟩] at this
    cases this
  · intro htimely
    constructor
    · intro t ht s
      rw [hwin] at ht
      obtain ⟨hold, hend⟩ := ht
      have hlt : t < e.t := by
        rcases hend with hlt | ⟨p, hmem, b, hb, hw, hlt⟩
        · exact hlt
        · rcases htimely p hmem b hb with hend | hend <;> omega
      rw [hconn, if_neg (by omega)]
      exact h.connected t hold s
    · have hpair := h.disjoint
      rw [hl, List.pairwise_append] at hpair
      rw [hl', List.pairwise_append]
      refine ⟨hpair.1, ?_, ?_⟩
      · cases o <;> simp
      · intro p hp' q hq t hcov
        obtain ⟨a, ha, rfl⟩ := List.mem_map.mp hq
        refine hpair.2.2 p hp' (a, none) (List.mem_map.mpr ⟨a, ha, rfl⟩) t ⟨hcov.1, hcov.2.1, ?_⟩
        intro b hb
        cases hb

theorem sound_disconnected_iff (h₀ : c₀.IsNew) (hown : OwnOrder (es ++ [e]))
    (h : c₀.Sound es) {reason : String} (hp : e.payload = .disconnected reason) :
    c₀.Sound (es ++ [e]) ↔ c₀.TimelyDisconnected es e := by
  cases hs : (c₀.run es).connected.get e.source with
  | true =>
      rw [sound_dropping_iff h₀ h hp hs]
      exact ⟨fun hiff _ => hiff, fun htimely => htimely hs⟩
  | false =>
      refine ⟨fun _ hup => (by rw [hs] at hup; cases hup), fun _ => h.of_same ?_ ?_⟩
      · rw [run_snoc, onEvent, hp]
        simp [onDisconnected, hs]
      · intro s t hst
        rw [connectedAt_snoc, if_neg ?_]
        · exact hst
        · intro hc
          obtain ⟨rfl, ht, -⟩ := hc
          have hlate : ∀ e' ∈ es, e'.source = e.source → e'.t ≤ t :=
            fun e' he' hse => (hown.last_le e' he' hse).trans ht
          rw [connectedAt_late h₀ hlate, hs] at hst
          cases hst

/-- One event keeps the window sound exactly when it is processed in time. -/
theorem sound_snoc_iff (h₀ : c₀.IsNew) (hown : OwnOrder (es ++ [e])) (h : c₀.Sound es) :
    c₀.Sound (es ++ [e]) ↔ c₀.Timely es e := by
  unfold Timely
  cases hp : e.payload with
  | connected detail => exact sound_connected_iff h₀ h hp
  | disconnected reason => exact sound_disconnected_iff h₀ hown h hp
  | block | tx =>
      have hlink : e.link = none := by rw [Event.link, hp]
      refine ⟨fun _ => trivial, fun _ => h.of_same ?_ fun s t hst => ?_⟩
      · rw [run_snoc, onEvent, hp]
        rfl
      · rw [connectedAt_snoc, if_neg (by simp [hlink]), hst]

end Steps

/-! ## Runs -/

theorem sound_nil {c₀ : Collector n} (h₀ : c₀.IsNew) : c₀.Sound [] := by
  constructor
  · intro t ht
    simp [inWindow, h₀.allUp] at ht
  · simp [h₀.allUp]

/-- **The window under any processing order.** It is sound after every event of a run exactly
when every event of the run was processed in time. -/
theorem sound_iff_timely (sources : Vector SourceInfo n) (reference : Fin n) (minSources : Nat)
    (warmup start : Nat) (es : List (Event n)) (hown : OwnOrder es) :
    (∀ k, k ≤ es.length → (new sources reference minSources warmup start).Sound (es.take k)) ↔
      ∀ k (hk : k < es.length),
        (new sources reference minSources warmup start).Timely (es.take k) es[k] := by
  have h₀ : (new sources reference minSources warmup start).IsNew :=
    isNew_new sources reference minSources warmup start
  have htake : ∀ k (hk : k < es.length), OwnOrder (es.take k ++ [es[k]]) := by
    intro k hk
    rw [← List.take_succ_eq_append_getElem hk]
    rw [← List.take_append_drop (k + 1) es] at hown
    exact hown.of_append
  constructor
  · intro h k hk
    rw [← sound_snoc_iff h₀ (htake k hk) (h k hk.le), ← List.take_succ_eq_append_getElem hk]
    exact h (k + 1) hk
  · intro h k
    induction k with
    | zero => exact fun _ => sound_nil h₀
    | succ k ih =>
        intro hk
        rw [List.take_succ_eq_append_getElem hk, sound_snoc_iff h₀ (htake k hk) (ih (by omega))]
        exact h k hk

def comeUp : List (Event 2) := [⟨eira, 4, .connected ""⟩, ⟨official, 9, .connected ""⟩]

theorem sound_iff_timely_come_up :
    (∀ k, k ≤ comeUp.length → (new twoSources 1 2 0 0).Sound (comeUp.take k)) ↔
      ∀ k (hk : k < comeUp.length), (new twoSources 1 2 0 0).Timely (comeUp.take k) comeUp[k] :=
  sound_iff_timely twoSources 1 2 0 0 comeUp (by simp [OwnOrder, comeUp])

/-- Both sources drop, the later drop is processed first, and so it is when they return. -/
def crossed : List (Event 2) :=
  [⟨official, 1, .connected ""⟩, ⟨eira, 2, .connected ""⟩, ⟨eira, 15, .disconnected ""⟩,
    ⟨official, 10, .disconnected ""⟩, ⟨eira, 16, .connected ""⟩, ⟨official, 11, .connected ""⟩]

/-- The window holds an instant at which the first source was down, and two intervals
overlap. -/
theorem crossed_not_sound :
    OwnOrder crossed ∧
      ¬(∀ t, ((new twoSources 1 2 0 0).run crossed).inWindow t = true →
        ∀ s, connectedAt crossed s t = true) ∧
      ¬((new twoSources 1 2 0 0).run crossed).allUp.Pairwise fun p q =>
        ∀ t, ¬(Covers p t ∧ Covers q t) := by
  have hup : ((new twoSources 1 2 0 0).run crossed).allUp = [(2, some 15), (11, none)] := by
    decide
  refine ⟨by simp [OwnOrder, crossed], fun h => ?_, fun h => ?_⟩
  · have := h 10 (by decide) 0
    revert this
    decide
  · rw [hup, List.pairwise_pair] at h
    exact h 12 ⟨⟨by omega, fun b hb => by cases hb; omega⟩, ⟨by omega, fun b hb => by cases hb⟩⟩

end Collector

end FeedBench.Stats
