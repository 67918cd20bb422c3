import FeedBench.Main.Loop
import FeedBench.Stats.Proofs.Skew

/-!
# Rolling summaries

A block is *settled* at `til` when it completed by `til`, inside the window.  A tick counts
the blocks that are settled at it and were not settled at the tick before, so the rolling
summaries share out the settled blocks as long as no event changes which blocks are settled
at the last tick.  `OnTime` says of one event, from the state before it, that it does not.
-/

namespace FeedBench

open Lib Stats

variable {n : Nat}

namespace Stats.Collector

/-! ## Deliveries -/

theorem counts_none_iff {c : Collector n} {til : Nat} {r : BlockRec n} :
    c.counts none til r = true ↔
      ∃ done, r.completedAt = some done ∧ done ≤ til ∧ c.inWindow r.first = true := by
  unfold counts
  cases r.completedAt <;> simp

theorem counts_some_iff {c : Collector n} {since til : Nat} {r : BlockRec n} :
    c.counts (some since) til r = true ↔
      ∃ done, r.completedAt = some done ∧ since < done ∧ done ≤ til ∧
        c.inWindow r.first = true := by
  unfold counts
  cases r.completedAt <;> simp [and_assoc, and_left_comm]

/-- A delivery at `t` to the record `r` leaves a summary up to `til` alone: it does not
complete a block of the window whose arrivals all lie in the past, and it does not move the
first arrival of a block that did over the edge of the window. -/
def OnTimeDelivery (c : Collector n) (til : Nat) (r : BlockRec n) (s : Fin n) (t : Nat) : Prop :=
  r.arrivals.get s = none →
    (r.seen + 1 = c.minSources → (∀ s' : Fin n, ∀ t', r.arrivals.get s' = some t' → t' ≤ til) →
      t ≤ til → c.inWindow (min r.first t) = false) ∧
    ∀ done, r.completedAt = some done → done ≤ til → t < r.first →
      c.inWindow t = c.inWindow r.first

theorem record_first (r : BlockRec n) (s : Fin n) (t : Nat) :
    (r.record s t).first = min r.first t := by
  simp only [BlockRec.record]
  split <;> omega

theorem lastArrival_record_le {r : BlockRec n} {s : Fin n} {t : Nat} (til : Nat)
    (hs : r.arrivals.get s = none)
    (h : Tally (r.record s t).arrivals (r.record s t).seen (r.record s t).first) :
    (r.record s t).lastArrival t ≤ til ↔
      (∀ s' : Fin n, ∀ t', r.arrivals.get s' = some t' → t' ≤ til) ∧ t ≤ til := by
  have hgreatest := BlockRec.lastArrival_isGreatest h t
  have hslot : ∀ s' : Fin n, (r.record s t).arrivals.get s' =
      if s = s' then some t else r.arrivals.get s' := fun s' => get_set _ _ _ _
  constructor
  · intro hle
    constructor
    · intro s' t' ht'
      have hne : s ≠ s' := by
        intro heq
        rw [← heq, hs] at ht'
        cases ht'
      exact (hgreatest.2 ⟨s', by rw [hslot, if_neg hne, ht']⟩).trans hle
    · exact (hgreatest.2 ⟨s, by rw [hslot, if_pos rfl]⟩).trans hle
  · intro hall
    obtain ⟨s', hs'⟩ := hgreatest.1
    rw [hslot] at hs'
    split at hs'
    · rw [← Option.some.inj hs']
      exact hall.2
    · exact hall.1 s' _ hs'

theorem counts_deliver_iff {c : Collector n} {til : Nat} {r : BlockRec n} {s : Fin n} {t : Nat}
    (h : r.Untouched s t ∨ BlockTally c.minSources r) :
    c.counts none til (r.deliver c.minSources s t).1 = c.counts none til r ↔
      c.OnTimeDelivery til r s t := by
  unfold OnTimeDelivery
  rcases r.deliver_cases c.minSources s t with ⟨⟨a, ha⟩, heq⟩ | ⟨hs, hne, heq⟩ | ⟨hs, hmin, heq⟩
  · rw [heq, ha]
    simp
  · -- the block is complete already or stays incomplete: only `first` can move
    rw [heq]
    have hfirst := record_first r s t
    have hcomp : (r.record s t).completedAt = r.completedAt := rfl
    simp only [hs, hne, false_imp_iff, true_and, forall_true_left]
    unfold counts
    rw [hcomp, hfirst]
    cases r.completedAt with
    | none => simp
    | some done =>
        simp only [Option.any_none, Bool.or_false, Option.some.injEq, forall_eq']
        by_cases hdone : done ≤ til
        · by_cases hlt : t < r.first
          · simp [hdone, Nat.not_lt.mpr hdone, hlt, Nat.min_eq_right hlt.le]
          · simp [hlt, Nat.min_eq_left (Nat.le_of_not_lt hlt)]
        · simp [hdone, Nat.lt_of_not_le hdone]
  · -- the delivery completes the block
    have hnone : r.completedAt = none := by
      rcases h with h | h
      · exact h.2.2.2.2
      · rw [← Option.not_isSome_iff_eq_none, h.completed_iff]
        omega
    have htally := (BlockRec.record_tally (h.imp id fun h => ⟨h.tally, h.first_src⟩) hs).1
    have hle := lastArrival_record_le til hs htally
    have hbefore : c.counts none til r = false := by
      rw [counts, hnone]
    have hwin : c.inWindow ({ r.record s t with
        completedAt := some ((r.record s t).lastArrival t) }).first =
          c.inWindow (min r.first t) := by rw [← record_first r s t]
    rw [heq, hbefore, ← Bool.not_eq_true, counts_none_iff]
    constructor
    · intro hcounts _
      refine ⟨fun _ harr ht => ?_, fun done hdone => (by rw [hnone] at hdone; cases hdone)⟩
      rw [← Bool.not_eq_true]
      intro hin
      exact hcounts ⟨_, rfl, hle.mpr ⟨harr, ht⟩, hwin.trans hin⟩
    · intro htime hcounts
      obtain ⟨done, hdone, hdle, hin⟩ := hcounts
      rw [← Option.some.inj hdone, hle] at hdle
      have := (htime hs).1 hmin hdle.1 hdle.2
      rw [hwin, this] at hin
      cases hin

/-! ## Events -/

/-- A Connected leaves a summary up to `til` alone: no block that completed by `til` enters
the window with the new interval. -/
def OnTimeConnected (c : Collector n) (til : Nat) (e : Event n) : Prop :=
  c.Opens e → ∀ key r done, c.blocks.lookup key = some r → r.completedAt = some done →
    done ≤ til → e.t + c.warmup ≤ r.first → c.inWindow r.first = true

/-- A Disconnected leaves a summary up to `til` alone: every block of the window that
completed by `til` first arrived before it, or in an interval that is over already. -/
def OnTimeDisconnected (c : Collector n) (til : Nat) (e : Event n) : Prop :=
  c.connected.get e.source = true → ∀ key r done, c.blocks.lookup key = some r →
    r.completedAt = some done → done ≤ til → c.inWindow r.first = true →
      r.first < e.t ∨
        ∃ p ∈ c.allUp, ∃ b, p.2 = some b ∧ p.1 + c.warmup ≤ r.first ∧ r.first < b

def OnTime (c : Collector n) (til : Nat) (e : Event n) : Prop :=
  match e.payload with
  | .connected _ => c.OnTimeConnected til e
  | .disconnected _ => c.OnTimeDisconnected til e
  | .block key seq hash txCount _ =>
      c.OnTimeDelivery til (c.blockBefore key e.source e.t seq hash txCount) e.source e.t
  | .tx _ _ _ _ _ => True

section Events

variable {c c' : Collector n} {til : Nat} {e : Event n}

/-- When the records stay, the settled blocks change with the window only. -/
theorem settled_iff_of_records (h : ∀ key, c'.blocks.lookup key = c.blocks.lookup key) :
    (∀ key, key ∈ Main.keysCounted c' none til ↔ key ∈ Main.keysCounted c none til) ↔
      ∀ key r done, c.blocks.lookup key = some r → r.completedAt = some done → done ≤ til →
        (c'.inWindow r.first = true ↔ c.inWindow r.first = true) := by
  constructor
  · intro hkeys key r done hr hdone hle
    have := hkeys key
    simpa [Main.mem_keysCounted, h, hr, counts_none_iff, hdone, hle] using this
  · intro hwin key
    rw [Main.mem_keysCounted, Main.mem_keysCounted, h]
    apply exists_congr
    intro r
    apply and_congr_right
    intro hr
    rw [counts_none_iff, counts_none_iff]
    apply exists_congr
    intro done
    apply and_congr_right
    intro hdone
    apply and_congr_right
    intro hle
    exact hwin key r done hr hdone hle

theorem settled_block_iff {key : String} {seq : Option UInt64} {hash : Option String}
    {txCount : Option UInt32} {wireLen : UInt64}
    (hp : e.payload = .block key seq hash txCount wireLen)
    (h : ∀ r, c.blocks.lookup key = some r → BlockTally c.minSources r) :
    (∀ k, k ∈ Main.keysCounted (c.onEvent e).1 none til ↔ k ∈ Main.keysCounted c none til) ↔
      c.OnTimeDelivery til (c.blockBefore key e.source e.t seq hash txCount) e.source e.t := by
  have hwin : ∀ t, (c.onEvent e).1.inWindow t = c.inWindow t := by
    intro t
    rw [onEvent, hp]
    rfl
  have hcounts : ∀ r, (c.onEvent e).1.counts none til r = c.counts none til r := by
    intro r
    rw [Bool.eq_iff_iff, counts_none_iff, counts_none_iff]
    simp only [hwin]
  have hbefore : key ∈ Main.keysCounted c none til ↔
      c.counts none til (c.blockBefore key e.source e.t seq hash txCount) = true := by
    rw [Main.mem_keysCounted]
    unfold blockBefore
    cases hr : c.blocks.lookup key with
    | none => simp [counts, BlockRec.fresh]
    | some r => simp [counts]
  have hafter : key ∈ Main.keysCounted (c.onEvent e).1 none til ↔
      c.counts none til (c.blockAfter key e.source e.t seq hash txCount) = true := by
    rw [Main.mem_keysCounted, lookup_blocks_onEvent, hp]
    simp [hcounts]
  have hother : ∀ k, key ≠ k →
      (k ∈ Main.keysCounted (c.onEvent e).1 none til ↔ k ∈ Main.keysCounted c none til) := by
    intro k hk
    rw [Main.mem_keysCounted, Main.mem_keysCounted, lookup_blocks_onEvent, hp]
    simp [hk, hcounts]
  rw [← counts_deliver_iff (c.blockBefore_tally key e.source e.t seq hash txCount h)]
  change _ ↔ c.counts none til (c.blockAfter key e.source e.t seq hash txCount) = _
  rw [Bool.eq_iff_iff, ← hafter, ← hbefore]
  constructor
  · intro hall
    exact hall key
  · intro hkey k
    by_cases hk : key = k
    · rw [← hk]
      exact hkey
    · exact hother k hk

/-- An event leaves the settled blocks alone exactly when it is on time. -/
theorem settled_onEvent_iff {c₀ : Collector n} (h₀ : c₀.IsNew) (es : List (Event n))
    (til : Nat) (e : Event n) :
    (∀ key, key ∈ Main.keysCounted ((c₀.run es).onEvent e).1 none til ↔
      key ∈ Main.keysCounted (c₀.run es) none til) ↔ (c₀.run es).OnTime til e := by
  have hopen := lastOpen_run h₀ es
  have hnothing : (∀ key, ((c₀.run es).onEvent e).1.blocks.lookup key =
      (c₀.run es).blocks.lookup key) →
      ((c₀.run es).onEvent e).1.allUp = (c₀.run es).allUp →
      ∀ key, key ∈ Main.keysCounted ((c₀.run es).onEvent e).1 none til ↔
        key ∈ Main.keysCounted (c₀.run es) none til := by
    intro hlookup hup
    rw [settled_iff_of_records hlookup]
    intro key r done _ _ _
    rw [inWindow_congr (by simp) hup]
  have hlookup : ∀ key, (∀ k seq hash txCount wireLen,
      e.payload ≠ .block k seq hash txCount wireLen) →
      ((c₀.run es).onEvent e).1.blocks.lookup key = (c₀.run es).blocks.lookup key := by
    intro key hp
    rw [lookup_blocks_onEvent]
    split
    · next k seq hash txCount wireLen hp' => exact absurd hp' (hp _ _ _ _ _)
    · rfl
  unfold OnTime
  cases hp : e.payload with
  | block key seq hash txCount wireLen =>
      refine settled_block_iff hp fun r hr => ?_
      have := blockTally_run h₀ es key r hr
      rwa [run_minSources]
  | tx =>
      simp only [iff_true]
      refine hnothing (fun key => hlookup key (by simp [hp])) ?_
      rw [onEvent, hp]
      rfl
  | connected detail =>
      have hsame := fun key => hlookup key (by simp [hp])
      unfold OnTimeConnected
      rcases (c₀.run es).connected_allUp e hp hopen with ⟨hopens, hup⟩ | ⟨hnot, hup⟩
      · rw [settled_iff_of_records hsame]
        have hwarmup : ((c₀.run es).onEvent e).1.warmup = (c₀.run es).warmup := by simp
        have hwin := inWindow_opening hwarmup hup
        simp only [hwin, hopens, forall_true_left, or_iff_left_iff_imp]
      · exact ⟨fun _ hopens => absurd hopens hnot, fun _ => hnothing hsame hup⟩
  | disconnected reason =>
      have hsame := fun key => hlookup key (by simp [hp])
      unfold OnTimeDisconnected
      cases hs : (c₀.run es).connected.get e.source with
      | false =>
          simp only [Bool.false_eq_true, false_imp_iff, iff_true]
          apply hnothing hsame
          rw [onEvent, hp]
          simp [onDisconnected, hs]
      | true =>
          obtain ⟨l, o, hl, hl', hclosed⟩ := allUp_drop h₀ hp hs
          rw [run_snoc] at hl'
          have hwin := inWindow_dropping (by simp) hl hl' hclosed
          rw [settled_iff_of_records hsame]
          simp only [hwin, forall_true_left, and_iff_left_iff_imp]

end Events

end Stats.Collector

/-! ## Turns -/

namespace Main

def settled (c : Collector n) (til : Nat) : List String := keysCounted c none til

theorem mem_settled_iff {c : Collector n} {til : Nat} {key : String} :
    key ∈ settled c til ↔ ∃ r done, c.blocks.lookup key = some r ∧ r.completedAt = some done ∧
      done ≤ til ∧ c.inWindow r.first = true := by
  unfold settled
  rw [mem_keysCounted]
  simp only [Collector.counts_none_iff, ← exists_and_left]

theorem mem_settled_tick {c : Collector n} {since now : Nat} (h : since ≤ now) (key : String) :
    key ∈ settled c now ↔ key ∈ settled c since ∨ key ∈ keysCounted c (some since) now := by
  rw [mem_settled_iff, mem_settled_iff, mem_keysCounted]
  simp only [Collector.counts_some_iff, ← exists_and_left]
  rw [← exists_or]
  apply exists_congr
  intro r
  rw [← exists_or]
  apply exists_congr
  intro done
  constructor
  · rintro ⟨hr, hdone, hle, hwin⟩
    by_cases hold : done ≤ since
    · exact .inl ⟨hr, hdone, hold, hwin⟩
    · exact .inr ⟨hr, hdone, by omega, hle, hwin⟩
  · rintro (⟨hr, hdone, hle, hwin⟩ | ⟨hr, hdone, -, hle, hwin⟩)
    · exact ⟨hr, hdone, by omega, hwin⟩
    · exact ⟨hr, hdone, hle, hwin⟩

theorem not_mem_settled_of_counted {c : Collector n} {since now : Nat} {key : String}
    (h : key ∈ keysCounted c (some since) now) : key ∉ settled c since := by
  intro hold
  obtain ⟨r, hr, hcount⟩ := mem_keysCounted.mp h
  obtain ⟨done, hdone, hlt, -⟩ := Collector.counts_some_iff.mp hcount
  obtain ⟨r', done', hr', hdone', hle, -⟩ := mem_settled_iff.mp hold
  rw [hr] at hr'
  cases hr'
  rw [hdone] at hdone'
  cases hdone'
  omega

/-- One turn keeps the rolling summaries exact.  An event must be on time for the last tick,
and before the first tick nothing of the window may have completed by the start. -/
def InTime (m : Main n) : Turn n → Prop
  | .recv _ ev => m.blockIntervals = [] ∨ m.col.OnTime m.lastSummary ev
  | .tick _ => m.blockIntervals = [] → settled m.col m.lastSummary = []

/-- The rolling summaries of a run share out the blocks that the whole-run summary counts
and that completed by the last tick: each is counted once, and the counts add up. -/
structure RollingExact (m₀ : Main n) (turns : List (Turn n)) : Prop where
  once : ∀ til key r done, (∀ turn ∈ turns, turn.now ≤ til) →
    (m₀.run turns).col.blocks.lookup key = some r →
    (m₀.run turns).col.counts none til r = true → r.completedAt = some done →
    done ≤ (m₀.run turns).lastSummary →
    (m₀.rolled turns).countP (fun keys => decide (key ∈ keys)) = 1
  total : ∀ label, ((m₀.run turns).blockIntervals.map BlockSummary.completed).sum =
    ((m₀.run turns).col.blockSummary label none (m₀.run turns).lastSummary).completed

section Runs

variable {m₀ : Main n} {turns : List (Turn n)} {turn : Turn n} {start : Nat}

theorem lastSummary_le {til : Nat} (h : m₀.lastSummary ≤ til)
    (hturns : ∀ turn ∈ turns, turn.now ≤ til) : (m₀.run turns).lastSummary ≤ til := by
  induction turns using List.reverseRecOn with
  | nil => exact h
  | append_singleton turns turn ih =>
      have hle := ih fun turn hmem => hturns turn (List.mem_append_left _ hmem)
      rw [run_snoc]
      cases turn with
      | recv now ev => exact hle
      | tick now => exact hturns (.tick now) (by simp)

theorem lastSummary_le_of_ticked {til : Nat} (hticked : (m₀.run turns).blockIntervals ≠ [])
    (hnew : m₀.blockIntervals = []) (hturns : ∀ turn ∈ turns, turn.now ≤ til) :
    (m₀.run turns).lastSummary ≤ til := by
  induction turns using List.reverseRecOn with
  | nil => exact absurd hnew hticked
  | append_singleton turns turn ih =>
      rw [run_snoc] at hticked ⊢
      cases turn with
      | recv now ev => exact ih hticked fun turn hmem => hturns turn (List.mem_append_left _ hmem)
      | tick now => exact hturns (.tick now) (by simp)

theorem exists_col_run (m₀ : Main n) (turns : List (Turn n)) :
    ∃ es, (m₀.run turns).col = m₀.col.run es := by
  induction turns using List.reverseRecOn with
  | nil => exact ⟨[], rfl⟩
  | append_singleton turns turn ih =>
      obtain ⟨es, hes⟩ := ih
      rw [run_snoc]
      cases turn with
      | recv now ev =>
          refine ⟨es ++ [ev], ?_⟩
          rw [Collector.run_snoc, ← hes]
          rfl
      | tick now => exact ⟨es, hes⟩

theorem rollingExact_iff (hnew : m₀.blockIntervals = [])
    (hticked : (m₀.run turns).blockIntervals ≠ []) :
    m₀.RollingExact turns ↔
      Shares (m₀.rolled turns) (settled (m₀.run turns).col (m₀.run turns).lastSummary) := by
  have hlengths := m₀.blockIntervals_run turns
  rw [hnew, List.map_nil, List.nil_append] at hlengths
  have hnodup : (settled (m₀.run turns).col (m₀.run turns).lastSummary).Nodup :=
    nodup_keysWhere _ _
  rw [shares_iff nodup_of_mem_rolled hnodup, ← hlengths]
  constructor
  · intro h
    refine ⟨fun key hkey => ?_, ?_⟩
    · obtain ⟨r, done, hr, hdone, hle, hwin⟩ := mem_settled_iff.mp hkey
      obtain ⟨til, htil⟩ : ∃ til, ∀ turn ∈ turns, turn.now ≤ til :=
        ⟨(turns.map Turn.now).sum, fun turn hmem =>
          List.le_sum_of_mem (List.mem_map_of_mem hmem)⟩
      have hlast := lastSummary_le_of_ticked hticked hnew htil
      exact h.once til key r done htil hr
        (Collector.counts_none_iff.mpr ⟨done, hdone, hle.trans hlast, hwin⟩) hdone hle
    · rw [h.total "", settled, length_keysCounted _ ""]
  · intro h
    refine ⟨fun til key r done _ hr hcounts hdone hle => ?_, fun label => ?_⟩
    · obtain ⟨done', hdone', -, hwin⟩ := Collector.counts_none_iff.mp hcounts
      exact h.1 key (mem_settled_iff.mpr ⟨r, done, hr, hdone, hle, hwin⟩)
    · rw [h.2, settled, length_keysCounted _ label]

def Exact (m₀ : Main n) (turns : List (Turn n)) : Prop :=
  (m₀.run turns).blockIntervals ≠ [] → m₀.RollingExact turns

theorem exact_recv_iff {c₀ : Collector n} (h₀ : c₀.IsNew) {now : Nat} {ev : Event n}
    (h : (init c₀).Exact turns) :
    (init c₀).Exact (turns ++ [.recv now ev]) ↔ ((init c₀).run turns).InTime (.recv now ev) := by
  have hsame : ((init c₀).run (turns ++ [.recv now ev])).blockIntervals =
      ((init c₀).run turns).blockIntervals := by rw [run_snoc]; rfl
  by_cases hticked : ((init c₀).run turns).blockIntervals = []
  · refine ⟨fun _ => .inl hticked, fun _ hne => absurd ?_ hne⟩
    rw [hsame, hticked]
  · have hold := (rollingExact_iff rfl hticked).mp (h hticked)
    obtain ⟨es, hes⟩ := (init c₀).exists_col_run turns
    have hrolled : (init c₀).rolled (turns ++ [.recv now ev]) = (init c₀).rolled turns := by
      rw [rolled_snoc]
      simp [rolledBy]
    have hevent := Collector.settled_onEvent_iff h₀ es ((init c₀).run turns).lastSummary ev
    change _ = c₀.run es at hes
    rw [← hes] at hevent
    have hticked' : ((init c₀).run (turns ++ [.recv now ev])).blockIntervals ≠ [] := by
      rwa [hsame]
    unfold Exact
    rw [imp_iff_right hticked', rollingExact_iff rfl hticked', hrolled, hold.congr_iff, run_snoc]
    exact hevent.trans ⟨.inr, fun h => h.resolve_left hticked⟩

theorem exact_tick_iff {c₀ : Collector n} {now : Nat}
    (hle : ((init c₀).run turns).lastSummary ≤ now) (h : (init c₀).Exact turns) :
    (init c₀).Exact (turns ++ [.tick now]) ↔ ((init c₀).run turns).InTime (.tick now) := by
  have hticked' : ((init c₀).run (turns ++ [.tick now])).blockIntervals ≠ [] := by
    rw [run_snoc]
    simp [step]
  have hsettled := mem_settled_tick (c := ((init c₀).run turns).col) hle
  have hrolled : (init c₀).rolled (turns ++ [.tick now]) = (init c₀).rolled turns ++
      [keysCounted ((init c₀).run turns).col (some ((init c₀).run turns).lastSummary) now] :=
    rolled_snoc _ _ _
  unfold Exact
  rw [imp_iff_right hticked', rollingExact_iff rfl hticked', hrolled, run_snoc]
  change Shares _ (settled ((init c₀).run turns).col now) ↔ _
  by_cases hticked : ((init c₀).run turns).blockIntervals = []
  · have hnone : (init c₀).rolled turns = [] := by
      have := (init c₀).blockIntervals_run turns
      rw [hticked] at this
      simpa [init] using this.symm
    rw [hnone, List.nil_append, shares_singleton]
    change _ ↔ (((init c₀).run turns).blockIntervals = [] → _)
    rw [imp_iff_right hticked, List.eq_nil_iff_forall_not_mem]
    apply forall_congr'
    intro key
    rw [hsettled key]
    constructor
    · intro hiff hold
      exact not_mem_settled_of_counted (hiff.mp (.inl hold)) hold
    · intro hold
      exact ⟨fun hor => hor.resolve_left hold, .inr⟩
  · have hold := (rollingExact_iff rfl hticked).mp (h hticked)
    refine ⟨fun _ hnone => absurd hnone hticked, fun _ => ?_⟩
    exact hold.snoc (fun key hkey => not_mem_settled_of_counted hkey) hsettled

end Runs

/-! ## The law -/

/-- **Rolling summaries.** They are exact after every turn of a run exactly when every turn
of the run is in time. -/
theorem rolling_iff (sources : Vector SourceInfo n) (reference : Fin n) (minSources : Nat)
    (warmup start : Nat) (turns : List (Turn n)) (h : Clocked start turns) :
    (∀ k, k ≤ turns.length →
      (init (.new sources reference minSources warmup start)).Exact (turns.take k)) ↔
      ∀ k (hk : k < turns.length),
        ((init (.new sources reference minSources warmup start)).run (turns.take k)).InTime
          turns[k] := by
  have h₀ := Collector.isNew_new sources reference minSources warmup start
  have hstep : ∀ k (hk : k < turns.length),
      (init (.new sources reference minSources warmup start)).Exact (turns.take k) →
      ((init (.new sources reference minSources warmup start)).Exact (turns.take (k + 1)) ↔
        ((init (.new sources reference minSources warmup start)).run (turns.take k)).InTime
          turns[k]) := by
    intro k hk hexact
    rw [List.take_succ_eq_append_getElem hk]
    cases hturn : turns[k] with
    | recv now ev => exact exact_recv_iff h₀ hexact
    | tick now =>
        refine exact_tick_iff (lastSummary_le ?_ fun turn hmem => ?_) hexact
        · have := h.started turns[k] (List.getElem_mem hk)
          rw [hturn] at this
          exact this
        · obtain ⟨i, hi, rfl⟩ := List.mem_take_iff_getElem.mp hmem
          have := List.pairwise_iff_getElem.mp h.sorted i k (by omega) hk (by omega)
          rw [hturn] at this
          exact this
  constructor
  · intro hexact k hk
    exact (hstep k hk (hexact k hk.le)).mp (hexact (k + 1) hk)
  · intro htime k
    induction k with
    | zero => exact fun _ hticked => absurd rfl hticked
    | succ k ih => exact fun hk => (hstep k hk (ih (by omega))).mpr (htime k hk)

def steadyRun : List (Turn 2) :=
  [.recv 1 ⟨Collector.official, 1, .connected ""⟩, .recv 1 ⟨Collector.eira, 1, .connected ""⟩,
    .tick 4,
    .recv 6 ⟨Collector.official, 5, .block "seq:7" (some 7) none none 0⟩,
    .recv 7 ⟨Collector.eira, 6, .block "seq:7" (some 7) none none 0⟩, .tick 10]

theorem rolling_iff_steady :
    (∀ k, k ≤ steadyRun.length →
        (init (.new Collector.twoSources 1 2 0 0)).Exact (steadyRun.take k)) ↔
      ∀ k (hk : k < steadyRun.length),
        ((init (.new Collector.twoSources 1 2 0 0)).run (steadyRun.take k)).InTime steadyRun[k] :=
  rolling_iff Collector.twoSources 1 2 0 0 steadyRun
    ⟨by simp [steadyRun, Turn.now], by simp [steadyRun, Turn.now],
      by simp [steadyRun, Turn.StampedBefore]⟩

/-- The delivery that completes a block is stamped before a tick and taken after it. -/
def lateRun : List (Turn 2) :=
  [.recv 1 ⟨Collector.official, 1, .connected ""⟩, .recv 1 ⟨Collector.eira, 1, .connected ""⟩,
    .recv 5 ⟨Collector.official, 5, .block "seq:7" (some 7) none none 0⟩, .tick 10,
    .recv 11 ⟨Collector.eira, 9, .block "seq:7" (some 7) none none 0⟩, .tick 20]

/-- The whole-run summary counts that block and no rolling summary does. -/
theorem lateRun_not_exact :
    Clocked 0 lateRun ∧ ¬(init (.new Collector.twoSources 1 2 0 0)).Exact lateRun := by
  refine ⟨⟨by simp [lateRun, Turn.now], by simp [lateRun, Turn.now],
    by simp [lateRun, Turn.StampedBefore]⟩, fun h => ?_⟩
  have htotal := (h (by simp [lateRun, run, step, init])).total ""
  rw [blockIntervals_run, ← length_keysCounted] at htotal
  exact absurd htotal (by decide)

end Main

end FeedBench
