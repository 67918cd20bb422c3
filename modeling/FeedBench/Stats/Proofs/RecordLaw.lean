import FeedBench.Stats.Proofs.Records

/-!
# Completion, and the law of a whole run

A block completes at one delivery.  `At c₀ es i` is the collector after the first `i`
events, so the step that completes a key is a number, and "exactly once" is `∃!`.
-/

namespace FeedBench.Stats

open Lib

variable {n : Nat}

namespace Collector

def seenOf (c : Collector n) (key : String) : Nat := (c.blocks.lookup key).elim 0 (·.seen)

/-- Event number `i` is a Block event of `key` and `onEvent` answers it with a block line. -/
def LineAt (c₀ : Collector n) (es : List (Event n)) (key : String) (i : Nat) : Prop :=
  ∃ e, es[i]? = some e ∧ e.blockKey = some key ∧
    ∃ cols, ((c₀.At es i).onEvent e).2 = some (.blockLine cols)

section Indexed

variable {c₀ : Collector n} {es : List (Event n)} {e : Event n} {key : String} {i : Nat}

theorem at_snoc_of_le (hi : i ≤ es.length) : c₀.At (es ++ [e]) i = c₀.At es i := by
  unfold At
  rw [List.take_append_of_le_length hi]

theorem at_snoc_last : c₀.At (es ++ [e]) (es.length + 1) = ((c₀.run es).onEvent e).1 := by
  have h : (es ++ [e]).length = es.length + 1 := by simp
  rw [← h, at_length]
  simp

theorem lineAt_lt (h : c₀.LineAt es key i) : i < es.length := by
  obtain ⟨e, he, -⟩ := h
  exact (List.getElem?_eq_some_iff.mp he).1

theorem lineAt_snoc : c₀.LineAt (es ++ [e]) key i ↔
    c₀.LineAt es key i ∨ (i = es.length ∧ e.blockKey = some key ∧
      ∃ cols, ((c₀.run es).onEvent e).2 = some (.blockLine cols)) := by
  constructor
  · intro h
    have hlt := lineAt_lt h
    obtain ⟨e', he', hkey, hline⟩ := h
    simp only [List.length_append, List.length_singleton] at hlt
    rcases Nat.lt_or_eq_of_le (Nat.le_of_lt_succ hlt) with hi | hi
    · left
      rw [List.getElem?_append_left hi] at he'
      rw [at_snoc_of_le hi.le] at hline
      exact ⟨e', he', hkey, hline⟩
    · right
      subst hi
      rw [at_snoc_of_le le_rfl, at_length] at hline
      simp only [List.getElem?_concat_length, Option.some.injEq] at he'
      subst he'
      exact ⟨rfl, hkey, hline⟩
  · rintro (h | ⟨rfl, hkey, hline⟩)
    · have hi := lineAt_lt h
      obtain ⟨e', he', hkey, hline⟩ := h
      refine ⟨e', by rwa [List.getElem?_append_left hi], hkey, ?_⟩
      rwa [at_snoc_of_le hi.le]
    · refine ⟨e, by simp, hkey, ?_⟩
      rwa [at_snoc_of_le le_rfl, at_length]

end Indexed

/-! ## The step that completes a block -/

/-- Event number `i` brought the key to `minSources`, its record was completed at `d`, the
latest arrival then on record, and this is the one step that printed a line for the key. -/
structure CompletedBy (c₀ : Collector n) (es : List (Event n)) (key : String) (d i : Nat) :
    Prop where
  line : c₀.LineAt es key i
  line_unique : ∀ j, c₀.LineAt es key j → j = i
  seen_before : (c₀.At es i).seenOf key < c₀.minSources
  seen_after : (c₀.At es (i + 1)).seenOf key = c₀.minSources
  latest : ∃ r, (c₀.At es (i + 1)).blocks.lookup key = some r ∧ r.completedAt = some d ∧
    IsGreatest {t | Present r.arrivals t} d

/-- Where a block stands: nothing printed while it is incomplete, one completing step after. -/
def Completion (c₀ : Collector n) (es : List (Event n)) (key : String) (r : BlockRec n) : Prop :=
  (r.completedAt = none → ∀ i, ¬c₀.LineAt es key i) ∧
    ∀ d, r.completedAt = some d → ∃ i, c₀.CompletedBy es key d i

variable {c₀ : Collector n} {es : List (Event n)} {e : Event n} {key : String}

theorem CompletedBy.snoc {d i : Nat} (h : c₀.CompletedBy es key d i)
    (hno : ¬(e.blockKey = some key ∧
      ∃ cols, ((c₀.run es).onEvent e).2 = some (.blockLine cols))) :
    c₀.CompletedBy (es ++ [e]) key d i := by
  have hi := lineAt_lt h.line
  refine ⟨lineAt_snoc.mpr (.inl h.line), ?_, ?_, ?_, ?_⟩
  · intro j hj
    rcases lineAt_snoc.mp hj with hj | ⟨-, hj⟩
    · exact h.line_unique j hj
    · exact absurd hj hno
  · rw [at_snoc_of_le hi.le]
    exact h.seen_before
  · rw [at_snoc_of_le hi]
    exact h.seen_after
  · rw [at_snoc_of_le hi]
    exact h.latest

theorem Completion.snoc {r r' : BlockRec n} (h : c₀.Completion es key r)
    (hr : r'.completedAt = r.completedAt)
    (hno : ¬(e.blockKey = some key ∧
      ∃ cols, ((c₀.run es).onEvent e).2 = some (.blockLine cols))) :
    c₀.Completion (es ++ [e]) key r' := by
  constructor
  · intro hnone i hi
    rcases lineAt_snoc.mp hi with hi | ⟨-, hi⟩
    · exact h.1 (hr ▸ hnone) i hi
    · exact hno hi
  · intro d hd
    obtain ⟨i, hi⟩ := h.2 d (hr ▸ hd)
    exact ⟨i, hi.snoc hno⟩

theorem not_lineAt_of_lookup_none (h : (c₀.run es).blocks.lookup key = none) (i : Nat) :
    ¬c₀.LineAt es key i := by
  induction es using List.reverseRecOn with
  | nil => exact fun hi => absurd (lineAt_lt hi) (by simp)
  | append_singleton es e ih =>
      rw [run_append, run_cons, run_nil, lookup_blocks_onEvent] at h
      intro hi
      rcases lineAt_snoc.mp hi with hi | ⟨-, hkey, -⟩
      · refine ih ?_ hi
        split at h
        · split at h
          · cases h
          · exact h
        · exact h
      · unfold Event.blockKey at hkey
        split at h
        · next hp =>
          rw [hp] at hkey
          cases hkey
          rw [if_pos rfl] at h
          cases h
        · next hp =>
          split at hkey
          · next hp' => exact hp _ _ _ _ _ hp'
          · cases hkey

theorem blockBefore_seen (c : Collector n) (key : String) (s : Fin n) (t : Nat)
    (seq hash txCount) :
    (c.blockBefore key s t seq hash txCount).seen = c.seenOf key := by
  unfold blockBefore seenOf
  cases c.blocks.lookup key <;> rfl

theorem blockBefore_completion (h : ∀ r, (c₀.run es).blocks.lookup key = some r →
      c₀.Completion es key r) (s : Fin n) (t : Nat) (seq hash txCount) :
    c₀.Completion es key ((c₀.run es).blockBefore key s t seq hash txCount) := by
  unfold blockBefore
  cases hl : (c₀.run es).blocks.lookup key with
  | none => exact ⟨fun _ i => not_lineAt_of_lookup_none hl i, fun d hd => by cases hd⟩
  | some r => exact h r hl

/-- The step that brings the count to `minSources` completes the block. -/
theorem completedBy_last {r : BlockRec n} {d : Nat}
    (hno : ∀ j, ¬c₀.LineAt es key j) (hkey : e.blockKey = some key)
    (hline : ∃ cols, ((c₀.run es).onEvent e).2 = some (.blockLine cols))
    (hbefore : (c₀.run es).seenOf key < c₀.minSources)
    (hr : ((c₀.run es).onEvent e).1.blocks.lookup key = some r)
    (hseen : r.seen = c₀.minSources) (hd : r.completedAt = some d)
    (hmax : IsGreatest {t | Present r.arrivals t} d) :
    c₀.CompletedBy (es ++ [e]) key d es.length where
  line := lineAt_snoc.mpr (.inr ⟨rfl, hkey, hline⟩)
  line_unique j hj := by
    rcases lineAt_snoc.mp hj with hj | ⟨hj, -⟩
    · exact absurd hj (hno j)
    · exact hj
  seen_before := by rwa [at_snoc_of_le le_rfl, at_length]
  seen_after := by
    rw [at_snoc_last, seenOf, hr]
    exact hseen
  latest := ⟨r, by rw [at_snoc_last, hr], hd, hmax⟩

/-- A Block event of the key moves its record along with the lines printed. -/
theorem completion_deliver (h₀ : c₀.IsNew) {seq : Option UInt64} {hash : Option String}
    {txCount : Option UInt32} {wireLen : UInt64}
    (hp : e.payload = .block key seq hash txCount wireLen)
    (ih : ∀ r, (c₀.run es).blocks.lookup key = some r → c₀.Completion es key r) :
    c₀.Completion (es ++ [e]) key
      ((c₀.run es).blockAfter key e.source e.t seq hash txCount) := by
  have hkey : e.blockKey = some key := by simp [Event.blockKey, hp]
  have hr : ((c₀.run es).onEvent e).1.blocks.lookup key =
      some ((c₀.run es).blockAfter key e.source e.t seq hash txCount) := by
    rw [lookup_blocks_onEvent, hp]
    exact if_pos rfl
  have hpre := blockBefore_completion ih e.source e.t seq hash txCount
  have htally := (c₀.run es).blockBefore_tally key e.source e.t seq hash txCount
    fun r hr => by rw [run_minSources]; exact blockTally_run h₀ es key r hr
  have hline := (c₀.run es).exists_blockLine_iff e hp
  unfold blockAfter at hr ⊢
  rw [run_minSources] at htally hline hr ⊢
  rcases ((c₀.run es).blockBefore key e.source e.t seq hash txCount).deliver_cases
    c₀.minSources e.source e.t with ⟨-, h⟩ | ⟨-, -, h⟩ | ⟨hs, hmin, h⟩
  · -- a duplicate
    rw [h]
    apply hpre.snoc rfl
    rintro ⟨-, hcols⟩
    rw [hline, h] at hcols
    cases hcols
  · -- one more source, still not enough
    rw [h]
    apply hpre.snoc rfl
    rintro ⟨-, hcols⟩
    rw [hline, h] at hcols
    cases hcols
  · -- the delivery that completes the block
    rw [h] at hr ⊢
    have hseen := (c₀.run es).blockBefore_seen key e.source e.t seq hash txCount
    have hnone : ((c₀.run es).blockBefore key e.source e.t seq hash txCount).completedAt =
        none := by
      rcases htally with ⟨-, -, -, -, hnone⟩ | htally
      · exact hnone
      · rw [← Option.not_isSome_iff_eq_none, htally.completed_iff]
        omega
    have hrec := BlockRec.record_tally (htally.imp id fun h => ⟨h.tally, h.first_src⟩) hs
    have hbefore : (c₀.run es).seenOf key < c₀.minSources := by omega
    constructor
    · intro h
      cases h
    · intro d hd
      cases hd
      refine ⟨es.length, completedBy_last (hpre.1 hnone) hkey ?_ hbefore hr hmin rfl ?_⟩
      · rw [hline, h]
      · exact BlockRec.lastArrival_isGreatest hrec.1 e.t

theorem completion_run (h₀ : c₀.IsNew) (es : List (Event n)) (key : String) (r : BlockRec n)
    (hr : (c₀.run es).blocks.lookup key = some r) : c₀.Completion es key r := by
  induction es using List.reverseRecOn generalizing r with
  | nil => simp [h₀.blocks] at hr
  | append_singleton es e ih =>
      rw [run_append, run_cons, run_nil, lookup_blocks_onEvent] at hr
      split at hr
      · next k seq hash txCount wireLen hp =>
        by_cases hkey : k = key
        · subst hkey
          rw [if_pos rfl] at hr
          cases hr
          exact completion_deliver h₀ hp ih
        · rw [if_neg hkey] at hr
          apply (ih r hr).snoc rfl
          rintro ⟨hk, -⟩
          rw [show e.blockKey = some k by simp [Event.blockKey, hp]] at hk
          exact hkey (Option.some.inj hk)
      · next hp =>
        apply (ih r hr).snoc rfl
        rintro ⟨hk, -⟩
        unfold Event.blockKey at hk
        split at hk
        · next hp' => exact hp _ _ _ _ _ hp'
        · cases hk

/-! ## What later events leave alone -/

theorem lookup_blocks_mono {es' : List (Event n)} {r : BlockRec n} (h₀ : c₀.IsNew)
    (hr : (c₀.run es).blocks.lookup key = some r) :
    ∃ r', (c₀.run (es ++ es')).blocks.lookup key = some r' ∧
      (∀ s : Fin n, ∀ t, r.arrivals.get s = some t → r'.arrivals.get s = some t) ∧
      ∀ d, r.completedAt = some d → r'.completedAt = some d := by
  induction es' using List.reverseRecOn with
  | nil =>
      rw [List.append_nil]
      exact ⟨r, hr, fun _ _ h => h, fun _ h => h⟩
  | append_singleton es' e ih =>
      obtain ⟨r₁, hr₁, harr, hcomp⟩ := ih
      rw [← List.append_assoc, run_append _ (es ++ es'), run_cons, run_nil,
        lookup_blocks_onEvent]
      split
      · next k seq hash txCount wireLen hp =>
        split
        · next hk =>
          subst hk
          refine ⟨_, rfl, ?_, ?_⟩
          · intro s t hs
            have hslot : (c₀.run (es ++ es')).blockSlot k s = some t := by
              rw [blockSlot, hr₁, Option.bind_some, harr s t hs]
            rw [blockAfter, BlockRec.deliver_arrivals, blockBefore_arrivals, hslot]
            split <;> rfl
          · intro d hd
            have htally := blockTally_run h₀ _ k r₁ hr₁
            have hle : c₀.minSources ≤ r₁.seen :=
              htally.completed_iff.mp (by rw [hcomp d hd]; rfl)
            have hbefore : (c₀.run (es ++ es')).blockBefore k e.source e.t seq hash txCount =
                r₁.fill seq hash txCount := by
              rw [blockBefore, hr₁, Option.getD_some]
            rw [blockAfter, hbefore, run_minSources]
            rcases (r₁.fill seq hash txCount).deliver_cases c₀.minSources e.source e.t with
              ⟨-, h⟩ | ⟨-, -, h⟩ | ⟨-, hmin, -⟩
            · rw [h]
              exact hcomp d hd
            · rw [h]
              exact hcomp d hd
            · have : r₁.seen + 1 = c₀.minSources := hmin
              omega
        · exact ⟨r₁, hr₁, harr, hcomp⟩
      · exact ⟨r₁, hr₁, harr, hcomp⟩

/-- A repeated delivery fills in fields the first one left open and does nothing else. -/
theorem onEvent_duplicate {r : BlockRec n} {s : Fin n} (hr : c₀.blocks.lookup key = some r)
    (he : e.isBlockFrom key s = true) (hs : (r.arrivals.get s).isSome) :
    (c₀.onEvent e).2 = none ∧ ∃ seq hash txCount,
      (c₀.onEvent e).1.blocks.lookup key = some (r.fill seq hash txCount) := by
  obtain ⟨s', t, p⟩ := e
  cases p with
  | block k seq hash txCount wireLen =>
      simp only [Event.isBlockFrom, Bool.and_eq_true, beq_iff_eq] at he
      obtain ⟨rfl, rfl⟩ := he
      have hdup : (r.fill seq hash txCount).deliver c₀.minSources s' t =
          (r.fill seq hash txCount, false) := by
        rw [BlockRec.deliver, if_pos (by exact hs)]
      constructor
      · simp [onEvent, onBlock, hr, hdup]
      · refine ⟨seq, hash, txCount, ?_⟩
        have hafter : c₀.blockAfter k s' t seq hash txCount = r.fill seq hash txCount := by
          rw [blockAfter, blockBefore, hr, Option.getD_some, hdup]
        rw [lookup_blocks_onEvent]
        simp [hafter]
  | tx | connected | disconnected => simp [Event.isBlockFrom] at he

/-! ## The law -/

/-- What a block record says about the events that were processed. -/
structure BlockLaw (c₀ : Collector n) (es : List (Event n)) (key : String) (r : BlockRec n) :
    Prop where
  slots : r.arrivals.toList.length = n
  arrival : ∀ s, r.arrivals.get s = firstOf (Event.isBlockFrom key s) Event.t es
  duplicate : ∀ e s, e.isBlockFrom key s = true → (r.arrivals.get s).isSome →
    ((c₀.run es).onEvent e).2 = none ∧ ∃ seq hash txCount,
      (c₀.run (es ++ [e])).blocks.lookup key = some (r.fill seq hash txCount)
  kept : ∀ es', ∃ r', (c₀.run (es ++ es')).blocks.lookup key = some r' ∧
    (∀ s : Fin n, ∀ t, r.arrivals.get s = some t → r'.arrivals.get s = some t) ∧
    ∀ d, r.completedAt = some d → r'.completedAt = some d
  tally : Tally r.arrivals r.seen r.first
  first_src : r.arrivals.get r.firstSrc = some r.first
  completed_iff : r.completedAt.isSome ↔ c₀.minSources ≤ r.seen
  completed_by : ∀ d, r.completedAt = some d → ∃ i, c₀.CompletedBy es key d i
  first_le_completed : ∀ d, r.completedAt = some d → r.first ≤ d
  incomplete : r.completedAt = none → ∀ i, ¬c₀.LineAt es key i

/-- What a transaction record says about the events that were processed. -/
structure TxLaw (c₀ : Collector n) (es : List (Event n)) (hash : Hash) (r : TxRec n) :
    Prop where
  slots : r.arrivals.toList.length = n
  arrival : ∀ s, r.arrivals.get s = firstOf (Event.isTxFrom hash s) Event.t es
  kept : ∀ es', ∃ r', (c₀.run (es ++ es')).txs.lookup hash = some r' ∧
    ∀ s : Fin n, ∀ t, r.arrivals.get s = some t → r'.arrivals.get s = some t
  tally : Tally r.arrivals r.seen r.first

theorem blockLaw_run (h₀ : c₀.IsNew) {r : BlockRec n}
    (hr : (c₀.run es).blocks.lookup key = some r) : c₀.BlockLaw es key r where
  slots := by simp
  arrival s := by
    rw [← blockSlot_run h₀ es key s, blockSlot, hr, Option.bind_some]
  duplicate e s he hs := by
    rw [run_append, run_cons, run_nil]
    exact onEvent_duplicate hr he hs
  kept es' := lookup_blocks_mono h₀ hr
  tally := (blockTally_run h₀ es key r hr).tally
  first_src := (blockTally_run h₀ es key r hr).first_src
  completed_iff := (blockTally_run h₀ es key r hr).completed_iff
  completed_by := (completion_run h₀ es key r hr).2
  first_le_completed := (blockTally_run h₀ es key r hr).first_le_completed
  incomplete := (completion_run h₀ es key r hr).1

theorem txSlot_lookup {c : Collector n} {hash : Hash} {s : Fin n} {t : Nat}
    (h : c.txSlot hash s = some t) :
    ∃ r, c.txs.lookup hash = some r ∧ r.arrivals.get s = some t := by
  unfold txSlot at h
  exact Option.bind_eq_some_iff.mp h

theorem txLaw_run (h₀ : c₀.IsNew) {hash : Hash} {r : TxRec n}
    (hr : (c₀.run es).txs.lookup hash = some r) : c₀.TxLaw es hash r where
  slots := by simp
  arrival s := by
    rw [← txSlot_run h₀ es hash s, txSlot, hr, Option.bind_some]
  kept es' := by
    have hslot : ∀ s : Fin n, ∀ t, r.arrivals.get s = some t →
        (c₀.run (es ++ es')).txSlot hash s = some t := by
      intro s t hs
      have hes : (c₀.run es).txSlot hash s = some t := by
        rw [txSlot, hr, Option.bind_some, hs]
      rw [txSlot_run h₀] at hes ⊢
      rw [firstOf_append, hes]
      rfl
    obtain ⟨s, hs⟩ := (txTally_run h₀ es hash r hr).first_present
    obtain ⟨r', hr', -⟩ := txSlot_lookup (hslot s _ hs)
    refine ⟨r', hr', fun s t hs => ?_⟩
    have := hslot s t hs
    rwa [txSlot, hr', Option.bind_some] at this
  tally := txTally_run h₀ es hash r hr

/-- **The records.** After any sequence of events, in any order and with any stamps, every
record of a new collector obeys its law, and a line was printed only for completed keys. -/
theorem records_law (sources : Vector SourceInfo n) (reference : Fin n) (minSources : Nat)
    (warmup start : Nat) (es : List (Event n)) :
    let c₀ := new sources reference minSources warmup start
    (∀ key r, (c₀.run es).blocks.lookup key = some r → c₀.BlockLaw es key r) ∧
      (∀ key i, c₀.LineAt es key i →
        ∃ r, (c₀.run es).blocks.lookup key = some r ∧ r.completedAt.isSome) ∧
      ∀ hash r, (c₀.run es).txs.lookup hash = some r → c₀.TxLaw es hash r := by
  intro c₀
  have h₀ : c₀.IsNew := isNew_new sources reference minSources warmup start
  refine ⟨fun key r hr => blockLaw_run h₀ hr, fun key i hi => ?_, fun hash r hr => txLaw_run h₀ hr⟩
  cases hr : (c₀.run es).blocks.lookup key with
  | none => exact absurd hi (not_lineAt_of_lookup_none hr i)
  | some r =>
      refine ⟨r, rfl, ?_⟩
      cases hd : r.completedAt with
      | none => exact absurd hi ((completion_run h₀ es key r hr).1 hd i)
      | some d => rfl

end Collector

end FeedBench.Stats
