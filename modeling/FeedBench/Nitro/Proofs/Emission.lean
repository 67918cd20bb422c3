import FeedBench.Lib.Arrivals
import FeedBench.Nitro.Feed

/-!
# What a turn emits

The events of a turn are those of the messages it received, between what it says about the
connection.  Numbers, keys, hashes and stamps are read off the messages.
-/

namespace FeedBench

def Event.number {n : Nat} (e : Event n) : Option Nat :=
  match e.payload with
  | .block _ seq _ _ _ => seq.map UInt64.toNat
  | _ => none

/-- The sequence numbers delivered as Block events. -/
def Visit.emitted {n : Nat} (v : Visit n) : List Nat := v.events.filterMap Event.number

namespace Nitro

open Ws Inflate Lib

theorem seqKey_inj {k l : Nat} : seqKey k = seqKey l ↔ k = l := by
  constructor
  · intro h
    exact Text.toString_inj.mp ((String.append_right_inj "seq:").mp h)
  · intro h
    rw [h]

/-! ## One block -/

variable {n : Nat} {index : Fin n} {t wireLen : Nat} {b : ParsedBlock} {e : Event n}

theorem mem_blockEvents (he : e ∈ blockEvents index t wireLen b) :
    e.source = index ∧ e.t = t := by
  rcases List.mem_cons.mp he with rfl | he
  · exact ⟨rfl, rfl⟩
  · obtain ⟨tx, _, rfl⟩ := List.mem_map.mp he
    exact ⟨rfl, rfl⟩

theorem filterMap_number_blockEvents :
    (blockEvents index t wireLen b).filterMap Event.number = [b.seq.toNat] := by
  have htxs : (blockEvents index t wireLen b).tail.filterMap Event.number = [] := by
    rw [List.filterMap_eq_nil_iff]
    intro e he
    obtain ⟨tx, _, rfl⟩ := List.mem_map.mp he
    rfl
  change b.seq.toNat :: (blockEvents index t wireLen b).tail.filterMap Event.number = _
  rw [htxs]

theorem any_isBlockFrom_blockEvents (k : Nat) :
    (blockEvents index t wireLen b).any (Event.isBlockFrom (seqKey k) index) =
      (b.seq.toNat == k) := by
  have htxs : (blockEvents index t wireLen b).tail.any
      (Event.isBlockFrom (seqKey k) index) = false := by
    rw [List.any_eq_false]
    intro e he
    obtain ⟨tx, _, rfl⟩ := List.mem_map.mp he
    simp [Event.isBlockFrom]
  change ((seqKey b.seq.toNat == seqKey k && index == index) ||
    (blockEvents index t wireLen b).tail.any _) = _
  rw [htxs, Bool.or_false, beq_self_eq_true, Bool.and_true, Bool.eq_iff_iff, beq_iff_eq,
    beq_iff_eq]
  exact seqKey_inj

theorem any_isTxFrom_blockEvents (hash : Hash) :
    (blockEvents index t wireLen b).any (Event.isTxFrom hash index) =
      b.txs.any fun tx => tx.1 == hash := by
  unfold blockEvents
  rw [List.any_cons, List.any_map]
  have hhead : Event.isTxFrom hash index (⟨index, t, .block (seqKey b.seq.toNat) (some b.seq)
      b.hash (some (UInt32.ofNat b.txs.length)) (UInt64.ofNat wireLen)⟩ : Event n) = false := rfl
  rw [hhead, Bool.false_or]
  congr
  funext tx
  simp [Event.isTxFrom]

/-! ## One message -/

variable {codec : Codec} {args : Args n} {m : Message}

theorem mem_messageEvents (he : e ∈ messageEvents codec args m) :
    e.source = args.index ∧ e.t = args.stamp.of m := by
  obtain ⟨b, _, hb⟩ := List.mem_flatMap.mp he
  exact mem_blockEvents hb

theorem filterMap_number_messageEvents :
    (messageEvents codec args m).filterMap Event.number =
      (blocksOf codec m).map fun b => b.seq.toNat := by
  unfold messageEvents
  rw [List.filterMap_flatMap]
  simp only [filterMap_number_blockEvents]
  rw [List.map_eq_flatMap]

variable (codec args)

def carriesBlock (k : Nat) (m : Message) : Bool := (blocksOf codec m).any fun b => b.seq.toNat == k

def carriesTx (hash : Hash) (m : Message) : Bool :=
  (blocksOf codec m).any fun b => b.txs.any fun tx => tx.1 == hash

/-- What a kind of event says about blocks, said about the messages that carry them. -/
theorem firstOf_messageEvents {p : Event n → Bool} {q : ParsedBlock → Bool}
    (hq : ∀ t wireLen b, (blockEvents args.index t wireLen b).any p = q b) (m : Message) :
    firstOf p Event.t (messageEvents codec args m) =
      firstOf (fun m => (blocksOf codec m).any q) args.stamp.of [m] := by
  rw [firstOf_of_stamp fun e he => (mem_messageEvents he).2,
    firstOf_of_stamp (t := args.stamp.of m) fun m' hm' => by rw [List.mem_singleton.mp hm']]
  unfold messageEvents
  rw [List.any_flatMap]
  simp only [hq, List.any_cons, List.any_nil, Bool.or_false]

/-! ## One turn -/

/-- Everything a turn does: it dials with the cursor, moves the cursor past the blocks it
received, and says nothing but what they and the connection say. -/
structure Emits (l l' : Locals) (v : Visit n) : Prop where
  config : v.config = config args l.nextSeq
  nextSeq : l'.nextSeq = (v.messages.flatMap (blocksOf codec)).foldl
    (fun nextSeq b => advance nextSeq b.seq) l.nextSeq
  events : ∃ before after, v.events =
      before ++ v.messages.flatMap (messageEvents codec args) ++ after ∧
    ∀ e ∈ before ++ after, e.source = args.index ∧ e.link.isSome

theorem visit_emits (Z : Decompress) (l : Locals) (attempt : Attempt) :
    Emits codec args l (visit codec args Z l attempt).1 (visit codec args Z l attempt).2 := by
  unfold visit
  dsimp only
  split
  · exact ⟨rfl, rfl, [], [], rfl, by simp⟩
  · exact ⟨rfl, rfl, [], [], rfl, by simp⟩
  · refine ⟨rfl, rfl, [_], _, rfl, ?_⟩
    intro e he
    rcases List.mem_append.mp he with he | he
    · rw [List.mem_singleton.mp he]
      exact ⟨rfl, rfl⟩
    · obtain ⟨reason, _, rfl⟩ := List.mem_map.mp he
      exact ⟨rfl, rfl⟩

variable {codec args} {l l' : Locals} {v : Visit n}

namespace Emits

theorem firstOf_events (h : Emits codec args l l' v) {p : Event n → Bool}
    (hp : ∀ e : Event n, e.link.isSome → p e = false) {q : ParsedBlock → Bool}
    (hq : ∀ t wireLen b, (blockEvents args.index t wireLen b).any p = q b) :
    firstOf p Event.t v.events =
      firstOf (fun m => (blocksOf codec m).any q) args.stamp.of v.messages := by
  obtain ⟨before, after, hevents, hlinks⟩ := h.events
  have hnone : ∀ es : List (Event n), (∀ e ∈ es, e ∈ before ++ after) →
      firstOf p Event.t es = none := by
    intro es hes
    unfold firstOf
    rw [Option.map_eq_none_iff, List.find?_eq_none]
    intro e he
    rw [hp e (hlinks e (hes e he)).2]
    exact Bool.false_ne_true
  have hbefore : firstOf p Event.t before = none :=
    hnone before fun e he => List.mem_append_left after he
  have hafter : firstOf p Event.t after = none :=
    hnone after fun e he => List.mem_append_right before he
  calc firstOf p Event.t v.events
      = firstOf p Event.t (v.messages.flatMap (messageEvents codec args)) := by
        rw [hevents, firstOf_append, firstOf_append, hbefore, hafter, Option.none_or,
          Option.or_none]
    _ = firstOf (fun m => (blocksOf codec m).any q) args.stamp.of
          (v.messages.flatMap fun m => [m]) := by
        apply firstOf_flatMap
        intro m _
        exact firstOf_messageEvents codec args hq m
    _ = firstOf (fun m => (blocksOf codec m).any q) args.stamp.of v.messages := by
        rw [List.flatMap_singleton']

theorem source (h : Emits codec args l l' v) : ∀ e ∈ v.events, e.source = args.index := by
  obtain ⟨before, after, hevents, hlinks⟩ := h.events
  intro e he
  rw [hevents] at he
  rcases List.mem_append.mp he with he | he
  · rcases List.mem_append.mp he with he | he
    · exact (hlinks e (List.mem_append_left after he)).1
    · obtain ⟨m, _, hm⟩ := List.mem_flatMap.mp he
      exact (mem_messageEvents hm).1
  · exact (hlinks e (List.mem_append_right before he)).1

theorem emitted (h : Emits codec args l l' v) :
    v.emitted = (v.messages.flatMap (blocksOf codec)).map fun b => b.seq.toNat := by
  obtain ⟨before, after, hevents, hlinks⟩ := h.events
  have hnone : ∀ es : List (Event n), (∀ e ∈ es, e ∈ before ++ after) →
      es.filterMap Event.number = [] := by
    intro es hes
    rw [List.filterMap_eq_nil_iff]
    intro e he
    have hlink := (hlinks e (hes e he)).2
    unfold Event.link at hlink
    unfold Event.number
    split <;> simp_all
  have hbefore : before.filterMap Event.number = [] :=
    hnone before fun e he => List.mem_append_left after he
  have hafter : after.filterMap Event.number = [] :=
    hnone after fun e he => List.mem_append_right before he
  calc v.emitted
      = (v.messages.flatMap (messageEvents codec args)).filterMap Event.number := by
        rw [Visit.emitted, hevents, List.filterMap_append, List.filterMap_append, hbefore,
          hafter, List.nil_append, List.append_nil]
    _ = v.messages.flatMap fun m => (blocksOf codec m).map fun b => b.seq.toNat := by
        rw [List.filterMap_flatMap]
        simp only [filterMap_number_messageEvents]
    _ = (v.messages.flatMap (blocksOf codec)).map fun b => b.seq.toNat := by
        rw [List.map_flatMap]

theorem firstOf_block (h : Emits codec args l l' v) (k : Nat) :
    firstOf (Event.isBlockFrom (seqKey k) args.index) Event.t v.events =
      firstOf (carriesBlock codec k) args.stamp.of v.messages := by
  apply h.firstOf_events
  · intro e he
    unfold Event.link at he
    unfold Event.isBlockFrom
    split <;> simp_all
  · intro t wireLen b
    exact any_isBlockFrom_blockEvents k

theorem firstOf_tx (h : Emits codec args l l' v) (hash : Hash) :
    firstOf (Event.isTxFrom hash args.index) Event.t v.events =
      firstOf (carriesTx codec hash) args.stamp.of v.messages := by
  apply h.firstOf_events
  · intro e he
    unfold Event.link at he
    unfold Event.isTxFrom
    split <;> simp_all
  · intro t wireLen b
    exact any_isTxFrom_blockEvents hash

end Emits

theorem mem_run {Z : Decompress} {attempts : List Attempt}
    (hv : v ∈ run codec args Z l attempts) : ∃ l₁ l₂, Emits codec args l₁ l₂ v := by
  induction attempts generalizing l with
  | nil => cases hv
  | cons attempt attempts ih =>
      have hemits := visit_emits codec args Z l attempt
      rw [run] at hv
      generalize visit codec args Z l attempt = turn at hv hemits
      rcases List.mem_cons.mp hv with rfl | hv
      · exact ⟨l, turn.1, hemits⟩
      · cases hsleep : turn.2.sleep with
        | none =>
            rw [hsleep] at hv
            cases hv
        | some d =>
            rw [hsleep] at hv
            exact ih hv

theorem source_run {Z : Decompress} {attempts : List Attempt} :
    ∀ e ∈ (run codec args Z l attempts).flatMap Visit.events, e.source = args.index := by
  intro e he
  obtain ⟨v, hv, hev⟩ := List.mem_flatMap.mp he
  obtain ⟨l₁, l₂, hemits⟩ := mem_run hv
  exact hemits.source e hev

end Nitro

end FeedBench
