import FeedBench.Event
import FeedBench.Lib.Arrivals

/-!
# Deliveries

What a source delivers, whatever its format: block keys and transactions that become visible at
one instant.  The events an adapter sends convey its deliveries when each delivery has its group
of events, in order, with nothing but news of the connection in between.  A block key that was
delivered before may be left out.
-/

namespace FeedBench

open Lib

/-- What one message, or one update, brought. -/
structure Delivery where
  t : Nat
  blocks : List String
  /-- Hashes and raw lengths. -/
  txs : List (Hash × UInt32)

namespace Delivery

def carriesBlock (key : String) (d : Delivery) : Bool := d.blocks.any (· == key)

def carriesTx (hash : Hash) (d : Delivery) : Bool := d.txs.any fun tx => tx.1 == hash

end Delivery

variable {n : Nat}

namespace Event

def tx (e : Event n) : Option (Hash × UInt32) :=
  match e.payload with
  | .tx hash _ _ _ rawLen => some (hash, rawLen)
  | _ => none

theorem isBlockFrom_eq (key : String) (i : Fin n) (e : Event n) :
    e.isBlockFrom key i = (e.blockKey == some key && e.source == i) := by
  obtain ⟨s, t, p⟩ := e
  cases p <;> rfl

theorem isTxFrom_eq (hash : Hash) (i : Fin n) (e : Event n) :
    e.isTxFrom hash i = (e.tx.any (fun tx => tx.1 == hash) && e.source == i) := by
  obtain ⟨s, t, p⟩ := e
  cases p <;> rfl

theorem of_link {e : Event n} (h : e.link.isSome) : e.blockKey = none ∧ e.tx = none := by
  obtain ⟨s, t, p⟩ := e
  cases p with
  | block | tx => cases h
  | connected | disconnected => exact ⟨rfl, rfl⟩

end Event

/-! ## Groups -/

/-- The events of one delivery of source `i`, after the deliveries `before`. -/
structure Group (i : Fin n) (before : List Delivery) (d : Delivery) (group : List (Event n)) :
    Prop where
  source : ∀ e ∈ group, e.source = i
  stamp : ∀ e ∈ group, e.t = d.t
  blocks_sound : ∀ e ∈ group, ∀ key, e.blockKey = some key → key ∈ d.blocks
  blocks_complete : ∀ key ∈ d.blocks,
    (∃ e ∈ group, e.blockKey = some key) ∨ ∃ d' ∈ before, key ∈ d'.blocks
  txs : group.filterMap Event.tx = d.txs

/-- `es` is what source `i` sends for the deliveries `ds`. -/
inductive Conveys (i : Fin n) : List Delivery → List (Event n) → Prop where
  | nil : Conveys i [] []
  | link {ds es} {e : Event n} (h : Conveys i ds es) (hsource : e.source = i)
      (hlink : e.link.isSome) : Conveys i ds (es ++ [e])
  | deliver {ds es d group} (h : Conveys i ds es) (hgroup : Group i ds d group) :
      Conveys i (ds ++ [d]) (es ++ group)

variable {i : Fin n} {before before' ds ds' : List Delivery} {d : Delivery}
  {group es es' : List (Event n)}

theorem Group.mono (h : Group i before d group) (hsub : before ⊆ before') :
    Group i before' d group where
  source := h.source
  stamp := h.stamp
  blocks_sound := h.blocks_sound
  blocks_complete key hkey := by
    rcases h.blocks_complete key hkey with hin | ⟨d', hd', hk⟩
    · exact .inl hin
    · exact .inr ⟨d', hsub hd', hk⟩
  txs := h.txs

namespace Conveys

theorem links (h : Conveys i ds es) (hes' : ∀ e ∈ es', e.source = i ∧ e.link.isSome) :
    Conveys i ds (es ++ es') := by
  induction es' generalizing es with
  | nil =>
      rw [List.append_nil]
      exact h
  | cons e es' ih =>
      have he := hes' e List.mem_cons_self
      rw [List.append_cons]
      exact ih (h.link he.1 he.2) fun e' he' => hes' e' (List.mem_cons_of_mem e he')

theorem append (h : Conveys i ds es) (h' : Conveys i ds' es') :
    Conveys i (ds ++ ds') (es ++ es') := by
  induction h' with
  | nil =>
      rw [List.append_nil, List.append_nil]
      exact h
  | link _ hsource hlink ih =>
      rw [← List.append_assoc]
      exact ih.link hsource hlink
  | deliver _ hgroup ih =>
      rw [← List.append_assoc, ← List.append_assoc]
      exact ih.deliver (hgroup.mono (List.subset_append_right _ _))

theorem source (h : Conveys i ds es) : ∀ e ∈ es, e.source = i := by
  induction h with
  | nil => simp
  | link _ hsource _ ih =>
      intro e he
      rcases List.mem_append.mp he with he | he
      · exact ih e he
      · rw [List.mem_singleton.mp he]
        exact hsource
  | deliver _ hgroup ih =>
      intro e he
      rcases List.mem_append.mp he with he | he
      · exact ih e he
      · exact hgroup.source e he

/-! ## What the collector makes of them -/

/-- The first Block event of a key bears the stamp of the first delivery of the block. -/
theorem firstOf_block (h : Conveys i ds es) (key : String) :
    firstOf (Event.isBlockFrom key i) Event.t es =
      firstOf (Delivery.carriesBlock key) Delivery.t ds := by
  induction h with
  | nil => rfl
  | @link ds es e _ _ hlink ih =>
      rw [← ih]
      apply firstOf_snoc_of_neg
      rw [Event.isBlockFrom_eq, (Event.of_link hlink).1]
      rfl
  | @deliver ds es d group _ hgroup ih =>
      rw [firstOf_append, firstOf_append, ih]
      by_cases hseen : (firstOf (Delivery.carriesBlock key) Delivery.t ds).isSome
      · obtain ⟨t, ht⟩ := Option.isSome_iff_exists.mp hseen
        rw [ht]
        rfl
      · rw [Bool.not_eq_true, Option.isSome_eq_false_iff, Option.isNone_iff_eq_none] at hseen
        rw [hseen, Option.none_or, Option.none_or, firstOf_of_stamp hgroup.stamp,
          firstOf_singleton]
        have hany : group.any (Event.isBlockFrom key i) = d.carriesBlock key := by
          rw [Bool.eq_iff_iff]
          simp only [List.any_eq_true, Event.isBlockFrom_eq, Bool.and_eq_true, beq_iff_eq,
            Delivery.carriesBlock, exists_eq_right]
          constructor
          · rintro ⟨e, he, hkey, -⟩
            exact hgroup.blocks_sound e he key hkey
          · intro hkey
            rcases hgroup.blocks_complete key hkey with ⟨e, he, hk⟩ | ⟨d', hd', hk⟩
            · exact ⟨e, he, hk, hgroup.source e he⟩
            · -- a key left out was delivered before
              have hsome : (firstOf (Delivery.carriesBlock key) Delivery.t ds).isSome := by
                rw [firstOf_isSome]
                exact ⟨d', hd', by simpa [Delivery.carriesBlock] using hk⟩
              rw [hseen] at hsome
              cases hsome
        rw [hany]

theorem firstOf_tx (h : Conveys i ds es) (hash : Hash) :
    firstOf (Event.isTxFrom hash i) Event.t es =
      firstOf (Delivery.carriesTx hash) Delivery.t ds := by
  induction h with
  | nil => rfl
  | @link ds es e _ _ hlink ih =>
      rw [← ih]
      apply firstOf_snoc_of_neg
      rw [Event.isTxFrom_eq, (Event.of_link hlink).2]
      rfl
  | @deliver ds es d group _ hgroup ih =>
      rw [firstOf_append, firstOf_append, ih, firstOf_of_stamp hgroup.stamp, firstOf_singleton]
      have hany : group.any (Event.isTxFrom hash i) = d.carriesTx hash := by
        rw [Delivery.carriesTx, ← hgroup.txs, List.any_filterMap, Bool.eq_iff_iff,
          List.any_eq_true, List.any_eq_true]
        apply exists_congr
        intro e
        apply and_congr_right
        intro he
        rw [Event.isTxFrom_eq, hgroup.source e he, beq_self_eq_true, Bool.and_true]
        cases e.tx <;> rfl
      rw [hany]

theorem filterMap_tx (h : Conveys i ds es) : es.filterMap Event.tx = ds.flatMap Delivery.txs := by
  induction h with
  | nil => rfl
  | link _ _ hlink ih =>
      rw [List.filterMap_append, ih]
      simp [(Event.of_link hlink).2]
  | deliver _ hgroup ih =>
      rw [List.filterMap_append, ih, hgroup.txs, List.flatMap_append, List.flatMap_singleton]

end Conveys

end FeedBench
