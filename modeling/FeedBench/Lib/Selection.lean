import Mathlib.Data.List.Basic

/-!
# Selections

A relation says which items are selected and for what.  A function that finds every selected
item, and perhaps others, computes the selection just when it finds no others
(`perm_filterMap_iff`).
-/

namespace FeedBench.Lib

variable {α β : Type*}

/-- The results of the items that have one, in order. -/
inductive Selection (R : α → β → Prop) : List α → List β → Prop
  | nil : Selection R [] []
  | take {a b as bs} (h : R a b) (tail : Selection R as bs) : Selection R (a :: as) (b :: bs)
  | skip {a as bs} (h : ∀ b, ¬R a b) (tail : Selection R as bs) : Selection R (a :: as) bs

namespace Selection

variable {R : α → β → Prop} {f : α → Option β} {as : List α} {bs : List β}

theorem sublist (hR : ∀ a b, R a b → f a = some b) (h : Selection R as bs) :
    bs.Sublist (as.filterMap f) := by
  induction h with
  | nil => exact List.Sublist.slnil
  | take h _ ih =>
      rw [List.filterMap_cons_some (hR _ _ h)]
      exact ih.cons_cons _
  | @skip a as bs _ _ ih =>
      cases hf : f a with
      | none => rwa [List.filterMap_cons_none hf]
      | some b =>
          rw [List.filterMap_cons_some hf]
          exact ih.cons b

theorem found_selected (hR : ∀ a b, R a b → f a = some b) (h : Selection R as bs)
    (hlen : (as.filterMap f).length ≤ bs.length) : ∀ a ∈ as, ∀ b, f a = some b → R a b := by
  induction h with
  | nil =>
      intro a ha
      cases ha
  | @take a b as bs h _ ih =>
      rw [List.filterMap_cons_some (hR a b h), List.length_cons, List.length_cons] at hlen
      refine List.forall_mem_cons.mpr ⟨fun b' hb' => ?_, ih (by omega)⟩
      rw [hR a b h, Option.some.injEq] at hb'
      exact hb' ▸ h
  | @skip a as bs h tail ih =>
      have hle := (tail.sublist hR).length_le
      cases hf : f a with
      | none =>
          rw [List.filterMap_cons_none hf] at hlen
          refine List.forall_mem_cons.mpr ⟨fun b hb => ?_, ih hlen⟩
          rw [hf] at hb
          cases hb
      | some b =>
          rw [List.filterMap_cons_some hf, List.length_cons] at hlen
          omega

theorem of_found (hR : ∀ a b, R a b → f a = some b) (h : ∀ a ∈ as, ∀ b, f a = some b → R a b) :
    Selection R as (as.filterMap f) := by
  induction as with
  | nil => exact .nil
  | cons a as ih =>
      obtain ⟨ha, has⟩ := List.forall_mem_cons.mp h
      cases hf : f a with
      | none =>
          rw [List.filterMap_cons_none hf]
          refine .skip (fun b hb => ?_) (ih has)
          rw [hR a b hb] at hf
          cases hf
      | some b =>
          rw [List.filterMap_cons_some hf]
          exact .take (ha b hf) (ih has)

/-- A function that finds every selected item finds just those, up to order, when each item it
finds is selected. -/
theorem perm_filterMap_iff (hR : ∀ a b, R a b → f a = some b) :
    (∃ bs, Selection R as bs ∧ (as.filterMap f).Perm bs) ↔
      ∀ a ∈ as, ∀ b, f a = some b → R a b := by
  constructor
  · rintro ⟨bs, h, hperm⟩
    exact h.found_selected hR (Nat.le_of_eq hperm.length_eq)
  · intro h
    exact ⟨_, of_found hR h, List.Perm.refl _⟩

end Selection

end FeedBench.Lib
