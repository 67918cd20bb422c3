import Mathlib.Data.List.Basic

/-!
# Fanning out

A stage turns a list of values into a list of values, or gives up.  When whether it gives up
does not depend on the values and each value is worked on by itself, stages in a row act on a
list as they act on its values one at a time.

* `Pointwise.bind`: stages in a row;
* `Pointwise.getD_bind`: the results of two stages are those of the second on each result of
  the first.
-/

namespace FeedBench.Lib

variable {α : Type*}

/-- The stage gives up on every list, or works on each value by itself. -/
inductive Pointwise (g : List α → Option (List α)) : Prop
  | never (h : ∀ xs, g xs = none)
  | each (f : α → List α) (h : ∀ xs, g xs = some (xs.flatMap f))

namespace Pointwise

variable {g k : List α → Option (List α)}

theorem flatMap (f : α → List α) : Pointwise fun xs => some (xs.flatMap f) :=
  each f fun _ => rfl

theorem id : Pointwise (some : List α → Option (List α)) :=
  each (fun x => [x]) fun xs => by rw [List.flatMap_singleton']

theorem filterMap (f : α → Option α) : Pointwise fun xs => some (xs.filterMap f) := by
  refine each (fun x => (f x).toList) fun xs => congrArg some ?_
  rw [List.filterMap_eq_flatMap_toList]

theorem none : Pointwise fun _ : List α => Option.none :=
  never fun _ => rfl

theorem bind (hg : Pointwise g) (hk : Pointwise k) : Pointwise fun xs => (g xs).bind k := by
  cases hg with
  | never hg => exact never fun xs => by rw [hg, Option.bind_none]
  | each f hg =>
      cases hk with
      | never hk => exact never fun xs => by rw [hg, Option.bind_some, hk]
      | each f' hk =>
          refine each (fun x => (f x).flatMap f') fun xs => ?_
          rw [hg, Option.bind_some, hk, List.flatMap_assoc]

/-- A pointwise stage acts on a list as on its values one at a time. -/
theorem getD_eq (hk : Pointwise k) (xs : List α) :
    (k xs).getD [] = xs.flatMap fun x => (k [x]).getD [] := by
  cases hk with
  | never hk => simp [hk]
  | each f hk => simp only [hk, Option.getD_some, List.flatMap_singleton]

theorem getD_bind (hk : Pointwise k) (xs : Option (List α)) :
    (xs.bind k).getD [] = (xs.getD []).flatMap fun x => (k [x]).getD [] := by
  cases xs with
  | none => rfl
  | some xs => exact hk.getD_eq xs

end Pointwise

end FeedBench.Lib
