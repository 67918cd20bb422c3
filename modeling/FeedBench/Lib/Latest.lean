import Mathlib.Data.List.Basic

/-!
# The last write

What a cell holds after a list of steps of which some write to it.
-/

namespace FeedBench.Lib

variable {α β : Type*} (write : α → Option β)

def latest (b : β) (as : List α) : β := as.foldl (fun b a => (write a).getD b) b

@[simp] theorem latest_nil (b : β) : latest write b [] = b := rfl

theorem latest_cons (b : β) (a : α) (as : List α) :
    latest write b (a :: as) = latest write ((write a).getD b) as := rfl

theorem latest_append (b : β) (as bs : List α) :
    latest write b (as ++ bs) = latest write (latest write b as) bs :=
  List.foldl_append

theorem latest_singleton (b : β) (a : α) : latest write b [a] = (write a).getD b := rfl

theorem latest_eq_getLast (b : β) (as : List α) :
    latest write b as = (as.filterMap write).getLast?.getD b := by
  induction as generalizing b with
  | nil => rfl
  | cons a as ih =>
      rw [latest_cons, ih]
      cases hw : write a with
      | none => rw [List.filterMap_cons_none hw, Option.getD_none]
      | some v =>
          rw [List.filterMap_cons_some hw, Option.getD_some, List.getLast?_cons, Option.getD_some]

end FeedBench.Lib
