import Mathlib.Data.List.Basic

/-!
# Fields of a line

A field is a text with one blank at most between its words and none around them.  Two blanks or
more part the fields of a line, so that a line gives its fields back whatever the gaps between
them are.  Columns of fixed widths are cut out of a line by their offsets.
-/

namespace FeedBench.Lib.Columns

variable {α : Type*}

/-! ## Fields -/

section Fields

variable [DecidableEq α] (b : α)

/-- The pieces of a line between two blanks or more. -/
def fields (line : List α) : List (List α) :=
  (((line.splitOn b).splitOn []).filter (· ≠ [])).map fun words => [b].intercalate words

/-- No blank at either end, no two blanks in a row, and not empty. -/
def IsField (c : List α) : Prop := [] ∉ c.splitOn b

instance (c : List α) : Decidable (IsField b c) := inferInstanceAs (Decidable (¬_))

variable {b} {c d : List α}

@[simp] theorem fields_nil : fields b ([] : List α) = [] := rfl

@[simp] theorem fields_cons (s : List α) : fields b (b :: s) = fields b s := by
  have hsplit : (b :: s).splitOn b = [] :: s.splitOn b := List.splitOn_append_cons_self [] s
  have hblank : ([] :: s.splitOn b).splitOn [] = [] :: (s.splitOn b).splitOn [] :=
    List.splitOn_append_cons_self [] (s.splitOn b)
  rw [fields, hsplit, hblank, List.filter_cons_of_neg (by simp)]
  rfl

@[simp] theorem fields_replicate_append (k : Nat) (s : List α) :
    fields b (List.replicate k b ++ s) = fields b s := by
  induction k with
  | zero => rfl
  | succ k ih => rw [List.replicate_succ, List.cons_append, fields_cons, ih]

theorem IsField.ne_nil (h : IsField b c) : c ≠ [] := by
  rintro rfl
  exact h (List.mem_singleton_self [])

/-- Two blanks end a field. -/
theorem fields_append (h : IsField b c) (s : List α) :
    fields b (c ++ b :: b :: s) = c :: fields b s := by
  have hwords : (c ++ b :: b :: s).splitOn b = c.splitOn b ++ [] :: s.splitOn b := by
    rw [List.splitOn_append_cons_self c (b :: s)]
    exact congrArg (c.splitOn b ++ ·) (List.splitOn_append_cons_self [] s)
  have hfields : (c.splitOn b ++ [] :: s.splitOn b).splitOn [] =
      c.splitOn b :: (s.splitOn b).splitOn [] :=
    List.splitOn_append_cons_self_of_not_mem h (s.splitOn b)
  rw [fields, hwords, hfields, List.filter_cons_of_pos (by simp), List.map_cons,
    List.intercalate_splitOn]
  rfl

theorem fields_append_replicate (h : IsField b c) (k : Nat) :
    fields b (c ++ List.replicate k b) = [c] := by
  match k with
  | 0 =>
      rw [List.replicate_zero, List.append_nil, fields, List.splitOn_eq_singleton h,
        List.filter_cons_of_pos (by simp), List.map_cons, List.intercalate_splitOn]
      rfl
  | 1 =>
      have hwords : (c ++ [b]).splitOn b = c.splitOn b ++ [[]] :=
        List.splitOn_append_cons_self c []
      have hfields : (c.splitOn b ++ [[]]).splitOn [] = [c.splitOn b, []] :=
        List.splitOn_append_cons_self_of_not_mem h []
      rw [List.replicate_one, fields, hwords, hfields,
        List.filter_cons_of_pos (by simp), List.map_cons, List.intercalate_splitOn]
      rfl
  | k + 2 =>
      have hblanks : fields b (List.replicate k b) = [] := by
        rw [← List.append_nil (List.replicate k b), fields_replicate_append, fields_nil]
      rw [List.replicate_succ, List.replicate_succ, fields_append h, hblanks]

theorem fields_self (h : IsField b c) : fields b c = [c] := by
  have := fields_append_replicate h 0
  rwa [List.replicate_zero, List.append_nil] at this

theorem IsField.append (hc : IsField b c) (hd : IsField b d) : IsField b (c ++ b :: d) := by
  rw [IsField, List.splitOn_append_cons_self, List.mem_append, not_or]
  exact ⟨hc, hd⟩

theorem isField_of_not_mem (hne : c ≠ []) (h : b ∉ c) : IsField b c := by
  rw [IsField, List.splitOn_eq_singleton h, List.mem_singleton]
  exact fun heq => hne heq.symm

end Fields

end FeedBench.Lib.Columns
