import FeedBench.Report.Table
import FeedBench.Text.Pieces
import Mathlib.Algebra.BigOperators.Group.List.Basic
import Mathlib.Algebra.GroupWithZero.Nat
import Mathlib.Data.List.GetD
import Mathlib.Order.Bounds.Basic

/-!
# Alignment

Every cell of a rendered table stands in the column of its heading.  The columns are as wide as
their widest cells and two blanks apart, so the offset of a column is the same in every line.
-/

namespace FeedBench.Report.Table

open Text

variable (t : Table) (cells : List (List Char))

/-! ## Widths -/

theorem getD_widen {width : List Nat} {j : Nat} (h : j < width.length) :
    (widen width cells).getD j 0 = max (width.getD j 0) (cells.getD j []).length := by
  rw [widen, List.getD_eq_getElem _ _ (by simpa using h), List.getElem_mapIdx,
    List.getD_eq_getElem _ _ h]

@[simp] theorem length_widen (width : List Nat) : (widen width cells).length = width.length :=
  List.length_mapIdx

theorem length_foldl_widen (rows : List (List (List Char))) (width : List Nat) :
    (rows.foldl widen width).length = width.length := by
  induction rows generalizing width with
  | nil => rfl
  | cons cells rows ih => rw [List.foldl_cons, ih, length_widen]

theorem getD_foldl_widen (rows : List (List (List Char))) {width : List Nat} {j : Nat}
    (h : j < width.length) :
    (rows.foldl widen width).getD j 0 =
      (rows.map fun cells => (cells.getD j []).length).foldl max (width.getD j 0) := by
  induction rows generalizing width with
  | nil => rfl
  | cons cells rows ih =>
      rw [List.foldl_cons, ih (by rwa [length_widen]), getD_widen cells h]
      rfl

@[simp] theorem length_width : t.width.length = t.headers.length := by
  rw [width, length_foldl_widen, length_widen, List.length_replicate]

/-- The widest cell of a column, its heading among them, is as wide as the column. -/
theorem isGreatest_width {j : Nat} (h : j < t.headers.length) :
    IsGreatest {w | ∃ cells ∈ t.headers :: t.rows, (cells.getD j []).length = w}
      (t.width.getD j 0) := by
  have hfirst : (widen (List.replicate t.headers.length 0) t.headers).getD j 0 =
      (t.headers.getD j []).length := by
    rw [getD_widen _ (by simpa using h), List.getD_replicate _ h]
    exact Nat.zero_max _
  have hmax : ((t.headers :: t.rows).map fun cells => (cells.getD j []).length).max? =
      some (t.width.getD j 0) := by
    rw [List.map_cons, List.max?_cons', width, getD_foldl_widen _ (by simpa using h), hfirst]
  obtain ⟨hmem, hle⟩ := List.max?_eq_some_iff.mp hmax
  refine ⟨List.mem_map.mp hmem, ?_⟩
  rintro w ⟨cells, hcells, rfl⟩
  exact hle _ (List.mem_map.mpr ⟨cells, hcells, rfl⟩)

theorem length_cell_le {cells : List (List Char)} (hcells : cells ∈ t.headers :: t.rows) {j : Nat}
    (h : j < t.headers.length) : (cells.getD j []).length ≤ t.width.getD j 0 :=
  (t.isGreatest_width h).2 ⟨cells, hcells, rfl⟩

/-! ## Columns -/

def padded (j w : Nat) (c : List Char) : List Char := if j = 0 then padEnd w c else padStart w c

theorem length_padded {j w : Nat} {c : List Char} (h : c.length ≤ w) :
    (padded j w c).length = w := by
  unfold padded padEnd padStart
  split
  all_goals
    simp only [List.length_append, List.length_replicate]
    omega

def offset (j : Nat) : Nat := (t.width.take j).sum + 2 * j

theorem length_columns : (t.columns cells).length = t.headers.length := by
  rw [columns, List.length_mapIdx, length_width]

theorem getElem_columns {j : Nat} (h : j < (t.columns cells).length) :
    (t.columns cells)[j] = column j (t.width.getD j 0) (cells.getD j []) := by
  have hj : j < t.width.length := by rwa [columns, List.length_mapIdx] at h
  rw [List.getD_eq_getElem _ _ hj]
  exact List.getElem_mapIdx

theorem column_succ (j w : Nat) (c : List Char) :
    column (j + 1) w c = ' ' :: ' ' :: padded (j + 1) w c := rfl

variable {t cells}

theorem length_take_columns (hcells : cells ∈ t.headers :: t.rows) {j : Nat}
    (h : j < t.headers.length) :
    ((t.columns cells).take (j + 1)).flatten.length + 2 = t.offset (j + 1) := by
  have hcolumns : j < (t.columns cells).length := by rwa [length_columns]
  have hwidth : j < t.width.length := by rwa [length_width]
  have hlen := length_padded (j := j) (t.length_cell_le hcells h)
  rw [← List.take_append_getElem hcolumns, List.flatten_append, List.length_append, offset,
    List.sum_take_succ _ _ hwidth, getElem_columns, ← List.getD_eq_getElem _ 0 hwidth]
  cases j with
  | zero =>
      have hzero : (column 0 (t.width.getD 0 0) (cells.getD 0 [])).length = t.width.getD 0 0 :=
        hlen
      simpa using hzero
  | succ j =>
      have ih := length_take_columns hcells (Nat.lt_of_succ_lt h)
      rw [offset] at ih
      simp only [List.flatten_singleton, column_succ, List.length_cons, hlen]
      omega

theorem exists_flatten_columns (hcells : cells ∈ t.headers :: t.rows) {j : Nat}
    (h : j < t.headers.length) :
    ∃ before after, (t.columns cells).flatten =
        before ++ padded j (t.width.getD j 0) (cells.getD j []) ++ after ∧
      before.length = t.offset j := by
  have hcolumns : j < (t.columns cells).length := by rwa [length_columns]
  have hsplit := congrArg List.flatten (List.take_append_drop j (t.columns cells))
  rw [List.drop_eq_getElem_cons hcolumns, getElem_columns, List.flatten_append,
    List.flatten_cons] at hsplit
  cases j with
  | zero => exact ⟨[], ((t.columns cells).drop 1).flatten, hsplit.symm, rfl⟩
  | succ j =>
      refine ⟨((t.columns cells).take (j + 1)).flatten ++ [' ', ' '],
        ((t.columns cells).drop (j + 2)).flatten, ?_, ?_⟩
      · rw [← hsplit, column_succ]
        simp
      · rw [List.length_append]
        exact length_take_columns hcells (Nat.lt_of_succ_lt h)

theorem length_flatten_columns (hcells : cells ∈ t.headers :: t.rows) :
    (t.columns cells).flatten.length = t.rule.length := by
  have hpos : 0 < t.headers.length := List.length_pos_iff.mpr t.headers_ne_nil
  have hlast := length_take_columns hcells (Nat.sub_one_lt_of_lt hpos)
  rw [Nat.sub_add_cancel hpos, ← length_columns t cells, List.take_length, length_columns, offset,
    ← length_width, List.take_length, length_width] at hlast
  rw [rule, List.length_replicate]
  omega

/-! ## Lines -/

variable (t) in
/-- How the cells of a line stand in it. -/
structure IsAligned (cells : List (List Char)) (line : List Char) : Prop where
  /-- No line is longer than the rule. -/
  length_le : line.length ≤ t.rule.length
  /-- No line ends in whitespace. -/
  trimmed : trimEnd line = line
  /-- Each cell is read between the edges of its column. -/
  cut : ∀ j < t.headers.length,
    trim ((line.drop (t.offset j)).take (t.width.getD j 0)) = trim (cells.getD j [])
  /-- The first cell begins the line. -/
  left : trimEnd (cells.getD 0 []) = cells.getD 0 [] → cells.getD 0 [] <+: line
  /-- The other cells end at the right edge of their column. -/
  right : ∀ j < t.headers.length, 0 < j → trimEnd (cells.getD j []) = cells.getD j [] →
    cells.getD j [] <:+ line.take (t.offset j + t.width.getD j 0)

theorem trim_padded (j w : Nat) (c : List Char) : trim (padded j w c) = trim c := by
  have hblanks : ∀ x ∈ List.replicate (w - c.length) ' ', isWhitespace x = true := by
    intro x hx
    rw [List.eq_of_mem_replicate hx]
    rfl
  unfold padded
  split
  · exact trim_append_of_whitespace hblanks
  · exact trim_whitespace_append hblanks

/-- Trimming the line takes blanks off its last cells only. -/
theorem cut_line (hcells : cells ∈ t.headers :: t.rows) {j : Nat} (h : j < t.headers.length) :
    trim (((t.line cells).drop (t.offset j)).take (t.width.getD j 0)) =
      trim (cells.getD j []) := by
  obtain ⟨before, after, hflatten, hbefore⟩ := exists_flatten_columns hcells h
  obtain ⟨w, happend, hw⟩ := trimEnd_append_trimmed (t.columns cells).flatten
  have hlen := length_padded (j := j) (t.length_cell_le hcells h)
  have hcut : (((t.columns cells).flatten.drop (t.offset j)).take (t.width.getD j 0)) =
      padded j (t.width.getD j 0) (cells.getD j []) := by
    rw [hflatten, List.append_assoc, ← hbefore, List.drop_left, List.take_left' hlen]
  rw [← trim_padded j (t.width.getD j 0) (cells.getD j []), ← hcut, ← happend, List.drop_append,
    List.take_append]
  refine (trim_append_of_whitespace fun c hc => ?_).symm
  exact hw c (List.mem_of_mem_drop (List.mem_of_mem_take hc))

theorem isAligned_line (hcells : cells ∈ t.headers :: t.rows) :
    t.IsAligned cells (t.line cells) where
  length_le := by
    obtain ⟨w, happend, -⟩ := trimEnd_append_trimmed (t.columns cells).flatten
    rw [← length_flatten_columns hcells, ← happend, List.length_append]
    exact Nat.le_add_right _ _
  trimmed := trimEnd_trimEnd _
  cut := fun _ => cut_line hcells
  left := by
    intro hcell
    have hpos : 0 < t.headers.length := List.length_pos_iff.mpr t.headers_ne_nil
    obtain ⟨before, after, hflatten, hbefore⟩ := exists_flatten_columns hcells hpos
    have hnil : before = [] := List.eq_nil_of_length_eq_zero hbefore
    refine prefix_trimEnd ?_ hcell
    rw [hflatten, hnil, List.nil_append, padded, if_pos rfl, padEnd, List.append_assoc]
    exact List.prefix_append _ _
  right := by
    intro j h hj hcell
    by_cases hne : cells.getD j [] = []
    · rw [hne]
      exact List.nil_suffix
    · obtain ⟨before, after, hflatten, hbefore⟩ := exists_flatten_columns hcells h
      have hlen := length_padded (j := j) (t.length_cell_le hcells h)
      have hedge : (before ++ padded j (t.width.getD j 0) (cells.getD j [])).length =
          t.offset j + t.width.getD j 0 := by
        rw [List.length_append, hbefore, hlen]
      have hpadded : padded j (t.width.getD j 0) (cells.getD j []) =
          padStart (t.width.getD j 0) (cells.getD j []) := if_neg (Nat.ne_of_gt hj)
      have hends : trimEnd (before ++ padded j (t.width.getD j 0) (cells.getD j [])) =
          before ++ padded j (t.width.getD j 0) (cells.getD j []) := by
        rw [hpadded, padStart, ← List.append_assoc]
        exact trimEnd_append_of_trimEnd hne hcell
      have hprefix : before ++ padded j (t.width.getD j 0) (cells.getD j []) <+: t.line cells :=
        prefix_trimEnd ⟨after, hflatten.symm⟩ hends
      rw [← hedge, ← List.prefix_iff_eq_take.mp hprefix, hpadded, padStart, ← List.append_assoc]
      exact List.suffix_append _ _

/-! ## The text -/

theorem not_mem_column {c : Char} (hblank : c ≠ ' ') {j w : Nat} {cell : List Char}
    (h : c ∉ cell) : c ∉ column j w cell := by
  unfold column padEnd padStart
  split
  all_goals simp [hblank, h]

theorem not_mem_line {c : Char} (hblank : c ≠ ' ') (h : ∀ cell ∈ cells, c ∉ cell) :
    c ∉ t.line cells := by
  intro hmem
  have hflatten : c ∈ (t.columns cells).flatten :=
    (List.rdropWhile_prefix isWhitespace _).subset hmem
  obtain ⟨piece, hpiece, hc⟩ := List.mem_flatten.mp hflatten
  obtain ⟨j, hj, rfl⟩ := List.mem_mapIdx.mp hpiece
  refine not_mem_column hblank ?_ hc
  by_cases hlt : j < cells.length
  · rw [List.getD_eq_getElem _ _ hlt]
    exact h _ (List.getElem_mem hlt)
  · rw [List.getD_eq_default _ _ (by omega)]
    exact List.not_mem_nil

theorem not_mem_rule {c : Char} (h : c ≠ '-') : c ∉ t.rule :=
  fun hmem => h (List.eq_of_mem_replicate hmem)

theorem render_eq (t : Table) :
    t.render = (t.line t.headers :: t.rule :: t.rows.map t.line).flatMap fun s => s ++ ['\n'] := by
  simp [render, List.flatMap_map]

/-- The columns are as narrow as they can be, and every line keeps to them. -/
theorem render_aligned (t : Table) (h : ∀ cells ∈ t.headers :: t.rows, ∀ c ∈ cells, '\n' ∉ c) :
    split ['\n'] t.render = t.line t.headers :: t.rule :: t.rows.map t.line ++ [[]] ∧
      (∀ j < t.headers.length,
        IsGreatest {w | ∃ cells ∈ t.headers :: t.rows, (cells.getD j []).length = w}
          (t.width.getD j 0)) ∧
      ∀ cells ∈ t.headers :: t.rows, t.IsAligned cells (t.line cells) := by
  refine ⟨?_, fun _ => t.isGreatest_width, fun _ => isAligned_line⟩
  have hlines : ∀ line ∈ t.line t.headers :: t.rule :: t.rows.map t.line, '\n' ∉ line := by
    intro line hmem
    rcases List.mem_cons.mp hmem with rfl | hmem
    · exact not_mem_line (by decide) (h _ List.mem_cons_self)
    rcases List.mem_cons.mp hmem with rfl | hmem
    · exact not_mem_rule (by decide)
    obtain ⟨cells, hcells, rfl⟩ := List.mem_map.mp hmem
    exact not_mem_line (by decide) (h _ (List.mem_cons_of_mem _ hcells))
  rw [split_singleton, render_eq, ← List.append_nil (List.flatMap _ _),
    splitOn_flatMap_append hlines]
  rfl

theorem render_aligned_sample :
    split ['\n'] sample.render =
        sample.line sample.headers :: sample.rule :: sample.rows.map sample.line ++ [[]] ∧
      (∀ j < sample.headers.length,
        IsGreatest {w | ∃ cells ∈ sample.headers :: sample.rows, (cells.getD j []).length = w}
          (sample.width.getD j 0)) ∧
      ∀ cells ∈ sample.headers :: sample.rows, sample.IsAligned cells (sample.line cells) :=
  render_aligned sample (by decide)

end FeedBench.Report.Table
