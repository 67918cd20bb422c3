import FeedBench.Report.Proofs.Number
import FeedBench.Report.Proofs.Table
import FeedBench.Report.Read

/-!
# Cells read back

A table of cells gives its cells back: between two cells of a line stand two blanks at least,
and none is trimmed away with the end of the line.
-/

namespace FeedBench.Report

open Text Lib Columns

variable {c d : List Char} {t : Table} {cells : List (List Char)}

/-! ## Cells -/

theorem IsCell.ne_nil (h : IsCell c) : c ≠ [] := h.field.ne_nil

theorem IsCell.append (hc : IsCell c) (hd : IsCell d) : IsCell (c ++ ' ' :: d) where
  field := hc.field.append hd.field
  one_line := by
    rw [List.mem_append, List.mem_cons, not_or, not_or]
    exact ⟨hc.one_line, by decide, hd.one_line⟩
  trimmed := by
    have hne : ' ' :: d ≠ [] := List.cons_ne_nil _ _
    have hends : trimEnd ([' '] ++ d) = [' '] ++ d := trimEnd_append_of_trimEnd hd.ne_nil hd.trimmed
    exact trimEnd_append_of_trimEnd hne hends

theorem isCell_of_not_whitespace (hne : c ≠ []) (h : ∀ x ∈ c, isWhitespace x = false) :
    IsCell c where
  field := isField_of_not_mem hne fun hmem => Bool.noConfusion (h ' ' hmem)
  one_line := fun hmem => Bool.noConfusion (h '\n' hmem)
  trimmed := by
    rw [trimEnd_eq_rdropWhile, List.rdropWhile_eq_self_iff]
    intro hne
    rw [h _ (List.getLast_mem hne)]
    exact Bool.false_ne_true

theorem isCell_natText (k : Nat) : IsCell (natText k) :=
  isCell_of_not_whitespace (toString_ne_nil k) fun _ h =>
    isWhitespace_of_isDigit (isDigit_of_mem_toString h)

theorem isCell_fixed (d : Nat) (x : ℚ) : IsCell (fixed d x) :=
  isCell_of_not_whitespace (fixed_ne_nil d x) fun _ => isWhitespace_fixed

theorem isCell_f2 (x : ℚ) : IsCell (f2 x) := isCell_fixed 2 x

theorem isCell_around (before after : List Char) (d : Nat) (x : ℚ)
    (hbefore : ∀ c ∈ before, isWhitespace c = false)
    (hafter : ∀ c ∈ after, isWhitespace c = false) :
    IsCell (before ++ fixed d x ++ after) := by
  apply isCell_of_not_whitespace
  · intro hnil
    exact fixed_ne_nil d x (List.append_eq_nil_iff.mp (List.append_eq_nil_iff.mp hnil).1).2
  · intro c hc
    rcases List.mem_append.mp hc with hc | hc
    · rcases List.mem_append.mp hc with hc | hc
      · exact hbefore c hc
      · exact isWhitespace_fixed hc
    · exact hafter c hc

theorem isCell_pc (x : ℚ) : IsCell (pc x) :=
  isCell_around [] ['%'] 1 x (List.forall_mem_nil _) (List.forall_mem_singleton.mpr rfl)

theorem isCell_signed2 (x : ℚ) : IsCell (signed2 x) := by
  have hsign : ∀ c ∈ if x < 0 then [] else ['+'], isWhitespace c = false := by
    split
    · exact List.forall_mem_nil _
    · exact List.forall_mem_singleton.mpr rfl
  have hcell := isCell_around _ [] 2 x hsign (List.forall_mem_nil _)
  rwa [List.append_nil] at hcell

/-! ## Lines -/

def gap (w : Nat) (c : List Char) : List Char := ' ' :: ' ' :: padStart w c

theorem mapIdx_gap {width : List Nat} {rest : List (List Char)}
    (hlen : width.length = rest.length) :
    width.mapIdx (fun i w => gap w (rest.getD i [])) = List.zipWith gap width rest := by
  apply List.ext_getElem
  · rw [List.length_mapIdx, List.length_zipWith, hlen, Nat.min_self]
  · intro i hi _
    have hrest : i < rest.length := by rwa [List.length_mapIdx, hlen] at hi
    rw [List.getElem_mapIdx, List.getElem_zipWith, List.getD_eq_getElem _ _ hrest]

theorem flatten_columns (hlen : cells.length = t.headers.length) :
    ∃ w width c rest, cells = c :: rest ∧ width.length = rest.length ∧
      (t.columns cells).flatten = padEnd w c ++ (List.zipWith gap width rest).flatten := by
  have hpos : 0 < t.headers.length := List.length_pos_iff.mpr t.headers_ne_nil
  obtain ⟨w, width, hwidth⟩ := List.exists_cons_of_length_pos (t.length_width ▸ hpos)
  obtain ⟨c, rest, rfl⟩ := List.exists_cons_of_length_pos (hlen ▸ hpos)
  have hrest : width.length = rest.length := by
    have := t.length_width
    rw [hwidth, ← hlen, List.length_cons, List.length_cons] at this
    omega
  refine ⟨w, width, c, rest, rfl, hrest, ?_⟩
  rw [Table.columns, hwidth, List.mapIdx_cons, List.flatten_cons, ← mapIdx_gap hrest]
  rfl

theorem fields_gaps (hc : IsField ' ' c) {width : List Nat} {rest : List (List Char)}
    (hlen : width.length = rest.length) (hrest : ∀ d ∈ rest, IsField ' ' d) (k : Nat) :
    fields ' ' (c ++ List.replicate k ' ' ++ (List.zipWith gap width rest).flatten) =
      c :: rest := by
  induction rest generalizing c width k with
  | nil =>
      rw [List.zipWith_nil_right, List.flatten_nil, List.append_nil]
      exact fields_append_replicate hc k
  | cons d rest ih =>
      obtain ⟨w, width, rfl⟩ := List.exists_cons_of_length_eq_add_one hlen
      have ih' := ih (hrest d List.mem_cons_self) (Nat.succ.inj hlen)
        (fun d' hmem => hrest d' (List.mem_cons_of_mem d hmem)) 0
      -- all blanks between the two cells, two of them first
      have hblanks : List.replicate k ' ' ++ ' ' :: ' ' :: List.replicate (w - d.length) ' ' =
          ' ' :: ' ' :: List.replicate (k + (w - d.length)) ' ' := by
        rw [← List.replicate_succ, ← List.replicate_succ, List.replicate_append_replicate,
          ← List.replicate_succ, ← List.replicate_succ]
        rfl
      have hline : c ++ List.replicate k ' ' ++
            (List.zipWith gap (w :: width) (d :: rest)).flatten =
          c ++ ' ' :: ' ' :: (List.replicate (k + (w - d.length)) ' ' ++
            (d ++ List.replicate 0 ' ' ++ (List.zipWith gap width rest).flatten)) := by
        calc c ++ List.replicate k ' ' ++ (List.zipWith gap (w :: width) (d :: rest)).flatten
            = c ++ (List.replicate k ' ' ++ ' ' :: ' ' :: List.replicate (w - d.length) ' ') ++
                (d ++ (List.zipWith gap width rest).flatten) := by
              simp [gap, padStart]
          _ = _ := by
              rw [hblanks]
              simp
      rw [hline, fields_append hc, fields_replicate_append, ih']

theorem trimEnd_gaps {width : List Nat} {rest : List (List Char)} (hrest : ∀ d ∈ rest, IsCell d) :
    trimEnd (List.zipWith gap width rest).flatten = (List.zipWith gap width rest).flatten := by
  induction rest generalizing width with
  | nil =>
      rw [List.zipWith_nil_right]
      rfl
  | cons d rest ih =>
      cases width with
      | nil => rfl
      | cons w width =>
          have hd := hrest d List.mem_cons_self
          have hgap : trimEnd (gap w d) = gap w d :=
            trimEnd_append_of_trimEnd (s := ' ' :: ' ' :: List.replicate (w - d.length) ' ')
              hd.ne_nil hd.trimmed
          rw [List.zipWith_cons_cons, List.flatten_cons, trimEnd_append,
            ih fun d' hmem => hrest d' (List.mem_cons_of_mem d hmem)]
          split
          next hempty => rw [hgap, List.isEmpty_iff.mp hempty, List.append_nil]
          next => rfl

/-- A line gives its cells back. -/
theorem fields_line (hlen : cells.length = t.headers.length) (hcells : ∀ c ∈ cells, IsCell c) :
    fields ' ' (t.line cells) = cells := by
  obtain ⟨w, width, c, rest, rfl, hwidth, hflatten⟩ := flatten_columns hlen
  have hc := hcells c List.mem_cons_self
  have hrest : ∀ d ∈ rest, IsCell d := fun d hmem => hcells d (List.mem_cons_of_mem c hmem)
  rw [Table.line, hflatten, trimEnd_append, trimEnd_gaps hrest]
  split
  next hempty =>
    have hnil : rest = [] := by
      cases rest with
      | nil => rfl
      | cons d rest =>
          obtain ⟨w', width, rfl⟩ := List.exists_cons_of_length_eq_add_one hwidth
          cases hempty
    have hpadded : trimEnd (padEnd w c) = c := by
      rw [padEnd, trimEnd_append_of_whitespace, hc.trimmed]
      intro x hx
      rw [List.eq_of_mem_replicate hx]
      rfl
    rw [hpadded, hnil, fields_self hc.field]
  next => exact fields_gaps hc.field hwidth (fun d hmem => (hrest d hmem).field) _

/-! ## Tables -/

structure IsLine (s : List Char) : Prop where
  ne_nil : s ≠ []
  one_line : '\n' ∉ s

structure Table.IsFull (t : Table) : Prop where
  length_eq : ∀ cells ∈ t.headers :: t.rows, cells.length = t.headers.length
  isCell : ∀ cells ∈ t.headers :: t.rows, ∀ c ∈ cells, IsCell c

namespace Table

def lines (t : Table) : List (List Char) := t.line t.headers :: t.rule :: t.rows.map t.line

theorem render_eq_lines (t : Table) : t.render = t.lines.flatMap writeln := t.render_eq

theorem isLine_line (h : t.IsFull) (hcells : cells ∈ t.headers :: t.rows) :
    IsLine (t.line cells) where
  ne_nil := by
    intro hnil
    have hfields := fields_line (h.length_eq cells hcells) (h.isCell cells hcells)
    have hlen := h.length_eq cells hcells
    rw [hnil, fields_nil] at hfields
    rw [← hfields] at hlen
    exact t.headers_ne_nil (List.length_eq_zero_iff.mp hlen.symm)
  one_line := not_mem_line (by decide) fun c hc => (h.isCell cells hcells c hc).one_line

theorem isLine_rule (h : t.IsFull) : IsLine t.rule where
  ne_nil := by
    intro hnil
    have hle := (isAligned_line (t := t) List.mem_cons_self).length_le
    rw [hnil, List.length_nil, Nat.le_zero, List.length_eq_zero_iff] at hle
    exact (isLine_line h List.mem_cons_self).ne_nil hle
  one_line := not_mem_rule (by decide)

theorem isLine_of_mem_lines (h : t.IsFull) {line : List Char} (hline : line ∈ t.lines) :
    IsLine line := by
  rcases List.mem_cons.mp hline with rfl | hline
  · exact isLine_line h List.mem_cons_self
  rcases List.mem_cons.mp hline with rfl | hline
  · exact isLine_rule h
  obtain ⟨cells, hcells, rfl⟩ := List.mem_map.mp hline
  exact isLine_line h (List.mem_cons_of_mem _ hcells)

theorem readRows_lines (h : t.IsFull) : readRows t.lines = t.rows := by
  rw [readRows, lines, List.drop_succ_cons, List.drop_succ_cons, List.drop_zero, List.map_map]
  refine (List.map_congr_left fun cells hcells => ?_).trans (List.map_id t.rows)
  have hmem := List.mem_cons_of_mem t.headers hcells
  exact fields_line (h.length_eq cells hmem) (h.isCell cells hmem)

theorem fields_headers (h : t.IsFull) : fields ' ' (t.line t.headers) = t.headers :=
  fields_line rfl (h.isCell t.headers List.mem_cons_self)

theorem fill_eq (t : Table) (rows : List (List (List Char))) :
    t.fill rows = { t with rows := t.rows ++ rows } := by
  induction rows generalizing t with
  | nil => rw [fill, List.foldl_nil, List.append_nil]
  | cons cells rows ih =>
      rw [fill, List.foldl_cons, ← fill, ih]
      simp [row]

theorem isFull_fill {headers : List (List Char)} {rows : List (List (List Char))}
    {hne : headers ≠ []} (hheaders : ∀ c ∈ headers, IsCell c)
    (hlen : ∀ cells ∈ rows, cells.length = headers.length)
    (hrows : ∀ cells ∈ rows, ∀ c ∈ cells, IsCell c) :
    ((new headers hne).fill rows).IsFull := by
  rw [fill_eq]
  constructor
  · intro cells hcells
    rcases List.mem_cons.mp hcells with rfl | hmem
    · rfl
    · exact hlen cells hmem
  · intro cells hcells
    rcases List.mem_cons.mp hcells with rfl | hmem
    · exact hheaders
    · exact hrows cells hmem

@[simp] theorem rows_fill_new (headers : List (List Char)) (hne : headers ≠ [])
    (rows : List (List (List Char))) : ((new headers hne).fill rows).rows = rows := by
  rw [fill_eq]
  rfl

@[simp] theorem headers_fill_new (headers : List (List Char)) (hne : headers ≠ [])
    (rows : List (List (List Char))) : ((new headers hne).fill rows).headers = headers := by
  rw [fill_eq]
  rfl

end Table

end FeedBench.Report
