import FeedBench.Text

/-!
# Tables

`Table` of `report.rs`: aligned plain text, the first column left-aligned, the rest
right-aligned.  A table without columns cannot be rendered (the width of its rule is less than
nothing), and none is made.
-/

namespace FeedBench.Report

/-- `{c:<w$}`. -/
def padEnd (w : Nat) (c : List Char) : List Char := c ++ List.replicate (w - c.length) ' '

def padStart (w : Nat) (c : List Char) : List Char := List.replicate (w - c.length) ' ' ++ c

structure Table where
  headers : List (List Char)
  rows : List (List (List Char))
  headers_ne_nil : headers ≠ []

namespace Table

def new (headers : List (List Char)) (h : headers ≠ []) : Table := ⟨headers, [], h⟩

def row (t : Table) (cells : List (List Char)) : Table := { t with rows := t.rows ++ [cells] }

/-- Make room for the cells of a line.  Cells beyond the columns are not shown, and a missing
cell is empty. -/
def widen (width : List Nat) (cells : List (List Char)) : List Nat :=
  width.mapIdx fun i w => max w (cells.getD i []).length

def width (t : Table) : List Nat :=
  t.rows.foldl widen (widen (List.replicate t.headers.length 0) t.headers)

def column (i w : Nat) (c : List Char) : List Char :=
  if i = 0 then padEnd w c else ' ' :: ' ' :: padStart w c

def columns (t : Table) (cells : List (List Char)) : List (List Char) :=
  t.width.mapIdx fun i w => column i w (cells.getD i [])

def line (t : Table) (cells : List (List Char)) : List Char :=
  Text.trimEnd (t.columns cells).flatten

def rule (t : Table) : List Char :=
  List.replicate (t.width.sum + 2 * (t.headers.length - 1)) '-'

def render (t : Table) : List Char :=
  t.line t.headers ++ ['\n'] ++ t.rule ++ ['\n'] ++ t.rows.flatMap fun r => t.line r ++ ['\n']

def sample : Table :=
  ((new ["source".toList, "p50".toList] (by decide)).row ["a".toList, "1.00".toList]).row
    ["longer".toList, "12.50".toList]

example : sample.render =
    "source    p50\n-------------\na        1.00\nlonger  12.50\n".toList := by decide

end Table

end FeedBench.Report
