import FeedBench.Lib.FanOut
import FeedBench.Text.Pieces
import FeedBench.WsJson.Path
import Mathlib.Data.List.TakeWhile

/-!
# The meaning of a path

The segments of a path, and the brackets of a segment, are stages that work on each value by
itself.  A path of steps is read as the steps one after another.
-/

namespace FeedBench.WsJson

open Lib Text

/-! ## Stages -/

def Value.elements (v : Value) : List Value := v.asArray.getD []

theorem flatten_filterMap_asArray (cur : List Value) :
    (cur.filterMap Value.asArray).flatten = cur.flatMap Value.elements := by
  induction cur with
  | nil => rfl
  | cons v cur ih =>
      rw [List.flatMap_cons, ← ih, List.filterMap_cons, Value.elements]
      cases v.asArray with
      | none => rfl
      | some values => rfl

def extractBracket (b : List Char) (cur : List Value) : Option (List Value) :=
  let inner := b.dropWhile (· = '[')
  if inner.isEmpty then some (cur.flatMap Value.elements)
  else (parseUnsigned (2 ^ 64) inner).map fun i => cur.filterMap (Value.getIndex i)

theorem extractBrackets_cons (cur : List Value) (b : List Char) (bs : List (List Char)) :
    extractBrackets cur (b :: bs) =
      (extractBracket b cur).bind fun cur => extractBrackets cur bs := by
  rw [extractBrackets, extractBracket, flatten_filterMap_asArray]
  split
  · rfl
  · cases parseUnsigned (2 ^ 64) (b.dropWhile (· = '[')) with
    | none => rfl
    | some i => rfl

theorem pointwise_extractBracket (b : List Char) : Pointwise (extractBracket b) := by
  unfold extractBracket
  by_cases hinner : (b.dropWhile (· = '[')).isEmpty = true
  · simp only [if_pos hinner]
    exact .flatMap _
  · simp only [if_neg hinner]
    cases parseUnsigned (2 ^ 64) (b.dropWhile (· = '[')) with
    | none => exact .none
    | some i => exact .filterMap _

theorem extractBrackets_append (cur : List Value) (bs bs' : List (List Char)) :
    extractBrackets cur (bs ++ bs') =
      (extractBrackets cur bs).bind fun cur => extractBrackets cur bs' := by
  induction bs generalizing cur with
  | nil => rfl
  | cons b bs ih =>
      rw [List.cons_append, extractBrackets_cons, extractBrackets_cons, Option.bind_assoc]
      congr 1
      funext cur
      exact ih cur

theorem pointwise_extractBrackets (bs : List (List Char)) :
    Pointwise fun cur => extractBrackets cur bs := by
  induction bs with
  | nil => exact .id
  | cons b bs ih =>
      have hcons : (fun cur => extractBrackets cur (b :: bs)) =
          fun cur => (extractBracket b cur).bind fun cur => extractBrackets cur bs :=
        funext fun cur => extractBrackets_cons cur b bs
      rw [hcons]
      exact (pointwise_extractBracket b).bind ih

def segmentName (seg : List Char) : List Char := seg.takeWhile (· ≠ '[')

def segmentBrackets (seg : List Char) : List Char := seg.dropWhile (· ≠ '[')

def bracketPieces (brackets : List Char) : List (List Char) :=
  (split [']'] brackets).filter fun b => !b.isEmpty

def extractSegment (seg : List Char) (cur : List Value) : Option (List Value) :=
  extractBrackets (if (segmentName seg).isEmpty then cur
    else cur.filterMap (Value.get (segmentName seg))) (bracketPieces (segmentBrackets seg))

theorem pointwise_extractSegment (seg : List Char) : Pointwise (extractSegment seg) := by
  unfold extractSegment
  split
  · exact pointwise_extractBrackets _
  · exact (Pointwise.filterMap _).bind (pointwise_extractBrackets _)

/-- A segment that is skipped would change nothing. -/
theorem extractSegments_cons (cur : List Value) (seg : List Char) (segs : List (List Char)) :
    extractSegments cur (seg :: segs) =
      (extractSegment seg cur).bind fun cur => extractSegments cur segs := by
  rw [extractSegments]
  split
  · next hempty =>
    rw [List.isEmpty_iff] at hempty
    subst hempty
    rfl
  · unfold extractSegment segmentName segmentBrackets bracketPieces
    dsimp only
    split <;> next h => rw [h]; rfl

theorem extractSegments_append (cur : List Value) (segs segs' : List (List Char)) :
    extractSegments cur (segs ++ segs') =
      (extractSegments cur segs).bind fun cur => extractSegments cur segs' := by
  induction segs generalizing cur with
  | nil => rfl
  | cons seg segs ih =>
      rw [List.cons_append, extractSegments_cons, extractSegments_cons, Option.bind_assoc]
      congr 1
      funext cur
      exact ih cur

theorem pointwise_extractSegments (segs : List (List Char)) :
    Pointwise fun cur => extractSegments cur segs := by
  induction segs with
  | nil => exact .id
  | cons seg segs ih =>
      have hcons : (fun cur => extractSegments cur (seg :: segs)) =
          fun cur => (extractSegment seg cur).bind fun cur => extractSegments cur segs :=
        funext fun cur => extractSegments_cons cur seg segs
      rw [hcons]
      exact (pointwise_extractSegment seg).bind ih

/-- A dot takes the values of what stands before it, one at a time, to what stands after it. -/
theorem extract_dot (v : Value) (p q : List Char) :
    extract v (p ++ '.' :: q) = (extract v p).flatMap fun x => extract x q := by
  have hsplit : split ['.'] (p ++ '.' :: q) = split ['.'] p ++ split ['.'] q := by
    rw [split_singleton, split_singleton, split_singleton, List.splitOn_append_cons_self]
  rw [extract, hsplit, extractSegments_append]
  exact (pointwise_extractSegments (split ['.'] q)).getD_bind _

/-! ## Steps -/

/-- A step of a path. -/
inductive Step where
  | field (name : List Char) (ne : name ≠ []) (plain : ∀ c ∈ name, c ∉ ['.', '['])
  | all
  | index (k : UInt64)

namespace Step

/-- What a step makes of a value, nothing of a value of the wrong shape. -/
def eval : Step → Value → List Value
  | field name .., v => (v.get name).toList
  | all, v => v.elements
  | index k, v => (v.getIndex k.toNat).toList

def inner : Step → List Char
  | index k => (toString k.toNat).toList
  | _ => []

def renderTail : List Step → List Char
  | [] => []
  | field name .. :: steps => '.' :: name ++ renderTail steps
  | step :: steps => '[' :: step.inner ++ [']'] ++ renderTail steps

def render : List Step → List Char
  | field name .. :: steps => name ++ renderTail steps
  | steps => renderTail steps

def run : List Step → Value → List Value
  | [], v => [v]
  | step :: steps, v => (step.eval v).flatMap (run steps)

end Step

/-! ## Brackets behind a segment -/

/-- The text is a name and whole brackets behind it. -/
structure Closed (seg : List Char) : Prop where
  no_dot : '.' ∉ seg
  brackets : segmentBrackets seg = [] ∨ ∃ x, segmentBrackets seg = x ++ [']']

theorem bracketPieces_append (x y : List Char) :
    bracketPieces (x ++ ']' :: y) = bracketPieces x ++ bracketPieces y := by
  simp only [bracketPieces, split_singleton, List.splitOn_append_cons_self, List.filter_append]

theorem bracketPieces_nil : bracketPieces [] = [] := rfl

theorem bracketPieces_of_not_mem {b : List Char} (h : ']' ∉ b) (hne : b ≠ []) :
    bracketPieces b = [b] := by
  rw [bracketPieces, split_singleton, List.splitOn_eq_singleton h, List.filter_cons_of_pos]
  · rfl
  · rw [Bool.not_eq_true', List.isEmpty_eq_false_iff]
    exact hne

theorem extract_segment {seg : List Char} (h : '.' ∉ seg) (v : Value) :
    extract v seg = (extractSegment seg [v]).getD [] := by
  rw [extract, split_singleton, List.splitOn_eq_singleton h, extractSegments_cons]
  congr 1
  exact Option.bind_fun_some _

theorem segmentName_append (seg tail : List Char) :
    segmentName (seg ++ '[' :: tail) = segmentName seg := by
  induction seg with
  | nil => rfl
  | cons c seg ih =>
      unfold segmentName at ih ⊢
      rw [List.cons_append, List.takeWhile_cons, ih, List.takeWhile_cons]

theorem segmentBrackets_append (seg tail : List Char) :
    segmentBrackets (seg ++ '[' :: tail) = segmentBrackets seg ++ '[' :: tail := by
  induction seg with
  | nil => rfl
  | cons c seg ih =>
      unfold segmentBrackets at ih ⊢
      rw [List.cons_append, List.dropWhile_cons, ih, List.dropWhile_cons]
      split
      · rfl
      · rfl

theorem extractSegment_append {seg inner : List Char} (h : Closed seg) (hinner : ']' ∉ inner)
    (cur : List Value) : extractSegment (seg ++ ('[' :: inner ++ [']'])) cur =
      (extractSegment seg cur).bind (extractBracket ('[' :: inner)) := by
  have hpiece : bracketPieces ('[' :: inner ++ [']']) = ['[' :: inner] := by
    have hmem : ']' ∉ '[' :: inner := by
      rw [List.mem_cons, not_or]
      exact ⟨by decide, hinner⟩
    rw [bracketPieces_append, bracketPieces_of_not_mem hmem (List.cons_ne_nil _ _),
      bracketPieces_nil, List.append_nil]
  have hpieces : bracketPieces (segmentBrackets seg ++ ('[' :: inner ++ [']'])) =
      bracketPieces (segmentBrackets seg) ++ ['[' :: inner] := by
    rcases h.brackets with hnone | ⟨x, hx⟩
    · rw [hnone, List.nil_append, hpiece]
      rfl
    · rw [hx, List.append_assoc, List.singleton_append, bracketPieces_append, hpiece,
        bracketPieces_append, bracketPieces_nil, List.append_nil]
  unfold extractSegment
  rw [List.cons_append, segmentName_append, segmentBrackets_append, ← List.cons_append, hpieces,
    extractBrackets_append]
  congr 1
  funext cur
  rw [extractBrackets_cons]
  exact Option.bind_fun_some _

theorem bracket_not_mem_inner (step : Step) : ']' ∉ step.inner := by
  cases step with
  | index k => exact not_mem_toString (by decide)
  | _ => exact List.not_mem_nil

theorem dropWhile_inner (step : Step) :
    ('[' :: step.inner).dropWhile (· = '[') = step.inner := by
  show step.inner.dropWhile (· = '[') = step.inner
  cases step with
  | index k =>
      have hhead : ∀ c ∈ (toString k.toNat).toList.head?, ¬decide (c = '[') = true := by
        intro c hc hbracket
        rw [decide_eq_true_eq] at hbracket
        subst hbracket
        exact not_mem_toString (by decide) (List.mem_of_mem_head? hc)
      have hdrop := dropWhile_append_of_head [] (toString_ne_nil k.toNat) hhead
      rwa [List.append_nil] at hdrop
  | _ => rfl

theorem extractBracket_inner {step : Step} (h : ∀ name ne plain, step ≠ .field name ne plain)
    (v : Value) : (extractBracket ('[' :: step.inner) [v]).getD [] = step.eval v := by
  unfold extractBracket
  rw [dropWhile_inner]
  cases step with
  | field name ne plain => exact absurd rfl (h name ne plain)
  | all => exact List.flatMap_singleton ..
  | index k =>
      have hparse : parseUnsigned (2 ^ 64) (Step.index k).inner = some k.toNat :=
        parseUnsigned_toString k.toNat_lt
      have hne : (Step.index k).inner.isEmpty = false :=
        List.isEmpty_eq_false_iff.mpr (toString_ne_nil k.toNat)
      dsimp only
      rw [hne, if_neg Bool.false_ne_true, hparse, Option.map_some, Option.getD_some,
        List.filterMap_eq_flatMap_toList]
      exact List.flatMap_singleton ..

theorem extractSegment_field {name : List Char} (ne : name ≠ [])
    (plain : ∀ c ∈ name, c ∉ ['.', '[']) (v : Value) :
    (extractSegment name [v]).getD [] = (Step.field name ne plain).eval v := by
  have hall : ∀ c ∈ name, decide (c ≠ '[') = true := by
    intro c hc
    rw [decide_eq_true_eq]
    rintro rfl
    exact plain '[' hc (by decide)
  have hname : segmentName name = name := List.takeWhile_eq_self_iff.mpr hall
  have hbrackets : segmentBrackets name = [] := List.dropWhile_eq_nil_iff.mpr hall
  rw [extractSegment, hname, hbrackets, if_neg (by rwa [List.isEmpty_iff]), bracketPieces_nil,
    extractBrackets, Option.getD_some, List.filterMap_eq_flatMap_toList]
  exact List.flatMap_singleton ..

theorem closed_field {name : List Char} (plain : ∀ c ∈ name, c ∉ ['.', '[']) : Closed name where
  no_dot := fun hmem => plain '.' hmem (by decide)
  brackets := by
    refine .inl (List.dropWhile_eq_nil_iff.mpr fun c hc => ?_)
    rw [decide_eq_true_eq]
    rintro rfl
    exact plain '[' hc (by decide)

theorem Closed.append {seg inner : List Char} (h : Closed seg) (hinner : '.' ∉ inner) :
    Closed (seg ++ ('[' :: inner ++ [']'])) where
  no_dot := by
    simp only [List.mem_append, List.mem_cons, List.not_mem_nil, not_or]
    exact ⟨h.no_dot, ⟨by decide, hinner⟩, by decide, not_false⟩
  brackets := by
    refine .inr ⟨segmentBrackets seg ++ '[' :: inner, ?_⟩
    rw [List.cons_append, segmentBrackets_append, List.append_assoc]
    rfl

theorem dot_not_mem_inner (step : Step) : '.' ∉ step.inner := by
  cases step with
  | index k => exact not_mem_toString (by decide)
  | _ => exact List.not_mem_nil

/-! ## The meaning of a path -/

theorem extract_brackets {seg : List Char} (hseg : Closed seg) {step : Step}
    (h : ∀ name ne plain, step ≠ .field name ne plain) (v : Value) :
    extract v (seg ++ ('[' :: step.inner ++ [']'])) = (extract v seg).flatMap step.eval := by
  have hinner := (pointwise_extractBracket ('[' :: step.inner)).getD_bind (extractSegment seg [v])
  rw [extract_segment (hseg.append (dot_not_mem_inner step)).no_dot,
    extractSegment_append hseg (bracket_not_mem_inner step), hinner, extract_segment hseg.no_dot]
  congr 1
  funext x
  exact extractBracket_inner h x

theorem extract_renderTail {seg : List Char} (h : Closed seg) (steps : List Step) (v : Value) :
    extract v (seg ++ Step.renderTail steps) = (extract v seg).flatMap (Step.run steps) := by
  induction steps generalizing seg v with
  | nil =>
      rw [Step.renderTail, List.append_nil]
      exact (List.flatMap_singleton' _).symm
  | cons step steps ih =>
      have hbrackets : (∀ name ne plain, step ≠ .field name ne plain) →
          extract v (seg ++ ('[' :: step.inner ++ [']'] ++ Step.renderTail steps)) =
            (extract v seg).flatMap (Step.run (step :: steps)) := by
        intro hstep
        rw [← List.append_assoc, ih (h.append (dot_not_mem_inner step)),
          extract_brackets h hstep, List.flatMap_assoc]
        rfl
      cases step with
      | field name ne plain =>
          rw [Step.renderTail, List.cons_append, extract_dot]
          congr 1
          funext x
          rw [ih (closed_field plain), extract_segment (closed_field plain).no_dot,
            extractSegment_field ne plain]
          rfl
      | all => exact hbrackets fun _ _ _ => nofun
      | index k => exact hbrackets fun _ _ _ => nofun

theorem extract_render (steps : List Step) (v : Value) :
    extract v (Step.render steps) = Step.run steps v := by
  have hnil : Closed [] := ⟨List.not_mem_nil, .inl rfl⟩
  have hrun : extract v ([] ++ Step.renderTail steps) = Step.run steps v := by
    rw [extract_renderTail hnil, extract_segment hnil.no_dot]
    exact List.flatMap_singleton ..
  cases steps with
  | nil => exact hrun
  | cons step steps =>
      cases step with
      | field name ne plain =>
          rw [Step.render, extract_renderTail (closed_field plain),
            extract_segment (closed_field plain).no_dot, extractSegment_field ne plain]
          rfl
      | all => exact hrun
      | index k => exact hrun

/-- Paths have the meaning of their steps, and a dot between any two texts joins them. -/
theorem extract_meaning :
    (∀ (v : Value) (steps : List Step), extract v (Step.render steps) = Step.run steps v) ∧
      ∀ (v : Value) (p q : List Char),
        extract v (p ++ ['.'] ++ q) = (extract v p).flatMap fun x => extract x q := by
  refine ⟨fun v steps => extract_render steps v, fun v p q => ?_⟩
  rw [List.append_assoc]
  exact extract_dot v p q

end FeedBench.WsJson
