import Mathlib.Data.List.Flatten
import Mathlib.Data.List.Infix

/-!
# Length-prefixed entries

A string cut into entries, each its length in a fixed number of symbols and then so many
symbols.  `entries` reads the entries of at most `cap` symbols off the front of a string
and stops at the first one that is too long or not all there.

* `entries_append`, `entries_flatMap`: what was written as entries is read back, whatever
  follows it;
* `entries_prefix`: cutting the string short only loses entries at the end.
-/

namespace FeedBench.Lib

/-- Lengths below `bound`, written in `width` symbols. -/
structure LengthCode (α : Type*) where
  width : Nat
  bound : Nat
  write : Nat → List α
  read : List α → Nat
  width_pos : 0 < width
  length_write : ∀ n, (write n).length = width
  read_write : ∀ n, n < bound → read (write n) = n

variable {α : Type*}

namespace LengthCode

variable (code : LengthCode α) (cap : Nat)

def entry (x : List α) : List α := code.write x.length ++ x

def entries (s : List α) : List (List α) :=
  if s.length < code.width then []
  else
    let n := code.read (s.take code.width)
    if cap < n ∨ (s.drop code.width).length < n then []
    else (s.drop code.width).take n :: entries ((s.drop code.width).drop n)
termination_by s.length
decreasing_by
  have := code.width_pos
  simp only [List.length_drop]
  omega

variable {code cap} {s s' x more : List α} {xs : List (List α)}

@[simp] theorem length_entry (x : List α) : (code.entry x).length = code.width + x.length := by
  rw [entry, List.length_append, code.length_write]

theorem entries_of_short (h : s.length < code.width) : code.entries cap s = [] := by
  rw [entries, if_pos h]

@[simp] theorem entries_nil : code.entries cap [] = [] := entries_of_short code.width_pos

/-- An entry in front is read, and the rest is read after it. -/
theorem entries_append (hcap : x.length ≤ cap) (hbound : x.length < code.bound)
    (more : List α) :
    code.entries cap (code.entry x ++ more) = x :: code.entries cap more := by
  have htake : (code.entry x ++ more).take code.width = code.write x.length := by
    rw [entry, List.append_assoc, List.take_left' (code.length_write _)]
  have hdrop : (code.entry x ++ more).drop code.width = x ++ more := by
    rw [entry, List.append_assoc, List.drop_left' (code.length_write _)]
  have hlong : ¬(code.entry x ++ more).length < code.width := by
    rw [List.length_append, length_entry]
    omega
  rw [entries, if_neg hlong, htake, hdrop, code.read_write _ hbound]
  have hthere : ¬(cap < x.length ∨ (x ++ more).length < x.length) := by
    rw [List.length_append]
    omega
  dsimp only
  rw [if_neg hthere, List.take_left' rfl, List.drop_left' rfl]

theorem entries_flatMap_append (h : ∀ x ∈ xs, x.length ≤ cap ∧ x.length < code.bound)
    (more : List α) :
    code.entries cap (xs.flatMap code.entry ++ more) = xs ++ code.entries cap more := by
  induction xs with
  | nil => rfl
  | cons x xs ih =>
      obtain ⟨hcap, hbound⟩ := h x List.mem_cons_self
      rw [List.flatMap_cons, List.append_assoc, entries_append hcap hbound,
        ih fun y hy => h y (List.mem_cons_of_mem x hy), List.cons_append]

theorem entries_flatMap (h : ∀ x ∈ xs, x.length ≤ cap ∧ x.length < code.bound) :
    code.entries cap (xs.flatMap code.entry) = xs := by
  have hrun := entries_flatMap_append h []
  rwa [List.append_nil, entries_nil, List.append_nil] at hrun

/-- The entry at the front stays where it is when more symbols follow. -/
theorem entries_prefix (h : s <+: s') : code.entries cap s <+: code.entries cap s' := by
  induction hn : s.length using Nat.strongRecOn generalizing s s' with
  | ind n ih =>
      obtain ⟨t, rfl⟩ := h
      by_cases hshort : s.length < code.width
      · rw [entries_of_short hshort]
        exact List.nil_prefix
      have hwidth : code.width ≤ s.length := Nat.le_of_not_lt hshort
      have hshort' : ¬(s ++ t).length < code.width := by
        rw [List.length_append]
        omega
      rw [entries, entries, if_neg hshort, if_neg hshort',
        List.take_append_of_le_length hwidth, List.drop_append_of_le_length hwidth]
      dsimp only
      split
      · exact List.nil_prefix
      · next hfits =>
        rw [not_or, Nat.not_lt, Nat.not_lt] at hfits
        have hfits' : ¬(cap < code.read (s.take code.width) ∨
            (s.drop code.width ++ t).length < code.read (s.take code.width)) := by
          rw [List.length_append]
          omega
        rw [if_neg hfits', List.take_append_of_le_length hfits.2,
          List.drop_append_of_le_length hfits.2, List.prefix_cons_inj]
        have hpos := code.width_pos
        refine ih _ ?_ (List.prefix_append _ t) rfl
        simp only [List.length_drop]
        omega

end LengthCode

end FeedBench.Lib
