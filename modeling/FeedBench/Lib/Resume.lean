import Mathlib.Data.List.Chain
import Mathlib.Data.List.Induction
import Mathlib.Order.Interval.Set.OrdConnected

/-!
# Resuming a numbered stream

A reader of numbered entries is cut off again and again.  Each round brings consecutive
numbers, and a round after the first entry starts nowhere above the number that follows the
greatest one seen.  Then nothing between the first entry and the greatest one is ever missing
(`filled_of_resumed`).  Below the first entry there can be a hole, and `contiguous_iff_meets`
says which rounds leave one.
-/

namespace FeedBench.Lib

variable {α β : Type*}

/-! ## Along a list -/

/-- `P before x` for every entry `x`, with the entries before it. -/
def Along (P : List α → α → Prop) (xs : List α) : Prop :=
  ∀ before x, before ++ [x] <+: xs → P before x

section Along

variable {P Q : List α → α → Prop} {xs : List α} {x : α}

@[simp] theorem along_nil : Along P [] := by
  intro before x h
  simp at h

theorem along_snoc : Along P (xs ++ [x]) ↔ Along P xs ∧ P xs x := by
  constructor
  · intro h
    exact ⟨fun before y hy => h before y (hy.trans (List.prefix_append xs [x])),
      h xs x (List.prefix_refl _)⟩
  · intro h before y hy
    rcases List.prefix_concat_iff.mp hy with heq | hlt
    · obtain ⟨rfl, hyx⟩ := List.append_inj' heq rfl
      rw [List.singleton_inj.mp hyx]
      exact h.2
    · exact h.1 before y hlt

theorem along_cons :
    Along P (x :: xs) ↔ P [] x ∧ Along (fun before y => P (x :: before) y) xs := by
  constructor
  · intro h
    exact ⟨h [] x (by simp), fun before y hy => h (x :: before) y (by simpa using hy)⟩
  · intro h before y hy
    cases before with
    | nil =>
        have hyx : y = x := by simpa using hy
        rw [hyx]
        exact h.1
    | cons z before =>
        obtain ⟨rfl, hbefore⟩ := List.cons_prefix_cons.mp hy
        exact h.2 before y hbefore

theorem Along.mono (h : Along P xs) (hPQ : ∀ before, ∀ x ∈ xs, P before x → Q before x) :
    Along Q xs :=
  fun before x hx => hPQ before x (hx.subset (by simp)) (h before x hx)

theorem Along.exists_before (h : Along P xs) (hx : x ∈ xs) :
    ∃ before, before ++ [x] <+: xs ∧ P before x := by
  obtain ⟨before, after, rfl⟩ := List.append_of_mem hx
  have hprefix : before ++ [x] <+: before ++ x :: after := ⟨after, by simp⟩
  exact ⟨before, hprefix, h before x hprefix⟩

theorem Along.pairwise {R : α → α → Prop} (h : Along P xs)
    (hR : ∀ before x before' y, before <+: before' → P before x → P before' y → R x y) :
    xs.Pairwise R := by
  induction xs using List.reverseRecOn with
  | nil => exact List.Pairwise.nil
  | append_singleton xs y ih =>
      have hsplit := along_snoc.mp h
      rw [List.pairwise_append]
      refine ⟨ih hsplit.1, List.pairwise_singleton R y, ?_⟩
      intro x hx y' hy'
      rw [List.mem_singleton.mp hy']
      obtain ⟨before, hbefore, hP⟩ := hsplit.1.exists_before hx
      exact hR before x xs y ((List.prefix_append before [x]).trans hbefore) hP hsplit.2

theorem along_map {f : β → α} {ys : List β} :
    Along P (ys.map f) ↔ Along (fun before y => P (before.map f) (f y)) ys := by
  induction ys using List.reverseRecOn with
  | nil => simp
  | append_singleton ys y ih =>
      rw [List.map_append, List.map_singleton, along_snoc, along_snoc, ih]

end Along

/-! ## One round -/

def Consecutive (ks : List Nat) : Prop := ks.IsChain fun a b => b = a + 1

instance : DecidablePred Consecutive :=
  fun ks => inferInstanceAs (Decidable (ks.IsChain fun a b => b = a + 1))

def next (seen : List Nat) : Option Nat := seen.max?.map (· + 1)

/-- What a round may bring to a reader that asks for `requested`. -/
structure Resumes (requested : Option Nat) (ks : List Nat) : Prop where
  consecutive : Consecutive ks
  start_le : ∀ r ∈ requested, ∀ k ∈ ks.head?, k ≤ r

/-- Every number from the first one seen to the greatest has been seen. -/
def Filled (seen : List Nat) : Prop :=
  ∀ first ∈ seen.head?, ∀ k, first ≤ k → ∀ g ∈ seen, k ≤ g → k ∈ seen

/-- A round does not stop short of the least number seen before it. -/
def Meets (seen ks : List Nat) : Prop := ∀ m ∈ seen.min?, ∀ k ∈ ks.getLast?, m ≤ k + 1

variable {seen ks : List Nat} {first k : Nat}

theorem Consecutive.eq_range' (h : Consecutive (first :: ks)) :
    first :: ks = List.range' first (ks.length + 1) := by
  induction ks generalizing first with
  | nil => rfl
  | cons k ks ih =>
      have hk : k = first + 1 := (List.isChain_cons_cons.mp h).1
      have htail : Consecutive (k :: ks) := (List.isChain_cons_cons.mp h).2
      rw [List.length_cons, List.range'_succ, ih htail, hk]

theorem Consecutive.mem_iff (h : Consecutive (first :: ks)) :
    k ∈ first :: ks ↔ first ≤ k ∧ k ≤ first + ks.length := by
  rw [h.eq_range', List.mem_range'_1]
  omega

theorem Consecutive.getLast? (h : Consecutive (first :: ks)) :
    (first :: ks).getLast? = some (first + ks.length) := by
  rw [h.eq_range', List.getLast?_range']
  simp

/-! ## The greatest number -/

theorem mem_max? {m : Nat} : m ∈ seen.max? ↔ m ∈ seen ∧ ∀ k ∈ seen, k ≤ m := by
  rw [Option.mem_def, List.max?_eq_some_iff]

theorem mem_min? {m : Nat} : m ∈ seen.min? ↔ m ∈ seen ∧ ∀ k ∈ seen, m ≤ k := by
  rw [Option.mem_def, List.min?_eq_some_iff]

theorem exists_max? (h : k ∈ seen) : ∃ m, m ∈ seen.max? :=
  Option.isSome_iff_exists.mp (List.isSome_max?_of_mem h)

theorem exists_min? (h : k ∈ seen) : ∃ m, m ∈ seen.min? :=
  Option.isSome_iff_exists.mp (List.isSome_min?_of_mem h)

theorem next_snoc (seen : List Nat) (k : Nat) :
    next (seen ++ [k]) = some ((next seen).elim (k + 1) (max · (k + 1))) := by
  unfold next
  cases hmax : seen.max? with
  | none =>
      rw [List.max?_eq_none_iff] at hmax
      rw [hmax]
      rfl
  | some m =>
      have hm := mem_max?.mp (Option.mem_def.mpr hmax)
      have hsnoc : max m k ∈ (seen ++ [k]).max? := by
        rw [mem_max?]
        constructor
        · rcases Nat.le_total m k with hle | hle
          · simp [Nat.max_eq_right hle]
          · simp [Nat.max_eq_left hle, hm.1]
        · intro j hj
          rcases List.mem_append.mp hj with hj | hj
          · have := hm.2 j hj
            omega
          · have := List.mem_singleton.mp hj
            omega
      rw [Option.mem_def.mp hsnoc]
      simp only [Option.map_some, Option.elim_some, Option.some.injEq]
      omega

theorem mem_next {r : Nat} : r ∈ next seen ↔ ∃ m, m ∈ seen.max? ∧ r = m + 1 := by
  rw [next, Option.mem_def, Option.map_eq_some_iff]
  simp only [Option.mem_def, eq_comm]

theorem next_mono {seen' : List Nat} (hsub : seen ⊆ seen') {r : Nat} (hr : r ∈ next seen) :
    ∃ r' ∈ next seen', r ≤ r' := by
  obtain ⟨m, hm, rfl⟩ := mem_next.mp hr
  have hmem := hsub (mem_max?.mp hm).1
  obtain ⟨m', hm'⟩ := exists_max? hmem
  have := (mem_max?.mp hm').2 m hmem
  exact ⟨m' + 1, mem_next.mpr ⟨m', hm', rfl⟩, by omega⟩

/-! ## One more round -/

theorem Filled.append (hseen : Filled seen) (hks : Resumes (next seen) ks) :
    Filled (seen ++ ks) := by
  intro first hfirst k hle g hg hkg
  rcases ks with _ | ⟨s, ks⟩
  · rw [List.append_nil] at hfirst hg ⊢
    exact hseen first hfirst k hle g hg hkg
  have hmem := fun j => hks.consecutive.mem_iff (k := j)
  rcases seen with _ | ⟨first', seen⟩
  · have : s = first := Option.some.inj hfirst
    have := (hmem g).mp hg
    exact (hmem k).mpr (by omega)
  obtain ⟨m, hm⟩ := exists_max? (List.mem_cons_self : first' ∈ first' :: seen)
  have hmax := mem_max?.mp hm
  have hstart : s ≤ m + 1 := hks.start_le (m + 1) (mem_next.mpr ⟨m, hm, rfl⟩) s rfl
  rw [List.mem_append]
  by_cases hkm : k ≤ m
  · exact .inl (hseen first hfirst k hle m hmax.1 hkm)
  · right
    rcases List.mem_append.mp hg with hg | hg
    · have := hmax.2 g hg
      omega
    · have := (hmem g).mp hg
      exact (hmem k).mpr (by omega)

theorem ordConnected_append (hseen : Set.OrdConnected {k | k ∈ seen})
    (hks : Resumes (next seen) ks) :
    Set.OrdConnected {k | k ∈ seen ++ ks} ↔ Meets seen ks := by
  rcases ks with _ | ⟨s, ks⟩
  · simp [Meets, hseen]
  have hmem := fun j => hks.consecutive.mem_iff (k := j)
  have hlast := hks.consecutive.getLast?
  constructor
  · intro hall m hm e he
    rw [hlast] at he
    have he : s + ks.length = e := Option.some.inj he
    by_contra hlt
    have hmin := mem_min?.mp hm
    -- the number after the last of the round would have to be there
    have hgap : e + 1 ∈ seen ++ s :: ks :=
      hall.out (x := e) (List.mem_append_right seen ((hmem e).mpr (by omega)))
        (y := m) (List.mem_append_left _ hmin.1) ⟨by omega, by omega⟩
    rcases List.mem_append.mp hgap with hgap | hgap
    · have := hmin.2 _ hgap
      omega
    · have := (hmem _).mp hgap
      omega
  · intro hmeets
    constructor
    intro a ha b hb k hk
    obtain ⟨hak, hkb⟩ := hk
    simp only [Set.mem_ofPred_eq, List.mem_append] at ha hb ⊢
    by_cases hempty : seen = []
    · subst hempty
      simp only [List.not_mem_nil, false_or] at ha hb ⊢
      have := (hmem a).mp ha
      have := (hmem b).mp hb
      exact (hmem k).mpr (by omega)
    obtain ⟨j, hj⟩ := List.exists_mem_of_ne_nil seen hempty
    obtain ⟨m, hm⟩ := exists_min? hj
    obtain ⟨g, hg⟩ := exists_max? hj
    have hmin := mem_min?.mp hm
    have hmax := mem_max?.mp hg
    have hstart : s ≤ g + 1 := hks.start_le (g + 1) (mem_next.mpr ⟨g, hg, rfl⟩) s rfl
    have hstop : m ≤ s + ks.length + 1 := hmeets m hm _ hlast
    rw [hmem] at ha hb ⊢
    by_cases hin : m ≤ k ∧ k ≤ g
    · exact .inl (hseen.out (x := m) hmin.1 (y := g) hmax.1 ⟨hin.1, hin.2⟩)
    · right
      -- below the least or above the greatest, the bounds themselves come from the round
      rcases ha with ha | ha
      · have := hmin.2 a ha
        rcases hb with hb | hb
        · have := hmax.2 b hb
          omega
        · omega
      · rcases hb with hb | hb
        · have := hmax.2 b hb
          omega
        · omega

/-! ## All rounds -/

def Resumed (rounds : List (List Nat)) : Prop :=
  Along (fun before ks => Resumes (next before.flatten) ks) rounds

variable {rounds : List (List Nat)}

/-- Nothing above the first entry is ever missing. -/
theorem filled_of_resumed (h : Resumed rounds) : Filled rounds.flatten := by
  induction rounds using List.reverseRecOn with
  | nil =>
      intro first hfirst
      cases hfirst
  | append_singleton rounds ks ih =>
      have hsplit := along_snoc.mp h
      rw [List.flatten_append, List.flatten_singleton]
      exact (ih hsplit.1).append hsplit.2

/-- The numbers are in one piece after every round exactly when every round reaches the least
number before it. -/
theorem contiguous_iff_meets (h : Resumed rounds) :
    (∀ before, before <+: rounds → Set.OrdConnected {k | k ∈ before.flatten}) ↔
      Along (fun before ks => Meets before.flatten ks) rounds := by
  induction rounds using List.reverseRecOn with
  | nil => simp [Set.ordConnected_empty]
  | append_singleton rounds ks ih =>
      have hsplit := along_snoc.mp h
      have hrec := ih hsplit.1
      rw [along_snoc, ← hrec]
      constructor
      · intro hall
        have hbefore : ∀ before, before <+: rounds → Set.OrdConnected {k | k ∈ before.flatten} :=
          fun before hb => hall before (hb.trans (List.prefix_append _ _))
        have hwhole := hall (rounds ++ [ks]) (List.prefix_refl _)
        rw [List.flatten_append, List.flatten_singleton] at hwhole
        exact ⟨hbefore, (ordConnected_append (hbefore rounds (List.prefix_refl _))
          hsplit.2).mp hwhole⟩
      · intro hboth before hb
        rcases List.prefix_concat_iff.mp hb with heq | hlt
        · rw [heq, List.flatten_append, List.flatten_singleton]
          exact (ordConnected_append (hboth.1 rounds (List.prefix_refl _)) hsplit.2).mpr hboth.2
        · exact hboth.1 before hlt

end FeedBench.Lib
