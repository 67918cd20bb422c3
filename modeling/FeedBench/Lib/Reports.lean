import Mathlib.Algebra.GroupWithZero.Nat
import Mathlib.Data.List.AList
import Mathlib.Data.List.Perm.Subperm
import Mathlib.Data.List.Flatten

/-!
# Reports that share out a set

`Shares reports keys`: each of `keys` is on exactly one of the reports and nothing else is
on any.  `shares_iff` puts this by counting: each key on exactly one report, and the report
lengths adding up to the number of keys.
-/

namespace FeedBench.Lib

section Shares

variable {α : Type*} [DecidableEq α] {reports : List (List α)} {report keys keys' : List α}

/-- Every key is on one report, and everything else on none. -/
def Shares (reports : List (List α)) (keys : List α) : Prop :=
  ∀ k, reports.countP (fun report => decide (k ∈ report)) = if k ∈ keys then 1 else 0

theorem countP_mem_eq_count (h : ∀ report ∈ reports, report.Nodup) (k : α) :
    reports.countP (fun report => decide (k ∈ report)) = reports.flatten.count k := by
  induction reports with
  | nil => rfl
  | cons report reports ih =>
      have hhead := h report (by simp)
      have htail := ih fun report hr => h report (List.mem_cons_of_mem _ hr)
      rw [List.countP_cons, htail, List.flatten_cons, List.count_append, hhead.count]
      simp only [decide_eq_true_eq]
      omega

theorem shares_iff (h : ∀ report ∈ reports, report.Nodup) (hkeys : keys.Nodup) :
    Shares reports keys ↔
      (∀ k ∈ keys, reports.countP (fun report => decide (k ∈ report)) = 1) ∧
        (reports.map List.length).sum = keys.length := by
  have hcount : ∀ k, keys.count k = if k ∈ keys then 1 else 0 := fun k => hkeys.count
  constructor
  · intro hshares
    constructor
    · intro k hk
      rw [hshares k, if_pos hk]
    · rw [← List.length_flatten]
      apply List.Perm.length_eq
      rw [List.perm_iff_count]
      intro k
      rw [← countP_mem_eq_count h, hshares k, hcount]
  · intro hone k
    obtain ⟨honce, htotal⟩ := hone
    have hsub : keys ⊆ reports.flatten := by
      intro k hk
      have := honce k hk
      rw [countP_mem_eq_count h] at this
      exact List.count_pos_iff.mp (by omega)
    have hperm : keys.Perm reports.flatten := by
      refine (List.subperm_of_subset hkeys hsub).perm_of_length_le ?_
      rw [List.length_flatten, htotal]
    rw [countP_mem_eq_count h, ← hperm.count_eq, hcount]

theorem Shares.congr_iff (h : Shares reports keys) :
    Shares reports keys' ↔ ∀ k, k ∈ keys' ↔ k ∈ keys := by
  constructor
  · intro h' k
    have := (h k).symm.trans (h' k)
    by_cases hk : k ∈ keys <;> by_cases hk' : k ∈ keys' <;> simp_all
  · intro heq k
    rw [h k]
    simp only [heq]

/-- One more report, of keys that were on none. -/
theorem Shares.snoc (h : Shares reports keys) (hnew : ∀ k ∈ report, k ∉ keys)
    (hkeys' : ∀ k, k ∈ keys' ↔ k ∈ keys ∨ k ∈ report) : Shares (reports ++ [report]) keys' := by
  intro k
  rw [List.countP_append, h k, List.countP_singleton]
  simp only [hkeys']
  by_cases hk : k ∈ report
  · have := hnew k hk
    simp [hk, this]
  · simp [hk]

theorem shares_singleton : Shares [report] keys ↔ ∀ k, k ∈ keys ↔ k ∈ report := by
  constructor
  · intro h k
    have := h k
    rw [List.countP_singleton] at this
    by_cases hk : k ∈ keys <;> by_cases hk' : k ∈ report <;> simp_all
  · intro h k
    rw [List.countP_singleton]
    simp [h]

end Shares

/-! ## Keys of an association list by their values -/

section Keys

variable {α : Type*} {β : α → Type*} (m : AList β) (p : Sigma β → Bool)

def keysWhere : List α := (m.entries.filter p).map Sigma.fst

theorem nodup_keysWhere : (keysWhere m p).Nodup :=
  m.nodupKeys.sublist List.filter_sublist

theorem length_keysWhere : (keysWhere m p).length = m.entries.countP p := by
  rw [keysWhere, List.length_map, List.countP_eq_length_filter]

variable {m p}

theorem mem_keysWhere [DecidableEq α] {k : α} :
    k ∈ keysWhere m p ↔ ∃ v, m.lookup k = some v ∧ p ⟨k, v⟩ = true := by
  unfold keysWhere
  constructor
  · intro h
    obtain ⟨⟨k', v⟩, hmem, rfl⟩ := List.mem_map.mp h
    obtain ⟨hmem, hp⟩ := List.mem_filter.mp hmem
    exact ⟨v, AList.mem_lookup_iff.mpr hmem, hp⟩
  · intro h
    obtain ⟨v, hv, hp⟩ := h
    exact List.mem_map.mpr ⟨⟨k, v⟩, List.mem_filter.mpr ⟨AList.mem_lookup_iff.mp hv, hp⟩, rfl⟩

end Keys

end FeedBench.Lib
