import FeedBench.Lib.Arrivals
import Mathlib.Data.List.AList
import Mathlib.Data.List.FinRange

/-!
# Renaming tables

What a permutation of the slots does to a table of slots, and what a map of the values does to
an association list.  Writing a slot and inserting a value commute with both, and so do the
least and the greatest value when the map is monotone.
-/

namespace FeedBench.Lib

/-! ## Association lists -/

section Values

variable {κ β γ : Type*}

def mapVals (f : β → γ) (m : AList fun _ : κ => β) : AList fun _ : κ => γ where
  entries := m.entries.map fun e => ⟨e.1, f e.2⟩
  nodupKeys := by
    have hkeys : (m.entries.map fun e => (⟨e.1, f e.2⟩ : Sigma fun _ : κ => γ)).keys =
        m.entries.keys := by
      rw [List.keys, List.keys, List.map_map]
      rfl
    rw [List.NodupKeys, hkeys]
    exact m.nodupKeys

@[simp] theorem mapVals_empty (f : β → γ) : mapVals f (∅ : AList fun _ : κ => β) = ∅ := rfl

variable [DecidableEq κ]

theorem lookup_mapVals (f : β → γ) (m : AList fun _ : κ => β) (k : κ) :
    (mapVals f m).lookup k = (m.lookup k).map f :=
  List.dlookup_map₂ (f := fun _ : κ => f) k

theorem kerase_map (f : β → γ) (k : κ) (l : List (Sigma fun _ : κ => β)) :
    (l.map fun e => (⟨e.1, f e.2⟩ : Sigma fun _ : κ => γ)).kerase k =
      (l.kerase k).map fun e => ⟨e.1, f e.2⟩ := by
  induction l with
  | nil => rfl
  | cons e l ih =>
      obtain ⟨k', b⟩ := e
      rw [List.map_cons]
      by_cases hk : k = k'
      · rw [List.kerase_cons_eq hk, List.kerase_cons_eq hk]
      · rw [List.kerase_cons_ne hk, List.kerase_cons_ne hk, List.map_cons, ih]

theorem mapVals_insert (f : β → γ) (m : AList fun _ : κ => β) (k : κ) (v : β) :
    mapVals f (m.insert k v) = (mapVals f m).insert k (f v) := by
  apply AList.ext
  show (m.insert k v).entries.map (fun e => (⟨e.1, f e.2⟩ : Sigma fun _ : κ => γ)) = _
  rw [AList.entries_insert, AList.entries_insert, List.map_cons]
  exact congrArg _ (kerase_map f k m.entries).symm

end Values

/-! ## Slots -/

section Slots

variable {n : Nat} {α : Type*} (σ : Equiv.Perm (Fin n))

def moved (v : Vector α n) : Vector α n := .ofFn fun s => v.get (σ.symm s)

@[simp] theorem get_moved (v : Vector α n) (s : Fin n) : (moved σ v).get s = v.get (σ.symm s) :=
  get_ofFn _ s

theorem get_moved_apply (v : Vector α n) (s : Fin n) : (moved σ v).get (σ s) = v.get s := by
  rw [get_moved, Equiv.symm_apply_apply]

theorem moved_set (v : Vector α n) (s : Fin n) (a : α) :
    moved σ (v.set s a s.isLt) = (moved σ v).set (σ s) a (σ s).isLt := by
  apply ext_get
  intro s'
  rw [get_moved, get_set, get_set, get_moved]
  by_cases h : s = σ.symm s'
  · rw [if_pos h, if_pos (by rw [h, Equiv.apply_symm_apply])]
  · rw [if_neg h, if_neg fun heq => h (by rw [← heq, Equiv.symm_apply_apply])]

@[simp] theorem moved_replicate (a : α) : moved σ (Vector.replicate n a) = Vector.replicate n a := by
  apply ext_get
  intro s
  simp

theorem toList_moved_perm (v : Vector α n) : (moved σ v).toList.Perm v.toList := by
  have hmap : (moved σ v).toList = ((List.finRange n).map σ.symm).map v.get := by
    rw [toList_eq_map, List.map_map]
    apply List.map_congr_left
    intro s _
    exact get_moved σ v s
  rw [hmap, toList_eq_map]
  exact (Equiv.Perm.map_finRange_perm σ.symm).map v.get

theorem all_moved (v : Vector α n) (p : α → Bool) :
    (moved σ v).toList.all p = v.toList.all p :=
  (toList_moved_perm σ v).all_eq

theorem any_moved (v : Vector α n) (p : α → Bool) :
    (moved σ v).toList.any p = v.toList.any p :=
  (toList_moved_perm σ v).any_eq

end Slots

/-! ## Least and greatest values -/

section Extremes

variable {T : Type*} [LinearOrder T] {l l' : List T}

theorem max?_perm (h : l.Perm l') : l.max? = l'.max? := by
  cases hmax : l'.max? with
  | none =>
      rw [List.max?_eq_none_iff] at hmax ⊢
      rw [hmax] at h
      exact h.eq_nil
  | some t =>
      rw [List.max?_eq_some_iff] at hmax ⊢
      refine ⟨h.mem_iff.mpr hmax.1, ?_⟩
      intro t' ht'
      exact hmax.2 t' (h.mem_iff.mp ht')

theorem min?_perm (h : l.Perm l') : l.min? = l'.min? := by
  cases hmin : l'.min? with
  | none =>
      rw [List.min?_eq_none_iff] at hmin ⊢
      rw [hmin] at h
      exact h.eq_nil
  | some t =>
      rw [List.min?_eq_some_iff] at hmin ⊢
      refine ⟨h.mem_iff.mpr hmin.1, ?_⟩
      intro t' ht'
      exact hmin.2 t' (h.mem_iff.mp ht')

variable {T' : Type*} [LinearOrder T'] {φ : T → T'}

theorem max?_map (hφ : Monotone φ) (l : List T) : (l.map φ).max? = l.max?.map φ := by
  cases hmax : l.max? with
  | none =>
      rw [List.max?_eq_none_iff] at hmax
      rw [hmax]
      rfl
  | some t =>
      rw [List.max?_eq_some_iff] at hmax
      rw [Option.map_some, List.max?_eq_some_iff]
      refine ⟨List.mem_map_of_mem hmax.1, ?_⟩
      intro t' ht'
      obtain ⟨a, ha, rfl⟩ := List.mem_map.mp ht'
      exact hφ (hmax.2 a ha)

theorem min?_map (hφ : Monotone φ) (l : List T) : (l.map φ).min? = l.min?.map φ := by
  cases hmin : l.min? with
  | none =>
      rw [List.min?_eq_none_iff] at hmin
      rw [hmin]
      rfl
  | some t =>
      rw [List.min?_eq_some_iff] at hmin
      rw [Option.map_some, List.min?_eq_some_iff]
      refine ⟨List.mem_map_of_mem hmin.1, ?_⟩
      intro t' ht'
      obtain ⟨a, ha, rfl⟩ := List.mem_map.mp ht'
      exact hφ (hmin.2 a ha)

end Extremes

end FeedBench.Lib
