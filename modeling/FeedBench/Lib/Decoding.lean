import Mathlib.Data.List.Basic
import Mathlib.Data.List.Infix

/-!
# Decodings of streams

What a code means before all of it is there.  More input only adds output, so a decoding can be
computed while the input arrives, and a complete code has no continuation.  A transducer gives
one.
-/

namespace FeedBench.Lib

variable {α β σ : Type*}

structure Decoding (α β : Type*) where
  /-- The output of an input that is the beginning of a code. -/
  decode : List α → Option (List β)
  Complete : List α → Prop
  decode_nil : decode [] = some []
  decode_append : ∀ {as bs ys}, decode (as ++ bs) = some ys → ∃ xs, decode as = some xs ∧ xs <+: ys
  complete_append : ∀ {as bs ys}, Complete as → decode (as ++ bs) = some ys → bs = []

namespace Decoding

variable (D : Decoding α β) {as bs : List α} {xs ys : List β}

/-- Some of the output of the input has not been sent. -/
def Pending (as : List α) (sent : Nat) : Prop := ∃ ys, D.decode as = some ys ∧ sent < ys.length

variable {D}

theorem prefix_of_decode (h : D.decode as = some xs) (h' : D.decode (as ++ bs) = some ys) :
    xs <+: ys := by
  obtain ⟨xs', hxs', hpre⟩ := D.decode_append h'
  rw [h] at hxs'
  rwa [Option.some.inj hxs']

theorem pending_iff (h : D.decode as = some ys) {sent : Nat} :
    D.Pending as sent ↔ sent < ys.length := by
  constructor
  · rintro ⟨ys', hys', hlt⟩
    rw [h] at hys'
    rwa [Option.some.inj hys']
  · intro hlt
    exact ⟨ys, h, hlt⟩

end Decoding

theorem drop_append_drop_of_isPrefix {xs ys : List β} (h : xs <+: ys) {k : Nat}
    (hk : k ≤ xs.length) : xs.drop k ++ ys.drop xs.length = ys.drop k := by
  obtain ⟨zs, rfl⟩ := h
  rw [List.drop_left, List.drop_append_of_le_length hk]

/-! ## Transducers -/

structure Transducer (σ α β : Type*) where
  start : σ
  step : σ → α → Option (σ × List β)
  /-- Nothing follows this state. -/
  last : σ → Bool
  step_last : ∀ s a, last s = true → step s a = none

namespace Transducer

variable (T : Transducer σ α β) {s s' : σ} {as bs : List α} {xs ys : List β}

def run : σ → List α → Option (σ × List β)
  | s, [] => some (s, [])
  | s, a :: as =>
      match T.step s a with
      | none => none
      | some (s', xs) => (run s' as).map fun (t, ys) => (t, xs ++ ys)

variable {T}

theorem run_append (h : T.run s as = some (s', xs)) (bs : List α) :
    T.run s (as ++ bs) = (T.run s' bs).map fun (t, ys) => (t, xs ++ ys) := by
  induction as generalizing s xs with
  | nil =>
      obtain ⟨rfl, rfl⟩ := Prod.mk.inj (Option.some.inj h)
      simp
  | cons a as ih =>
      rw [run] at h
      rw [List.cons_append, run]
      cases hstep : T.step s a with
      | none =>
          rw [hstep] at h
          cases h
      | some p =>
          rw [hstep] at h
          obtain ⟨⟨t, zs⟩, hrun, heq⟩ := Option.map_eq_some_iff.mp h
          obtain ⟨rfl, rfl⟩ := Prod.mk.inj heq
          simp [ih hrun, Function.comp_def]

theorem run_append_none (h : T.run s as = none) (bs : List α) : T.run s (as ++ bs) = none := by
  induction as generalizing s with
  | nil => cases h
  | cons a as ih =>
      rw [run] at h
      rw [List.cons_append, run]
      cases hstep : T.step s a with
      | none => rfl
      | some p =>
          rw [hstep] at h
          simp [ih (Option.map_eq_none_iff.mp h)]

/-- A run over two inputs is a run over the first and one over the second. -/
theorem run_split {t : σ} {zs : List β} (h : T.run s (as ++ bs) = some (t, zs)) :
    ∃ s' xs ys, T.run s as = some (s', xs) ∧ T.run s' bs = some (t, ys) ∧ zs = xs ++ ys := by
  cases hrun : T.run s as with
  | none =>
      rw [run_append_none hrun] at h
      cases h
  | some p =>
      obtain ⟨s', xs⟩ := p
      rw [run_append hrun] at h
      obtain ⟨⟨t', ys⟩, hrest, heq⟩ := Option.map_eq_some_iff.mp h
      obtain ⟨rfl, rfl⟩ := Prod.mk.inj heq
      exact ⟨s', xs, ys, rfl, hrest, rfl⟩

variable (T)

def decoding : Decoding α β where
  decode as := (T.run T.start as).map Prod.snd
  Complete as := ∃ s xs, T.run T.start as = some (s, xs) ∧ T.last s = true
  decode_nil := rfl
  decode_append := by
    intro as bs ys h
    obtain ⟨⟨t, zs⟩, hrun, rfl⟩ := Option.map_eq_some_iff.mp h
    obtain ⟨s', xs, ys, hfirst, -, rfl⟩ := run_split hrun
    exact ⟨xs, by rw [hfirst]; rfl, List.prefix_append xs ys⟩
  complete_append := by
    rintro as bs ys ⟨s, xs, hrun, hlast⟩ h
    rw [run_append hrun] at h
    cases bs with
    | nil => rfl
    | cons b bs =>
        rw [run, T.step_last s b hlast] at h
        cases h

variable {T}

theorem decode_of_run (h : T.run T.start as = some (s, xs)) : T.decoding.decode as = some xs :=
  congrArg (Option.map Prod.snd) h

theorem complete_of_run (h : T.run T.start as = some (s, xs)) :
    T.decoding.Complete as ↔ T.last s = true := by
  constructor
  · rintro ⟨s', xs', hrun, hlast⟩
    rw [h] at hrun
    obtain ⟨rfl, -⟩ := Prod.mk.inj (Option.some.inj hrun)
    exact hlast
  · intro hlast
    exact ⟨s, xs, h, hlast⟩

theorem run_of_decode (h : T.run T.start as = some (s, xs))
    (hys : T.decoding.decode (as ++ bs) = some ys) :
    ∃ s' zs, T.run s bs = some (s', zs) ∧ T.run T.start (as ++ bs) = some (s', ys) ∧
      ys = xs ++ zs := by
  obtain ⟨⟨s', ys⟩, hrun, rfl⟩ := Option.map_eq_some_iff.mp hys
  obtain ⟨t, xs', zs, hfirst, hrest, rfl⟩ := run_split hrun
  rw [h] at hfirst
  obtain ⟨rfl, rfl⟩ := Prod.mk.inj (Option.some.inj hfirst)
  exact ⟨s', zs, hrest, hrun, rfl⟩

end Transducer

end FeedBench.Lib
