import Mathlib.Data.List.Basic

/-!
# Machines with outputs

A machine answers each input by the state it is in.  What holds in every state it can be in
holds of every answer, and an input that leads to one state from everywhere makes the answers
after it independent of what came before.
-/

namespace FeedBench.Lib

structure Mealy (σ α β : Type*) where
  next : σ → α → σ
  out : σ → α → β

namespace Mealy

variable {σ α β : Type*} (M : Mealy σ α β)

def outputs : σ → List α → List β
  | _, [] => []
  | s, a :: as => M.out s a :: outputs (M.next s a) as

def after (s : σ) (as : List α) : σ := as.foldl M.next s

theorem after_cons (s : σ) (a : α) (as : List α) :
    M.after s (a :: as) = M.after (M.next s a) as := rfl

@[simp] theorem length_outputs (s : σ) (as : List α) : (M.outputs s as).length = as.length := by
  induction as generalizing s with
  | nil => rfl
  | cons a as ih => rw [outputs, List.length_cons, ih, List.length_cons]

theorem outputs_append (s : σ) (as bs : List α) :
    M.outputs s (as ++ bs) = M.outputs s as ++ M.outputs (M.after s as) bs := by
  induction as generalizing s with
  | nil => rfl
  | cons a as ih =>
      rw [List.cons_append, outputs, ih, outputs]
      rfl

theorem drop_outputs (s : σ) (as bs : List α) :
    (M.outputs s (as ++ bs)).drop as.length = M.outputs (M.after s as) bs := by
  rw [outputs_append, List.drop_left' (M.length_outputs s as)]

/-- The inputs and answers of a run. -/
def Run (s : σ) (turns : List (α × β)) : Prop :=
  turns.map Prod.snd = M.outputs s (turns.map Prod.fst)

variable {M} {s s' : σ} {a : α} {b : β} {turns turns' : List (α × β)}

theorem Run.nil : M.Run s [] := rfl

theorem run_cons : M.Run s ((a, b) :: turns) ↔ b = M.out s a ∧ M.Run (M.next s a) turns := by
  unfold Run
  rw [List.map_cons, List.map_cons, outputs, List.cons.injEq]

/-- What an invariant says of each answer holds throughout a run. -/
theorem Run.forall_mem (h : M.Run s turns) {I : σ → Prop} {P : α × β → Prop}
    (hnext : ∀ s a, I s → I (M.next s a)) (hout : ∀ s a, I s → P (a, M.out s a)) (hs : I s) :
    ∀ t ∈ turns, P t := by
  induction turns generalizing s with
  | nil => exact List.forall_mem_nil P
  | cons t turns ih =>
      obtain ⟨a, b⟩ := t
      obtain ⟨rfl, htail⟩ := run_cons.mp h
      exact List.forall_mem_cons.mpr ⟨hout s a hs, ih htail (hnext s a hs)⟩

theorem Run.drop (h : M.Run s turns) {as bs : List α} (hturns : turns.map Prod.fst = as ++ bs) :
    (turns.map Prod.snd).drop as.length = M.outputs (M.after s as) bs := by
  unfold Run at h
  rw [h, hturns, drop_outputs]

/-- An input that is answered alike and leads to one state makes two runs agree from it on. -/
theorem Run.agree {as as' bs : List α} (h : M.Run s turns) (h' : M.Run s' turns')
    (hturns : turns.map Prod.fst = as ++ a :: bs) (hturns' : turns'.map Prod.fst = as' ++ a :: bs)
    (hnext : M.next (M.after s as) a = M.next (M.after s' as') a)
    (hout : M.out (M.after s as) a = M.out (M.after s' as') a) :
    (turns.map Prod.snd).drop as.length = (turns'.map Prod.snd).drop as'.length := by
  rw [h.drop hturns, h'.drop hturns', outputs, outputs, hnext, hout]

end Mealy

end FeedBench.Lib
