import FeedBench.Inflate.Inflater
import FeedBench.Lib.Decoding

/-!
# The decompressor

What is assumed of the decompressor, and a family of decompressors of which it holds: those that
run a transducer and keep what does not fit.
-/

namespace FeedBench.Inflate

open Lib

/-! ## The decompressor -/

/-- What one call does after the bytes `fed`, of whose output `sent` bytes are appended. -/
structure Advances {State : Type} (D : Decoding UInt8 UInt8) (fed : List UInt8) (sent : Nat)
    (input : List UInt8) (call : Call State) : Prop where
  /-- The next part of the output is appended. -/
  appended : ∀ ys, D.decode (fed ++ input.take call.consumed) = some ys →
    call.appended <+: ys.drop sent
  /-- The stream ends with the last byte of its output. -/
  ended : call.status = .streamEnd ↔ D.Complete (fed ++ input.take call.consumed) ∧
    ¬ D.Pending (fed ++ input.take call.consumed) (sent + call.appended.length)
  /-- Something is done if there is anything to do. -/
  progress : input ≠ [] ∨ D.Pending fed sent → 0 < call.consumed ∨ call.appended ≠ []

variable {Z : Decompress}

/-- What is assumed of the decompressor: its output is that of a decoding, with the dictionary or
without.  `At st dict fed sent` says what there has been since the last reset: whether the
dictionary was set, the bytes that were taken, and how many were appended. -/
structure Decodes (Z : Decompress) (D : Bool → Decoding UInt8 UInt8)
    (At : Z.State → Bool → List UInt8 → Nat → Prop) : Prop where
  reset : ∀ st, At (Z.reset st) false [] 0
  setDictionary : ∀ st, At st false [] 0 → ∃ st', Z.setDictionary st = .ok st' ∧ At st' true [] 0
  decompress : ∀ st dict fed sent input spare ys, At st dict fed sent → 0 < spare →
    (D dict).decode (fed ++ input) = some ys →
    ∃ call, Z.decompress st input spare = .ok call ∧
      At call.state dict (fed ++ input.take call.consumed) (sent + call.appended.length) ∧
      Advances (D dict) fed sent input call

/-- A call that takes all of its input appends something, if anything is left to append. -/
def Prompt (Z : Decompress) (D : Bool → Decoding UInt8 UInt8)
    (At : Z.State → Bool → List UInt8 → Nat → Prop) : Prop :=
  ∀ st dict fed sent input spare call, At st dict fed sent → 0 < spare →
    Z.decompress st input spare = .ok call → call.consumed = input.length →
    (D dict).Pending (fed ++ input) sent → call.appended ≠ []

/-! ## One call -/

section Call

variable {D : Bool → Decoding UInt8 UInt8} {At : Z.State → Bool → List UInt8 → Nat → Prop}

structure Serves (D : Decoding UInt8 UInt8) (fed : List UInt8) (sent : Nat)
    (input ys : List UInt8) (call : Call Z.State) : Prop where
  length_le : sent + call.appended.length ≤ ys.length
  appended : call.appended ++ ys.drop (sent + call.appended.length) = ys.drop sent
  /-- The stream ends with everything taken and appended. -/
  ended : call.status = .streamEnd ↔ input.drop call.consumed = [] ∧ D.Complete (fed ++ input) ∧
    sent + call.appended.length = ys.length
  progress : input.drop call.consumed ≠ [] → 0 < call.consumed ∨ call.appended ≠ []

theorem append_drop_of_isPrefix {α : Type*} {xs ys : List α} {k : Nat} (h : xs <+: ys.drop k) :
    xs ++ ys.drop (k + xs.length) = ys.drop k := by
  obtain ⟨zs, hzs⟩ := h
  rw [← List.drop_drop, ← hzs, List.drop_left]

theorem Advances.serves {D : Decoding UInt8 UInt8} {fed input ys : List UInt8} {sent : Nat}
    {call : Call Z.State} (h : Advances D fed sent input call)
    (hys : D.decode (fed ++ input) = some ys) (hsent : sent ≤ ys.length) :
    Serves D fed sent input ys call := by
  have hsplit : fed ++ input.take call.consumed ++ input.drop call.consumed = fed ++ input := by
    rw [List.append_assoc, List.take_append_drop]
  have hall := hys
  rw [← hsplit] at hall
  obtain ⟨xs, hxs, hpre⟩ := D.decode_append hall
  have happended : call.appended <+: ys.drop sent :=
    (h.appended xs hxs).trans (hpre.drop sent)
  have hlength : sent + call.appended.length ≤ ys.length := by
    have hshort := happended.length_le
    rw [List.length_drop] at hshort
    omega
  have htaken : input.drop call.consumed = [] → fed ++ input.take call.consumed = fed ++ input := by
    intro hrest
    rw [← hsplit, hrest, List.append_nil]
  constructor
  · exact hlength
  · exact append_drop_of_isPrefix happended
  · rw [h.ended]
    constructor
    · rintro ⟨hcomplete, hnothing⟩
      have hrest := D.complete_append hcomplete hall
      rw [htaken hrest] at hcomplete hnothing
      rw [Decoding.pending_iff hys] at hnothing
      exact ⟨hrest, hcomplete, by omega⟩
    · rintro ⟨hrest, hcomplete, hsum⟩
      rw [htaken hrest, Decoding.pending_iff hys]
      exact ⟨hcomplete, by omega⟩
  · intro hrest
    apply h.progress
    left
    rintro rfl
    exact hrest List.drop_nil

variable {fed input ys : List UInt8} {sent : Nat} {call : Call Z.State}

theorem Serves.moves {D : Decoding UInt8 UInt8} (h : Serves D fed sent input ys call)
    (hidle : ¬ (input.drop call.consumed = [] ∧ call.appended = [])) :
    0 < call.consumed ∨ call.appended ≠ [] := by
  by_cases hrest : input.drop call.consumed = []
  · right
    intro hnone
    exact hidle ⟨hrest, hnone⟩
  · exact h.progress hrest

theorem Serves.less {D : Decoding UInt8 UInt8} (h : Serves D fed sent input ys call)
    (hle : call.consumed ≤ input.length)
    (hidle : ¬ (input.drop call.consumed = [] ∧ call.appended = [])) :
    (input.drop call.consumed).length + (ys.length - (sent + call.appended.length)) <
      input.length + (ys.length - sent) := by
  have hlength := h.length_le
  rw [List.length_drop]
  rcases h.moves hidle with hpos | hsome
  · omega
  · have hpos := List.length_pos_iff.mpr hsome
    omega

/-- An idle call of a prompt decompressor has everything appended, and the stream goes on. -/
theorem Serves.idle {dict : Bool} {st : Z.State} {spare : Nat}
    (h : Serves (D dict) fed sent input ys call) (hprompt : Prompt Z D At)
    (hat : At st dict fed sent) (hspare : 0 < spare)
    (hcall : Z.decompress st input spare = .ok call)
    (hys : (D dict).decode (fed ++ input) = some ys) (hend : call.status ≠ .streamEnd)
    (hrest : input.drop call.consumed = []) (hnone : call.appended = []) :
    sent = ys.length ∧ ¬ (D dict).Complete (fed ++ input) := by
  have hlength := h.length_le
  have hle := Z.consumed_le _ _ _ _ hcall
  have hshort := List.drop_eq_nil_iff.mp hrest
  have hdone : sent = ys.length := by
    by_contra hmore
    apply hprompt _ _ _ _ _ _ _ hat hspare hcall (by omega) ?_ hnone
    rw [Decoding.pending_iff hys]
    omega
  refine ⟨hdone, ?_⟩
  intro hcomplete
  apply hend
  rw [h.ended, hnone]
  exact ⟨hrest, hcomplete, hdone⟩

end Call

/-! ## Decompressors that run a transducer -/

structure Buffer (σ : Type) where
  state : σ
  kept : List UInt8

section Buffered

variable {σ : Type} (T : Transducer σ UInt8 UInt8) (lazy : Bool)

/-- How much a call appends at most.  A lazy decompressor appends nothing while there is input. -/
def allowance (input : List UInt8) (spare : Nat) : Nat :=
  if lazy && !input.isEmpty then 0 else spare

theorem allowance_le (input : List UInt8) (spare : Nat) : allowance lazy input spare ≤ spare := by
  unfold allowance
  split
  · exact Nat.zero_le spare
  · exact le_rfl

theorem allowance_nil {input : List UInt8} (h : input = []) (spare : Nat) :
    allowance lazy input spare = spare := by
  rw [h, allowance, List.isEmpty_nil, Bool.not_true, Bool.and_false]
  rfl

/-- All input is taken, and what does not fit is kept for later calls. -/
def buffered : Decompress where
  State := Buffer σ
  new := ⟨T.start, []⟩
  reset _ := ⟨T.start, []⟩
  setDictionary st := .ok st
  decompress st input spare :=
    match T.run st.state input with
    | none => .error "corrupt deflate stream"
    | some (state, out) =>
        let kept := st.kept ++ out
        let k := allowance lazy input spare
        .ok {
          status := if T.last state ∧ kept.length ≤ k then .streamEnd else .ok
          consumed := input.length
          appended := kept.take k
          state := ⟨state, kept.drop k⟩ }
  consumed_le := by
    intro st input spare call h
    cases hrun : T.run st.state input with
    | none =>
        rw [hrun] at h
        cases h
    | some p =>
        rw [hrun] at h
        cases h
        exact le_rfl
  appended_le := by
    intro st input spare call h
    cases hrun : T.run st.state input with
    | none =>
        rw [hrun] at h
        cases h
    | some p =>
        rw [hrun] at h
        cases h
        rw [List.length_take]
        exact (Nat.min_le_left _ _).trans (allowance_le lazy input spare)

def Buffer.At (st : Buffer σ) (_dict : Bool) (fed : List UInt8) (sent : Nat) : Prop :=
  ∃ out, T.run T.start fed = some (st.state, out) ∧ sent ≤ out.length ∧ out.drop sent = st.kept

variable {T lazy} {st : Buffer σ} {input fed out o : List UInt8} {s : σ} {spare sent : Nat}

theorem buffered_decompress (h : T.run st.state input = some (s, o)) :
    (buffered T lazy).decompress st input spare = .ok {
      status := if T.last s ∧ (st.kept ++ o).length ≤ allowance lazy input spare then .streamEnd
        else .ok
      consumed := input.length
      appended := (st.kept ++ o).take (allowance lazy input spare)
      state := (⟨s, (st.kept ++ o).drop (allowance lazy input spare)⟩ : Buffer σ) } := by
  show (match T.run st.state input with
    | none => _
    | some (state, out) => _) = _
  rw [h]
  rfl

theorem drop_length_take {α : Type*} (xs : List α) (k : Nat) :
    xs.drop (xs.take k).length = xs.drop k := by
  rw [List.length_take]
  rcases Nat.le_total k xs.length with h | h
  · rw [Nat.min_eq_left h]
  · rw [Nat.min_eq_right h, List.drop_length, List.drop_eq_nil_of_le h]

theorem kept_append (hsent : sent ≤ out.length) (hkept : out.drop sent = st.kept) (o : List UInt8) :
    st.kept ++ o = (out ++ o).drop sent := by
  rw [← hkept, List.drop_append_of_le_length hsent]

theorem buffered_decodes (T : Transducer σ UInt8 UInt8) (lazy : Bool) :
    Decodes (buffered T lazy) (fun _ => T.decoding) (Buffer.At T) := by
  constructor
  · intro st
    exact ⟨[], rfl, le_rfl, rfl⟩
  · intro st hat
    exact ⟨st, rfl, hat⟩
  · rintro st dict fed sent input spare ys ⟨out, hfed, hsent, hkept⟩ hspare hys
    obtain ⟨s, o, ho, hrun, rfl⟩ := Transducer.run_of_decode hfed hys
    have hlong : out.length ≤ (out ++ o).length := by
      rw [List.length_append]
      omega
    refine ⟨_, buffered_decompress ho, ?_, ?_⟩
    · dsimp only
      rw [List.take_length, kept_append hsent hkept]
      refine ⟨out ++ o, hrun, ?_, ?_⟩
      · rw [List.length_take, List.length_drop]
        omega
      · rw [← List.drop_drop, drop_length_take]
    · constructor
      · intro ys' hys'
        dsimp only at hys' ⊢
        rw [List.take_length, hys] at hys'
        obtain rfl := Option.some.inj hys'
        rw [kept_append hsent hkept]
        exact List.take_prefix _ _
      · dsimp only
        rw [List.take_length, Transducer.complete_of_run hrun, Decoding.pending_iff hys,
          kept_append hsent hkept, List.length_take, List.length_drop]
        constructor
        · intro hend
          split at hend
          next hlast => exact ⟨hlast.1, by omega⟩
          next => cases hend
        · rintro ⟨hlast, hnothing⟩
          rw [if_pos ⟨hlast, by omega⟩]
      · dsimp only
        intro hdue
        by_cases hinput : input = []
        · right
          obtain hpending : T.decoding.Pending fed sent := hdue.resolve_left (absurd hinput)
          rw [Decoding.pending_iff (Transducer.decode_of_run hfed)] at hpending
          rw [kept_append hsent hkept, allowance_nil lazy hinput, ← List.length_pos_iff,
            List.length_take, List.length_drop]
          omega
        · left
          exact List.length_pos_iff.mpr hinput

theorem buffered_prompt (T : Transducer σ UInt8 UInt8) :
    Prompt (buffered T false) (fun _ => T.decoding) (Buffer.At T) := by
  rintro st dict fed sent input spare call ⟨out, hfed, hsent, hkept⟩ hspare hcall - hpending
  obtain ⟨ys, hys, hmore⟩ := hpending
  obtain ⟨s, o, ho, -, rfl⟩ := Transducer.run_of_decode hfed hys
  rw [buffered_decompress ho] at hcall
  obtain rfl := Except.ok.inj hcall
  have hroom : allowance false input spare = spare := rfl
  dsimp only
  rw [kept_append hsent hkept, hroom, ← List.length_pos_iff, List.length_take, List.length_drop]
  omega

end Buffered

/-! ### Stored blocks -/

inductive Stored where
  | header
  /-- Reading the length and its complement. -/
  | size (last : Bool) (bytes : List UInt8)
  | data (last : Bool) (left : Nat)
  | done
  deriving DecidableEq

def Stored.after (last : Bool) : Nat → Stored
  | 0 => if last then .done else .header
  | left + 1 => .data last (left + 1)

/-- One byte of stored blocks.  Compressed blocks are not known. -/
def Stored.step : Stored → UInt8 → Option (Stored × List UInt8)
  | .header, b => if b ≤ 1 then some (.size (b == 1) [], []) else none
  | .size last [l₀, l₁, n₀], b =>
      if l₀ ^^^ n₀ = 0xFF ∧ l₁ ^^^ b = 0xFF then
        some (.after last (l₀.toNat + 256 * l₁.toNat), [])
      else none
  | .size last bytes, b => some (.size last (bytes ++ [b]), [])
  | .data last (left + 1), b => some (.after last left, [b])
  | .data _ 0, _ => none
  | .done, _ => none

def stored : Transducer Stored UInt8 UInt8 where
  start := .header
  step := Stored.step
  last s := s = .done
  step_last := by
    intro s b hlast
    obtain rfl : s = .done := of_decide_eq_true hlast
    rfl

end FeedBench.Inflate
