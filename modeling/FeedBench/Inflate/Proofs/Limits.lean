import FeedBench.Inflate.Proofs.Sessions

/-!
# The calls that one message takes

`inflate_message` with the answers of the decompressor written down.  Every call but the last one
takes a byte or appends one, so the calls are bounded by the input and the limit, whatever the
decompressor does.
-/

namespace FeedBench.Inflate

variable {Z : Decompress}

abbrev Answer (Z : Decompress) := Except String (Call Z.State)

def Answer.appended : Answer Z → List UInt8
  | .error _ => []
  | .ok call => call.appended

/-- What the calls appended, over the limit or not. -/
def written (answers : List (Answer Z)) : List UInt8 := answers.flatMap Answer.appended

@[simp] theorem written_append (answers answers' : List (Answer Z)) :
    written (answers ++ answers') = written answers ++ written answers' := List.flatMap_append

@[simp] theorem written_error (e : String) : written ([.error e] : List (Answer Z)) = [] := rfl

@[simp] theorem written_cons (call : Call Z.State) (answers : List (Answer Z)) :
    written (.ok call :: answers) = call.appended ++ written answers := rfl

@[simp] theorem written_singleton (call : Call Z.State) :
    written ([.ok call] : List (Answer Z)) = call.appended := List.append_nil _

namespace Inflater

def runTraced (inf : Inflater Z) (input out : List UInt8) (cap : Nat) :
    List (Answer Z) × Except Error (Bool × Inflater Z × List UInt8 × Nat) :=
  match _hcall : Z.decompress inf.de input (grown out.length cap - out.length) with
  | .error e => ([.error e], .error (.inflate e))
  | .ok call =>
      if inf.max < (out ++ call.appended).length then ([.ok call], .error (.tooLong inf.max))
      else if call.status = .streamEnd then
        ([.ok call], .ok (true, { inf with de := call.state, ended := true },
          out ++ call.appended, grown out.length cap))
      else if (input.drop call.consumed).isEmpty ∧ call.appended.isEmpty then
        ([.ok call], .ok (false, { inf with de := call.state }, out ++ call.appended,
          grown out.length cap))
      else if call.consumed = 0 ∧ call.appended.isEmpty then ([.ok call], .error .noProgress)
      else
        (.ok call :: (runTraced { inf with de := call.state } (input.drop call.consumed)
            (out ++ call.appended) (grown out.length cap)).1,
          (runTraced { inf with de := call.state } (input.drop call.consumed)
            (out ++ call.appended) (grown out.length cap)).2)
termination_by input.length + (inf.max - out.length)
decreasing_by
  all_goals
    rename_i hlong _ _ hprogress
    have hle := Z.consumed_le _ _ _ _ _hcall
    rw [List.isEmpty_iff, ← List.length_eq_zero_iff] at hprogress
    simp only [List.length_drop, List.length_append] at hlong ⊢
    omega

theorem run_error {inf : Inflater Z} {input out : List UInt8} {cap : Nat} {e : String}
    (hcall : Z.decompress inf.de input (grown out.length cap - out.length) = .error e) :
    inf.run input out cap = .error (.inflate e) := by
  rw [run]
  unfold grown at hcall
  split
  next e' he =>
    rw [hcall] at he
    cases he
    rfl
  next call hcall' =>
    rw [hcall] at hcall'
    cases hcall'

theorem runTraced_snd (inf : Inflater Z) (input out : List UInt8) (cap : Nat) :
    (inf.runTraced input out cap).2 = inf.run input out cap := by
  fun_induction runTraced inf input out cap with
  | case1 inf input out cap e hcall => rw [run_error hcall]
  | case2 inf input out cap call hcall hlong => rw [run_eq hcall, if_pos hlong]
  | case3 inf input out cap call hcall hfits hend =>
      rw [run_eq hcall, if_neg hfits, if_pos hend]
  | case4 inf input out cap call hcall hfits hgoing hidle =>
      rw [run_eq hcall, if_neg hfits, if_neg hgoing, if_pos hidle]
  | case5 inf input out cap call hcall hfits hgoing hmore hstuck =>
      rw [run_eq hcall, if_neg hfits, if_neg hgoing, if_neg hmore, if_pos hstuck]
  | case6 inf input out cap call hcall hfits hgoing hmore hprogress ih =>
      rw [run_eq hcall, if_neg hfits, if_neg hgoing, if_neg hmore, if_neg hprogress]
      exact ih

theorem runTraced_fst_length_le (inf : Inflater Z) (input out : List UInt8) (cap : Nat) :
    (inf.runTraced input out cap).1.length ≤ input.length + (inf.max - out.length) + 1 := by
  fun_induction runTraced inf input out cap with
  | case6 inf input out cap call hcall hfits hgoing hmore hprogress ih =>
      have hle := Z.consumed_le _ _ _ _ hcall
      rw [List.isEmpty_iff, ← List.length_eq_zero_iff] at hprogress
      simp only [List.length_drop, List.length_append] at ih hfits
      rw [List.length_cons]
      omega
  | _ =>
      rw [List.length_singleton]
      exact Nat.le_add_left 1 _

variable {inf inf' : Inflater Z} {input out out' z : List UInt8} {cap cap' : Nat} {last : Bool}

/-- What a pass returns is what its calls appended, within the limit. -/
theorem runTraced_ok (hrun : (inf.runTraced input out cap).2 = .ok (last, inf', out', cap')) :
    inf'.max = inf.max ∧ out'.length ≤ inf.max ∧
      out' = out ++ written (inf.runTraced input out cap).1 ∧
      (inf.runTraced input out cap).1.length + out.length ≤ input.length + out'.length + 1 := by
  fun_induction runTraced inf input out cap with
  | case1 => cases hrun
  | case2 => cases hrun
  | case3 inf input out cap call hcall hfits hend =>
      cases hrun
      refine ⟨rfl, Nat.le_of_not_lt hfits, ?_, ?_⟩
      · rw [written_singleton]
      · simp only [List.length_singleton, List.length_append]
        omega
  | case4 inf input out cap call hcall hfits hgoing hidle =>
      cases hrun
      refine ⟨rfl, Nat.le_of_not_lt hfits, ?_, ?_⟩
      · rw [written_singleton]
      · simp only [List.length_singleton, List.length_append]
        omega
  | case5 => cases hrun
  | case6 inf input out cap call hcall hfits hgoing hmore hprogress ih =>
      obtain ⟨hmax, hlimit, hout, hcount⟩ := ih hrun
      have hle := Z.consumed_le _ _ _ _ hcall
      rw [List.isEmpty_iff, ← List.length_eq_zero_iff] at hprogress
      simp only [List.length_drop, List.length_append] at hcount
      refine ⟨hmax, hlimit, ?_, ?_⟩
      · rw [hout, List.append_assoc, written_cons]
      · rw [List.length_cons]
        omega

def withMax (inf : Inflater Z) (max : Nat) : Inflater Z := { inf with max := max }

theorem run_withMax_turn {max : Nat} {call : Call Z.State}
    (hcall : Z.decompress inf.de input (grown out.length cap - out.length) = .ok call) :
    (inf.withMax max).run input out cap =
      if max < (out ++ call.appended).length then .error (.tooLong max)
      else if call.status = .streamEnd then
        .ok (true, withMax { inf with de := call.state, ended := true } max, out ++ call.appended,
          grown out.length cap)
      else if (input.drop call.consumed).isEmpty ∧ call.appended.isEmpty then
        .ok (false, withMax { inf with de := call.state } max, out ++ call.appended,
          grown out.length cap)
      else if call.consumed = 0 ∧ call.appended.isEmpty then .error .noProgress
      else
        (withMax { inf with de := call.state } max).run (input.drop call.consumed)
          (out ++ call.appended) (grown out.length cap) :=
  run_eq hcall

/-- A pass whose calls append more than a smaller limit is an error under that limit. -/
theorem run_tooLong {max : Nat} (inf : Inflater Z) (input out : List UInt8) (cap : Nat)
    (hle : max ≤ inf.max) (hout : out.length ≤ max)
    (hlong : max < (out ++ written (inf.runTraced input out cap).1).length) :
    (inf.withMax max).run input out cap = .error (.tooLong max) := by
  fun_induction runTraced inf input out cap with
  | case1 =>
      rw [written_error, List.append_nil] at hlong
      exact absurd hlong (Nat.not_lt_of_le hout)
  | case6 inf input out cap call hcall hfits hgoing hmore hprogress ih =>
      rw [run_withMax_turn hcall]
      by_cases hover : max < (out ++ call.appended).length
      · exact if_pos hover
      · rw [written_cons, ← List.append_assoc] at hlong
        rw [if_neg hover, if_neg hgoing, if_neg hmore, if_neg hprogress]
        exact ih hle (Nat.le_of_not_lt hover) hlong
  | case2 inf input out cap call hcall _ | case3 inf input out cap call hcall _ _
  | case4 inf input out cap call hcall _ _ _ | case5 inf input out cap call hcall _ _ _ _ =>
      rw [written_singleton] at hlong
      rw [run_withMax_turn hcall]
      exact if_pos hlong

/-- A pass whose calls append no more than a smaller limit is the same under that limit. -/
theorem run_withMax {max : Nat} (inf : Inflater Z) (input out : List UInt8) (cap : Nat)
    (hle : max ≤ inf.max) (hfit : (out ++ written (inf.runTraced input out cap).1).length ≤ max) :
    (inf.withMax max).run input out cap =
      (inf.runTraced input out cap).2.map fun r => (r.1, r.2.1.withMax max, r.2.2) := by
  fun_induction runTraced inf input out cap with
  | case1 inf input out cap e hcall => exact run_error hcall
  | case2 inf input out cap call hcall hlong =>
      rw [written_singleton] at hfit
      omega
  | case3 inf input out cap call hcall hfits hend =>
      rw [written_singleton] at hfit
      rw [run_withMax_turn hcall, if_neg (Nat.not_lt_of_le hfit), if_pos hend]
      rfl
  | case4 inf input out cap call hcall hfits hgoing hidle =>
      rw [written_singleton] at hfit
      rw [run_withMax_turn hcall, if_neg (Nat.not_lt_of_le hfit), if_neg hgoing,
        if_pos hidle]
      rfl
  | case5 inf input out cap call hcall hfits hgoing hmore hstuck =>
      rw [written_singleton] at hfit
      rw [run_withMax_turn hcall, if_neg (Nat.not_lt_of_le hfit), if_neg hgoing,
        if_neg hmore, if_pos hstuck]
      rfl
  | case6 inf input out cap call hcall hfits hgoing hmore hprogress ih =>
      rw [written_cons, ← List.append_assoc] at hfit
      have hfirst : (out ++ call.appended).length ≤ max := by
        rw [List.length_append] at hfit
        omega
      rw [run_withMax_turn hcall, if_neg (Nat.not_lt_of_le hfirst), if_neg hgoing,
        if_neg hmore, if_neg hprogress]
      exact ih hle hfit

/-! ## The message -/

def inflateOpenedTraced (inf : Inflater Z) (z : List UInt8) :
    List (Answer Z) × Except Error (List UInt8 × Inflater Z) :=
  match inf.runTraced z [] (Max.max (4 * z.length) 4096) with
  | (answers, .error e) => (answers, .error e)
  | (answers, .ok (true, inf, out, _)) => (answers, .ok (out, inf))
  | (answers, .ok (false, inf, out, cap)) =>
      let rest := inf.runTraced tail out cap
      (answers ++ rest.1, rest.2.map fun r => (r.2.2.1, r.2.1))

def opened (inf : Inflater Z) : Except Error (Inflater Z) :=
  if inf.mode.fresh || inf.ended then inf.reset else pure inf

def inflateMessageTraced (inf : Inflater Z) (z : List UInt8) :
    List (Answer Z) × Except Error (List UInt8 × Inflater Z) :=
  match inf.opened with
  | .error e => ([], .error e)
  | .ok inf => inf.inflateOpenedTraced z

theorem inflateOpenedTraced_cases (inf : Inflater Z) (z : List UInt8) :
    ∃ answers first, inf.runTraced z [] (Max.max (4 * z.length) 4096) = (answers, first) ∧
      ((∃ e, first = .error e ∧ inf.inflateOpenedTraced z = (answers, .error e)) ∨
        (∃ inf' out cap, first = .ok (true, inf', out, cap) ∧
          inf.inflateOpenedTraced z = (answers, .ok (out, inf'))) ∨
        ∃ inf' out cap, first = .ok (false, inf', out, cap) ∧
          inf.inflateOpenedTraced z = (answers ++ (inf'.runTraced tail out cap).1,
            (inf'.runTraced tail out cap).2.map fun r => (r.2.2.1, r.2.1))) := by
  unfold inflateOpenedTraced
  rcases inf.runTraced z [] (Max.max (4 * z.length) 4096) with ⟨answers, e | ⟨last, inf', out, cap⟩⟩
  · exact ⟨_, _, rfl, .inl ⟨e, rfl, rfl⟩⟩
  · cases last with
    | true => exact ⟨_, _, rfl, .inr (.inl ⟨inf', out, cap, rfl, rfl⟩)⟩
    | false => exact ⟨_, _, rfl, .inr (.inr ⟨inf', out, cap, rfl, rfl⟩)⟩

theorem inflateOpenedTraced_snd (inf : Inflater Z) (z : List UInt8) :
    (inf.inflateOpenedTraced z).2 = inf.inflateOpened z := by
  have hthen : inf.inflateOpened z =
      (inf.run z [] (Max.max (4 * z.length) 4096)).bind fun r =>
        if r.1 then .ok (r.2.2.1, r.2.1)
        else (r.2.1.run tail r.2.2.1 r.2.2.2).bind fun r => .ok (r.2.2.1, r.2.1) := rfl
  rw [hthen, ← runTraced_snd]
  obtain ⟨answers, first, hfirst, hcases⟩ := inf.inflateOpenedTraced_cases z
  rw [hfirst]
  rcases hcases with ⟨e, rfl, h⟩ | ⟨inf', out, cap, rfl, h⟩ | ⟨inf', out, cap, rfl, h⟩
  · rw [h]
    rfl
  · rw [h]
    rfl
  · rw [h, runTraced_snd]
    dsimp only [Except.bind, Bool.false_eq_true]
    rw [if_neg Bool.false_ne_true]
    cases inf'.run tail out cap with
    | error e => rfl
    | ok r => rfl

theorem inflateOpenedTraced_fst_length_le (inf : Inflater Z) (z : List UInt8) :
    (inf.inflateOpenedTraced z).1.length ≤ z.length + inf.max + 6 := by
  obtain ⟨answers, first, hfirst, hcases⟩ := inf.inflateOpenedTraced_cases z
  have hcount := inf.runTraced_fst_length_le z [] (Max.max (4 * z.length) 4096)
  simp only [hfirst, List.length_nil] at hcount
  rcases hcases with ⟨e, rfl, h⟩ | ⟨inf', out, cap, rfl, h⟩ | ⟨inf', out, cap, rfl, h⟩
  · simp only [h]
    omega
  · simp only [h]
    omega
  · obtain ⟨hmax, hlimit, -, hused⟩ := runTraced_ok (congrArg Prod.snd hfirst)
    have hrest := inf'.runTraced_fst_length_le tail out cap
    have htail : tail.length = 4 := rfl
    simp only [hfirst, List.length_nil] at hused
    rw [hmax, htail] at hrest
    rw [h, List.length_append]
    omega

theorem inflateOpenedTraced_ok
    (hok : (inf.inflateOpenedTraced z).2 = .ok (out, inf')) :
    out.length ≤ inf.max ∧ out = written (inf.inflateOpenedTraced z).1 := by
  obtain ⟨answers, first, hfirst, hcases⟩ := inf.inflateOpenedTraced_cases z
  rcases hcases with ⟨e, rfl, h⟩ | ⟨inf₁, out₁, cap, rfl, h⟩ | ⟨inf₁, out₁, cap, rfl, h⟩
  · rw [h] at hok
    cases hok
  · rw [h] at hok ⊢
    cases hok
    obtain ⟨-, hlimit, hout, -⟩ := runTraced_ok (congrArg Prod.snd hfirst)
    rw [hfirst, List.nil_append] at hout
    exact ⟨hlimit, hout⟩
  · obtain ⟨hmax, -, hout, -⟩ := runTraced_ok (congrArg Prod.snd hfirst)
    rw [hfirst, List.nil_append] at hout
    rw [h] at hok ⊢
    cases hrest : (inf₁.runTraced tail out₁ cap).2 with
    | error e =>
        rw [hrest] at hok
        cases hok
    | ok r =>
        rw [hrest] at hok
        cases hok
        obtain ⟨-, hlimit, hout₂, -⟩ := runTraced_ok hrest
        refine ⟨hmax ▸ hlimit, ?_⟩
        rw [written_append, ← hout]
        exact hout₂

theorem inflateOpened_tooLong {max : Nat} (inf : Inflater Z) (z : List UInt8) (hle : max ≤ inf.max)
    (hlong : max < (written (inf.inflateOpenedTraced z).1).length) :
    (inf.withMax max).inflateOpened z = .error (.tooLong max) := by
  have hthen : (inf.withMax max).inflateOpened z =
      ((inf.withMax max).run z [] (Max.max (4 * z.length) 4096)).bind fun r =>
        if r.1 then .ok (r.2.2.1, r.2.1)
        else (r.2.1.run tail r.2.2.1 r.2.2.2).bind fun r => .ok (r.2.2.1, r.2.1) := rfl
  obtain ⟨answers, first, hfirst, hcases⟩ := inf.inflateOpenedTraced_cases z
  rw [hthen]
  by_cases hover : max < (written answers).length
  · rw [run_tooLong inf z [] _ hle (Nat.zero_le max) (by rwa [hfirst, List.nil_append])]
    rfl
  · have hfit :
        ([] ++ written (inf.runTraced z [] (Max.max (4 * z.length) 4096)).1).length ≤ max := by
      rw [hfirst]
      exact Nat.le_of_not_lt hover
    rw [run_withMax inf z [] _ hle hfit, hfirst]
    rcases hcases with ⟨e, rfl, h⟩ | ⟨inf', out, cap, rfl, h⟩ | ⟨inf', out, cap, rfl, h⟩
    · rw [h] at hlong
      exact absurd hlong hover
    · rw [h] at hlong
      exact absurd hlong hover
    · obtain ⟨hmax, -, hout, -⟩ := runTraced_ok (congrArg Prod.snd hfirst)
      rw [hfirst, List.nil_append] at hout
      rw [h, written_append, ← hout] at hlong
      rw [← hout] at hover
      have htail := run_tooLong inf' tail out cap (hmax ▸ hle) (Nat.le_of_not_lt hover) hlong
      dsimp only [Except.map, Except.bind]
      rw [if_neg Bool.false_ne_true, htail]

theorem reset_withMax (inf : Inflater Z) (max : Nat) :
    (inf.withMax max).reset = inf.reset.map (withMax · max) := by
  unfold reset withMax
  dsimp only
  split
  · cases Z.setDictionary (Z.reset inf.de) with
    | error e => rfl
    | ok de => rfl
  · rfl

theorem reset_max (h : inf.reset = .ok inf') : inf'.max = inf.max := by
  unfold reset at h
  dsimp only at h
  split at h
  · cases hset : Z.setDictionary (Z.reset inf.de) with
    | error e =>
        rw [hset] at h
        cases h
    | ok de =>
        rw [hset] at h
        cases h
        rfl
  · cases h
    rfl

theorem opened_max (h : inf.opened = .ok inf') : inf'.max = inf.max := by
  unfold opened at h
  split at h
  · exact reset_max h
  · cases h
    rfl

theorem opened_withMax (inf : Inflater Z) (max : Nat) :
    (inf.withMax max).opened = inf.opened.map (withMax · max) := by
  unfold opened
  rw [reset_withMax]
  change (if (inf.mode.fresh || inf.ended) = true then _ else _) = _
  cases inf.mode.fresh || inf.ended with
  | true => rfl
  | false => rfl

theorem inflateMessageTraced_snd (inf : Inflater Z) (z : List UInt8) :
    (inf.inflateMessageTraced z).2 = inf.inflateMessage z := by
  rw [inflateMessage_eq]
  change _ = inf.opened.bind _
  unfold inflateMessageTraced
  cases inf.opened with
  | error e => rfl
  | ok inf => exact inf.inflateOpenedTraced_snd z

/-- **The limit.** Whatever the decompressor does, `inflate_message` returns after a number of calls
that the input and the limit bound.  What it returns is what the calls appended, and fits.  Where
the calls would append more under any larger limit, it is an error. -/
theorem inflateMessage_limited (inf : Inflater Z) (z : List UInt8) :
    (inf.inflateMessageTraced z).2 = inf.inflateMessage z ∧
      (inf.inflateMessageTraced z).1.length ≤ z.length + inf.max + 6 ∧
      (∀ out inf', inf.inflateMessage z = .ok (out, inf') →
        out.length ≤ inf.max ∧ out = written (inf.inflateMessageTraced z).1) ∧
      ∀ max, inf.max ≤ max →
        inf.max < (written ((inf.withMax max).inflateMessageTraced z).1).length →
        inf.inflateMessage z = .error (.tooLong inf.max) := by
  refine ⟨inf.inflateMessageTraced_snd z, ?_, ?_, ?_⟩
  · unfold inflateMessageTraced
    cases hopened : inf.opened with
    | error e => exact Nat.zero_le _
    | ok inf' =>
        rw [← opened_max hopened]
        exact inf'.inflateOpenedTraced_fst_length_le z
  · intro out inf' hok
    rw [← inflateMessageTraced_snd] at hok
    unfold inflateMessageTraced at hok ⊢
    cases hopened : inf.opened with
    | error e =>
        rw [hopened] at hok
        cases hok
    | ok inf₁ =>
        rw [hopened] at hok
        rw [← opened_max hopened]
        exact inflateOpenedTraced_ok hok
  · intro max hle hlong
    have hsame : inf.inflateMessage z = inf.opened.bind (inflateOpened · z) :=
      inf.inflateMessage_eq z
    unfold inflateMessageTraced at hlong
    rw [opened_withMax] at hlong
    rw [hsame]
    cases hopened : inf.opened with
    | error e =>
        rw [hopened] at hlong
        exact absurd hlong (Nat.not_lt_zero _)
    | ok inf' =>
        rw [hopened, ← opened_max hopened] at hlong
        rw [← opened_max hopened] at hle ⊢
        exact inflateOpened_tooLong (inf'.withMax max) z hle hlong

end Inflater

end FeedBench.Inflate
