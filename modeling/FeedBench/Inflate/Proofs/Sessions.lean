import FeedBench.Inflate.Proofs.Decodes

/-!
# Compressed sessions

What one inflater makes of the messages of a session.  The decompressor decides in every call how
much it takes and how much it appends.
-/

namespace FeedBench.Inflate

open Lib

variable {Z : Decompress}

/-! ## The loop -/

def grown (len cap : Nat) : Nat :=
  if cap - len < 4096 then Inflater.reserved len cap (32 * 1024) else cap

theorem spare_pos (len cap : Nat) : 0 < grown len cap - len := by
  unfold grown Inflater.reserved
  split
  · rw [if_pos (by omega)]
    have hroom : len + 32 * 1024 ≤ Max.max (2 * cap) (len + 32 * 1024) := Nat.le_max_right _ _
    omega
  · omega

namespace Inflater

theorem run_eq {inf : Inflater Z} {input out : List UInt8} {cap : Nat} {call : Call Z.State}
    (hcall : Z.decompress inf.de input (grown out.length cap - out.length) = .ok call) :
    inf.run input out cap =
      if inf.max < (out ++ call.appended).length then .error (.tooLong inf.max)
      else if call.status = .streamEnd then
        .ok (true, { inf with de := call.state, ended := true }, out ++ call.appended,
          grown out.length cap)
      else if (input.drop call.consumed).isEmpty ∧ call.appended.isEmpty then
        .ok (false, { inf with de := call.state }, out ++ call.appended, grown out.length cap)
      else if call.consumed = 0 ∧ call.appended.isEmpty then .error .noProgress
      else
        run { inf with de := call.state } (input.drop call.consumed) (out ++ call.appended)
          (grown out.length cap) := by
  rw [run]
  unfold grown at hcall ⊢
  split
  next e he =>
    rw [hcall] at he
    cases he
  next call' hcall' =>
    rw [hcall] at hcall'
    cases hcall'
    rfl

variable {D : Bool → Decoding UInt8 UInt8} {At : Z.State → Bool → List UInt8 → Nat → Prop}

/-- The loop appends the output of all its input, whatever each call takes and appends. -/
theorem run_decodes (h : Decodes Z D At) (hprompt : Prompt Z D At) (inf : Inflater Z)
    (out : List UInt8) (cap : Nat) {dict : Bool} {fed input ys : List UInt8} {sent : Nat}
    (hat : At inf.de dict fed sent)
    (hys : (D dict).decode (fed ++ input) = some ys) (hsent : sent ≤ ys.length)
    (hmax : out.length + (ys.length - sent) ≤ inf.max) :
    ∃ last st cap', inf.run input out cap =
        .ok (last, { inf with de := st, ended := inf.ended || last }, out ++ ys.drop sent, cap') ∧
      At st dict (fed ++ input) ys.length ∧ (last = true ↔ (D dict).Complete (fed ++ input)) := by
  induction hn : input.length + (ys.length - sent) using Nat.strongRecOn
    generalizing inf fed input out sent cap with
  | ind n ih =>
      have hspare := spare_pos out.length cap
      obtain ⟨call, hcall, hat', hadv⟩ :=
        h.decompress inf.de dict fed sent input _ ys hat hspare hys
      have hserves := hadv.serves hys hsent
      have hlength := hserves.length_le
      have happended := hserves.appended
      have hle := Z.consumed_le _ _ _ _ hcall
      have hfits : ¬ inf.max < (out ++ call.appended).length := by
        rw [List.length_append]
        omega
      have hsplit : fed ++ input.take call.consumed ++ input.drop call.consumed = fed ++ input := by
        rw [List.append_assoc, List.take_append_drop]
      rw [run_eq hcall, if_neg hfits]
      by_cases hend : call.status = .streamEnd
      · obtain ⟨hrest, hcomplete, hsum⟩ := hserves.ended.mp hend
        rw [hsum, List.drop_length, List.append_nil] at happended
        rw [hrest, List.append_nil] at hsplit
        rw [hsplit, hsum] at hat'
        rw [if_pos hend, happended]
        exact ⟨true, call.state, _, by rw [Bool.or_true], hat', by simp [hcomplete]⟩
      rw [if_neg hend]
      simp only [List.isEmpty_iff]
      by_cases hidle : input.drop call.consumed = [] ∧ call.appended = []
      · obtain ⟨hrest, hnone⟩ := hidle
        obtain ⟨hdone, hopen⟩ := hserves.idle hprompt hat hspare hcall hys hend hrest hnone
        rw [hrest, List.append_nil] at hsplit
        rw [hsplit, hnone, List.length_nil, Nat.add_zero, hdone] at hat'
        rw [if_pos ⟨hrest, hnone⟩, hnone, hdone, List.drop_length]
        exact ⟨false, call.state, _, by rw [Bool.or_false], hat', by simp [hopen]⟩
      have hstuck : ¬ (call.consumed = 0 ∧ call.appended = []) := by
        rintro ⟨hzero, hnone⟩
        rcases hserves.moves hidle with hpos | hsome
        · omega
        · exact hsome hnone
      have hroom : (out ++ call.appended).length +
          (ys.length - (sent + call.appended.length)) ≤ inf.max := by
        rw [List.length_append]
        omega
      rw [if_neg hidle, if_neg hstuck]
      have hgo := @ih _ (hn ▸ hserves.less hle hidle) { inf with de := call.state } _
        (grown out.length cap) _ _ _ hat' (by rw [hsplit]; exact hys) hlength hroom rfl
      rwa [hsplit, List.append_assoc, happended] at hgo

end Inflater

/-! ## The sender -/

def Mode.fresh : Mode → Bool
  | .nitro => true
  | .standard serverNoContextTakeover => serverNoContextTakeover

def Mode.primed (mode : Mode) : Bool := decide (mode = .nitro)

structure Compressed where
  wire : List UInt8
  plain : List UInt8

/-- What a sender makes of its messages, after the stream `context` with the output `before`.  A
message is flushed and its tail stripped, or it ends the stream.  A fresh sender, and one that has
ended its stream, starts a new one. -/
inductive Sends (D : Decoding UInt8 UInt8) (fresh : Bool) :
    (context before : List UInt8) → List Compressed → Prop
  | nil {context before} : Sends D fresh context before []
  | flush {context before m ms} :
      D.decode (context ++ m.wire ++ tail) = some (before ++ m.plain) →
      ¬ D.Complete (context ++ m.wire ++ tail) →
      Sends D fresh (bif fresh then [] else context ++ m.wire ++ tail)
        (bif fresh then [] else before ++ m.plain) ms →
      Sends D fresh context before (m :: ms)
  | finish {context before m ms} :
      D.decode (context ++ m.wire) = some (before ++ m.plain) → D.Complete (context ++ m.wire) →
      Sends D fresh [] [] ms → Sends D fresh context before (m :: ms)

/-! ## The messages -/

namespace Inflater

def inflateMessages (inf : Inflater Z) : List (List UInt8) → Except Error (List (List UInt8))
  | [] => .ok []
  | z :: zs => do
      let (out, inf) ← inf.inflateMessage z
      let outs ← inf.inflateMessages zs
      return out :: outs

variable {D : Bool → Decoding UInt8 UInt8} {At : Z.State → Bool → List UInt8 → Nat → Prop}
  {mode : Mode} {max : Nat} {inf : Inflater Z} {context before : List UInt8}

/-- An inflater between two messages. -/
structure Ready (D : Bool → Decoding UInt8 UInt8) (At : Z.State → Bool → List UInt8 → Nat → Prop)
    (mode : Mode) (max : Nat) (inf : Inflater Z) (context before : List UInt8) : Prop where
  mode_eq : inf.mode = mode
  max_eq : inf.max = max
  decode_eq : (D mode.primed).decode context = some before
  /-- The next message starts a new stream. -/
  restarts : (mode.fresh || inf.ended) = true → context = []
  continues : (mode.fresh || inf.ended) = false → At inf.de mode.primed context before.length

theorem reset_decodes (h : Decodes Z D At) (inf : Inflater Z) :
    ∃ st, inf.reset = .ok { inf with de := st, ended := false } ∧ At st inf.mode.primed [] 0 := by
  unfold reset Mode.primed
  by_cases hmode : inf.mode = .nitro
  · obtain ⟨st, hset, hat⟩ := h.setDictionary _ (h.reset inf.de)
    refine ⟨st, ?_, ?_⟩
    · dsimp only
      rw [if_pos hmode, hset]
    · rwa [decide_eq_true hmode]
  · refine ⟨Z.reset inf.de, if_neg hmode, ?_⟩
    rw [decide_eq_false hmode]
    exact h.reset inf.de

theorem new_ready (h : Decodes Z D At) (mode : Mode) (max : Nat) :
    ∃ inf : Inflater Z, new mode max = .ok inf ∧ inf.Ready D At mode max [] [] := by
  obtain ⟨st, hnew, hat⟩ := reset_decodes h { de := Z.new, mode, max, ended := false }
  refine ⟨_, hnew, rfl, rfl, (D mode.primed).decode_nil, fun _ => rfl, fun _ => hat⟩

theorem Ready.opened (h : Decodes Z D At) (hready : inf.Ready D At mode max context before) :
    ∃ st, (if mode.fresh || inf.ended then inf.reset else pure inf) =
        .ok { inf with de := st, ended := false } ∧
      At st mode.primed context before.length := by
  by_cases hnew : (mode.fresh || inf.ended) = true
  · obtain ⟨st, hreset, hat⟩ := reset_decodes h inf
    have hcontext := hready.restarts hnew
    have hbefore := hready.decode_eq
    rw [hcontext, (D mode.primed).decode_nil] at hbefore
    rw [if_pos hnew, hcontext, ← Option.some.inj hbefore, ← hready.mode_eq]
    exact ⟨st, hreset, hat⟩
  · rw [if_neg hnew]
    rw [Bool.not_eq_true] at hnew
    have hended : inf.ended = false := (Bool.or_eq_false_iff.mp hnew).2
    refine ⟨inf.de, ?_, hready.continues hnew⟩
    rw [← hended]
    rfl

def inflateOpened (inf : Inflater Z) (z : List UInt8) : Except Error (List UInt8 × Inflater Z) := do
  let (last, inf, out, cap) ← inf.run z [] (Max.max (4 * z.length) 4096)
  if last then return (out, inf)
  let (_, inf, out, _) ← inf.run tail out cap
  return (out, inf)

theorem inflateMessage_eq (inf : Inflater Z) (z : List UInt8) :
    inf.inflateMessage z =
      (if inf.mode.fresh || inf.ended then inf.reset else pure inf).bind (inflateOpened · z) := by
  have hsame : inf.inflateMessage z =
      if inf.mode.fresh || inf.ended then inf.reset.bind (inflateOpened · z)
      else (pure inf : Except Error (Inflater Z)).bind (inflateOpened · z) := rfl
  rw [hsame]
  split
  · rfl
  · rfl

section Opened

variable {inf' inf'' : Inflater Z} {z out out' : List UInt8} {cap cap' : Nat} {last : Bool}

theorem inflateOpened_last
    (hrun : inf.run z [] (Max.max (4 * z.length) 4096) = .ok (true, inf', out, cap)) :
    inf.inflateOpened z = .ok (out, inf') := by
  unfold inflateOpened
  rw [hrun]
  rfl

theorem inflateOpened_tail
    (hrun : inf.run z [] (Max.max (4 * z.length) 4096) = .ok (false, inf', out, cap))
    (htail : inf'.run tail out cap = .ok (last, inf'', out', cap')) :
    inf.inflateOpened z = .ok (out', inf'') := by
  have hthen : inf.inflateOpened z =
      (inf'.run tail out cap).bind fun r => .ok (r.2.2.1, r.2.1) := by
    unfold inflateOpened
    rw [hrun]
    rfl
  rw [hthen, htail]
  rfl

end Opened

/-- A flushed message is inflated, and the stream goes on or the next one begins. -/
theorem Ready.flush (h : Decodes Z D At) (hprompt : Prompt Z D At)
    (hready : inf.Ready D At mode max context before) {m : Compressed}
    (hdecode : (D mode.primed).decode (context ++ m.wire ++ tail) = some (before ++ m.plain))
    (hopen : ¬ (D mode.primed).Complete (context ++ m.wire ++ tail))
    (hmax : m.plain.length ≤ max) :
    ∃ inf' : Inflater Z, inf.inflateMessage m.wire = .ok (m.plain, inf') ∧
      inf'.Ready D At mode max (bif mode.fresh then [] else context ++ m.wire ++ tail)
        (bif mode.fresh then [] else before ++ m.plain) := by
  obtain rfl := hready.mode_eq
  obtain rfl := hready.max_eq
  obtain ⟨st, hopened, hat⟩ := hready.opened h
  obtain ⟨mid, hmid, hpre⟩ := (D inf.mode.primed).decode_append hdecode
  have hbefore := Decoding.prefix_of_decode hready.decode_eq hmid
  have hlong : (before ++ m.plain).length = before.length + m.plain.length := List.length_append
  have hmidlong := hpre.length_le
  -- What is stripped off is not empty, so the stream is still open before it.
  have hgoing : ¬ (D inf.mode.primed).Complete (context ++ m.wire) := by
    intro hcomplete
    exact absurd ((D inf.mode.primed).complete_append hcomplete hdecode) (by decide)
  have hbeforelong := hbefore.length_le
  obtain ⟨last, st₁, cap₁, hrun, hat₁, hlast⟩ := run_decodes h hprompt
    { inf with de := st, ended := false } [] (Max.max (4 * m.wire.length) 4096) hat hmid
    hbeforelong (by simp only [List.length_nil]; omega)
  obtain ⟨last₂, st₂, cap₂, hrun₂, hat₂, hlast₂⟩ := run_decodes h hprompt
    { inf with de := st₁, ended := false } (mid.drop before.length) cap₁ hat₁ hdecode hmidlong
    (by simp only [List.length_drop]; omega)
  rw [Bool.eq_false_iff.mpr (mt hlast.mp hgoing), Bool.or_false, List.nil_append] at hrun
  rw [Bool.eq_false_iff.mpr (mt hlast₂.mp hopen), Bool.or_false] at hrun₂
  have hplain : mid.drop before.length ++ (before ++ m.plain).drop mid.length = m.plain := by
    rw [drop_append_drop_of_isPrefix hpre hbeforelong, List.drop_left]
  rw [hplain] at hrun₂
  refine ⟨{ inf with de := st₂, ended := false }, ?_, rfl, rfl, ?_, ?_, ?_⟩
  · rw [inflateMessage_eq, hopened]
    exact inflateOpened_tail hrun hrun₂
  · cases hfresh : inf.mode.fresh with
    | true => exact (D inf.mode.primed).decode_nil
    | false => exact hdecode
  · intro hnew
    rw [Bool.or_false] at hnew
    rw [hnew, cond_true]
  · intro hsame
    rw [Bool.or_false] at hsame
    rw [hsame, cond_false, cond_false]
    exact hat₂

theorem Ready.finish (h : Decodes Z D At) (hprompt : Prompt Z D At)
    (hready : inf.Ready D At mode max context before) {m : Compressed}
    (hdecode : (D mode.primed).decode (context ++ m.wire) = some (before ++ m.plain))
    (hcomplete : (D mode.primed).Complete (context ++ m.wire)) (hmax : m.plain.length ≤ max) :
    ∃ inf' : Inflater Z, inf.inflateMessage m.wire = .ok (m.plain, inf') ∧
      inf'.Ready D At mode max [] [] := by
  obtain rfl := hready.mode_eq
  obtain rfl := hready.max_eq
  obtain ⟨st, hopened, hat⟩ := hready.opened h
  have hlong : (before ++ m.plain).length = before.length + m.plain.length := List.length_append
  obtain ⟨last, st₁, cap₁, hrun, -, hlast⟩ := run_decodes h hprompt
    { inf with de := st, ended := false } [] (Max.max (4 * m.wire.length) 4096) hat hdecode
    (by omega) (by simp only [List.length_nil]; omega)
  rw [hlast.mpr hcomplete, Bool.or_true, List.nil_append, List.drop_left] at hrun
  refine ⟨{ inf with de := st₁, ended := true }, ?_, rfl, rfl, (D inf.mode.primed).decode_nil,
    fun _ => rfl, ?_⟩
  · rw [inflateMessage_eq, hopened]
    exact inflateOpened_last hrun
  · intro hsame
    rw [Bool.or_true] at hsame
    cases hsame

theorem inflateMessages_cons {inf' : Inflater Z} {z out : List UInt8} {zs outs : List (List UInt8)}
    (hfirst : inf.inflateMessage z = .ok (out, inf')) (hrest : inf'.inflateMessages zs = .ok outs) :
    inf.inflateMessages (z :: zs) = .ok (out :: outs) := by
  have hthen : inf.inflateMessages (z :: zs) = (inf.inflateMessage z).bind fun r =>
      (r.2.inflateMessages zs).bind fun outs => .ok (r.1 :: outs) := rfl
  rw [hthen, hfirst]
  dsimp only [Except.bind]
  rw [hrest]

theorem Ready.inflateMessages (h : Decodes Z D At) (hprompt : Prompt Z D At)
    (hready : inf.Ready D At mode max context before) {messages : List Compressed}
    (hsent : Sends (D mode.primed) mode.fresh context before messages)
    (hmax : ∀ m ∈ messages, m.plain.length ≤ max) :
    inf.inflateMessages (messages.map Compressed.wire) =
      .ok (messages.map Compressed.plain) := by
  induction hsent generalizing inf with
  | nil => rfl
  | @flush context before m ms hdecode hopen _ ih =>
      obtain ⟨hfirst, hrest⟩ := List.forall_mem_cons.mp hmax
      obtain ⟨inf', hmessage, hready'⟩ := hready.flush h hprompt hdecode hopen hfirst
      exact inflateMessages_cons hmessage (ih hready' hrest)
  | @finish context before m ms hdecode hcomplete _ ih =>
      obtain ⟨hfirst, hrest⟩ := List.forall_mem_cons.mp hmax
      obtain ⟨inf', hmessage, hready'⟩ := hready.finish h hprompt hdecode hcomplete hfirst
      exact inflateMessages_cons hmessage (ih hready' hrest)

/-- **Compressed sessions.** One inflater returns the plain texts in order, in every mode and
however a prompt decompressor splits its work. -/
theorem inflateMessages_sent (h : Decodes Z D At) (hprompt : Prompt Z D At) (mode : Mode)
    (max : Nat) (messages : List Compressed)
    (hsent : Sends (D mode.primed) mode.fresh [] [] messages)
    (hmax : ∀ m ∈ messages, m.plain.length ≤ max) :
    ∃ inf : Inflater Z, new mode max = .ok inf ∧
      inf.inflateMessages (messages.map Compressed.wire) =
        .ok (messages.map Compressed.plain) := by
  obtain ⟨inf, hnew, hready⟩ := new_ready h mode max
  exact ⟨inf, hnew, hready.inflateMessages h hprompt hsent hmax⟩

/-! ### Two stored messages -/

def flushed : Compressed := ⟨[0, 2, 0, 0xFD, 0xFF, 104, 105, 0], [104, 105]⟩

def finished : Compressed := ⟨[1, 1, 0, 0xFE, 0xFF, 33], [33]⟩

theorem sends_flushed {ms : List Compressed}
    (h : Sends stored.decoding false (flushed.wire ++ tail) flushed.plain ms) :
    Sends stored.decoding false [] [] (flushed :: ms) := by
  apply Sends.flush
  · rfl
  · rintro ⟨s, out, hrun, hlast⟩
    cases hrun
    cases hlast
  · exact h

theorem inflateMessages_stored :
    ∃ inf : Inflater (buffered stored false), new (.standard false) 2 = .ok inf ∧
      inf.inflateMessages [flushed.wire, finished.wire] = .ok [[104, 105], [33]] :=
  inflateMessages_sent (buffered_decodes stored false) (buffered_prompt stored) (.standard false) 2
    [flushed, finished] (sends_flushed (.finish rfl ⟨.done, _, rfl, rfl⟩ .nil)) (by decide)

/-- A lazy inflater with this state of its decompressor. -/
def lazyInflater (state : Stored) (kept : List UInt8) : Inflater (buffered stored true) where
  de := (⟨state, kept⟩ : Buffer Stored)
  mode := .standard false
  max := 2
  ended := false

/-- A decompressor that appends nothing while there is input makes progress in every call, and
yet nothing of the message is returned. -/
theorem inflateMessages_lazy :
    Decodes (buffered stored true) (fun _ => stored.decoding) (Buffer.At stored) ∧
      Sends stored.decoding false [] [] [flushed] ∧
      ∃ inf : Inflater (buffered stored true), new (.standard false) 2 = .ok inf ∧
        inf.inflateMessages [flushed.wire] = .ok [[]] := by
  refine ⟨buffered_decodes stored true, sends_flushed .nil, lazyInflater .header [], rfl, ?_⟩
  have hrun : (lazyInflater .header []).run flushed.wire [] 4096 =
      .ok (false, lazyInflater (.size false []) [104, 105], [], 4096) := by
    rw [run_eq (buffered_decompress rfl)]
    rfl
  have htail : (lazyInflater (.size false []) [104, 105]).run tail [] 4096 =
      .ok (false, lazyInflater .header [104, 105], [], 4096) := by
    rw [run_eq (buffered_decompress rfl)]
    rfl
  have hmessage : (lazyInflater .header []).inflateMessage flushed.wire =
      .ok ([], lazyInflater .header [104, 105]) := by
    rw [inflateMessage_eq]
    exact inflateOpened_tail hrun htail
  exact inflateMessages_cons hmessage rfl

end Inflater

end FeedBench.Inflate
