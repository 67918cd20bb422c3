import FeedBench.Lib.Resume
import FeedBench.Nitro.Proofs.Emission
import FeedBench.Stats.Proofs.Records
import FeedBench.Ws.Proofs.Connect

/-!
# No gap across reconnects

The cursor is one past the greatest number emitted, so a server that starts nowhere above it
leaves nothing out above the first block of the run.  A server that starts below that first
block and drops again before it reaches it leaves a hole, and `contiguous_iff_meets` says
that nothing else does.
-/

namespace FeedBench.Nitro

open Ws Inflate Lib Stats

variable {n : Nat} {codec : Codec} {args : Args n} {l l' : Locals} {v : Visit n}

/-! ## The server -/

/-- The sequence number a turn asks for, as its request writes it. -/
def requested (v : Visit n) : Option String := v.config.headers.lookup requestedHeader

variable (codec) in
def received (v : Visit n) : List Nat :=
  v.messages.flatMap fun m =>
    match codec.fromSlice m.data with
    | .ok frame => frame.map fun msg => msg.sequenceNumber.toNat
    | .error _ => []

variable (codec) in
/-- What a server may send on one connection before it drops: consecutive messages, any
number to a frame and other frames between, from a number that is at most the one requested. -/
structure Served (v : Visit n) : Prop where
  wellFormed : ∀ m ∈ v.messages, ∀ frame, codec.fromSlice m.data = .ok frame →
    ∀ msg ∈ frame, ∀ b64 ∈ msg.l2Msg, ∃ bin, codec.base64 b64 = .ok bin
  below : ∀ k ∈ received codec v, k < 2 ^ 64 - 1
  consecutive : Consecutive (received codec v)
  start_le : ∀ r : Nat, requested v = some (toString r) → ∀ k ∈ (received codec v).head?, k ≤ r

/-! ## Everything received is emitted -/

theorem parseMessage_ok {msg : FeedMessage}
    (h : ∀ b64 ∈ msg.l2Msg, ∃ bin, codec.base64 b64 = .ok bin) :
    ∃ b, parseMessage codec msg = .ok b ∧ b.seq = msg.sequenceNumber := by
  have htxs : ∃ txs, messageTxs codec msg = .ok txs := by
    unfold messageTxs
    cases hl2 : msg.l2Msg with
    | none => exact ⟨[], rfl⟩
    | some b64 =>
        obtain ⟨bin, hbin⟩ := h b64 hl2
        dsimp only
        rw [hbin]
        exact ⟨_, rfl⟩
  obtain ⟨txs, htxs⟩ := htxs
  unfold parseMessage
  rw [htxs]
  exact ⟨_, rfl, rfl⟩

theorem mapM_parseMessage_ok {frame : List FeedMessage}
    (h : ∀ msg ∈ frame, ∀ b64 ∈ msg.l2Msg, ∃ bin, codec.base64 b64 = .ok bin) :
    ∃ blocks, frame.mapM (parseMessage codec) = .ok blocks ∧
      (blocks.map fun b => b.seq.toNat) = frame.map fun msg => msg.sequenceNumber.toNat := by
  induction frame with
  | nil => exact ⟨[], rfl, rfl⟩
  | cons msg frame ih =>
      obtain ⟨b, hb, hseq⟩ := parseMessage_ok (h msg List.mem_cons_self)
      obtain ⟨blocks, hblocks, hseqs⟩ := ih fun msg' hm => h msg' (List.mem_cons_of_mem msg hm)
      refine ⟨b :: blocks, ?_, ?_⟩
      · rw [List.mapM_cons, hb, hblocks]
        rfl
      · rw [List.map_cons, List.map_cons, hseqs, hseq]

theorem Served.emitted_eq (hserved : Served codec v) (h : Emits codec args l l' v) :
    v.emitted = received codec v := by
  rw [h.emitted, List.map_flatMap]
  unfold received
  apply List.flatMap_congr
  intro m hm
  unfold blocksOf
  cases hframe : codec.fromSlice m.data with
  | error e =>
      have hparse : parseFrame codec m.data = .error (.json e) := by
        unfold parseFrame
        rw [hframe]
        rfl
      rw [hparse]
      rfl
  | ok frame =>
      obtain ⟨blocks, hblocks, hseqs⟩ := mapM_parseMessage_ok
        (hserved.wellFormed m hm frame hframe)
      have hparse : parseFrame codec m.data = .ok blocks := by
        unfold parseFrame
        rw [hframe]
        exact hblocks
      rw [hparse]
      exact hseqs

theorem emitted_below {Z : Decompress} {attempts : List Attempt}
    (hserved : ∀ v ∈ run codec args Z l attempts, Served codec v) :
    ∀ v ∈ run codec args Z l attempts, ∀ k ∈ v.emitted, k < 2 ^ 64 - 1 := by
  intro v hv k hk
  obtain ⟨l₁, l₂, hemits⟩ := mem_run hv
  rw [(hserved v hv).emitted_eq hemits] at hk
  exact (hserved v hv).below k hk

/-! ## The cursor -/

theorem requested_eq (h : Emits codec args l l' v) :
    requested v = l.nextSeq.map fun r => toString r.toNat := by
  unfold requested
  rw [h.config]
  cases l.nextSeq with
  | none => rfl
  | some r => rfl

theorem toNat_advance {nextSeq : Option UInt64} {seq : UInt64} {seen : List Nat}
    (hseq : seq.toNat < 2 ^ 64 - 1) (h : nextSeq.map UInt64.toNat = next seen) :
    (advance nextSeq seq).map UInt64.toNat = next (seen ++ [seq.toNat]) := by
  have hne : seq ≠ 0xFFFFFFFFFFFFFFFF := by
    intro heq
    rw [heq] at hseq
    exact absurd hseq (by decide)
  have hsucc : (seq + 1).toNat = seq.toNat + 1 := by
    rw [UInt64.toNat_add]
    change (seq.toNat + 1) % 2 ^ 64 = _
    omega
  unfold advance
  rw [if_pos hne, next_snoc, ← h, Option.map_some]
  cases nextSeq with
  | none => exact congrArg some hsucc
  | some r =>
      have hmax : (max r (seq + 1)).toNat = max r.toNat (seq + 1).toNat := by
        have hmax' : max r (seq + 1) = if r ≤ seq + 1 then seq + 1 else r := rfl
        rw [hmax']
        split
        · next hle =>
          rw [UInt64.le_iff_toNat_le] at hle
          omega
        · next hle =>
          rw [UInt64.le_iff_toNat_le] at hle
          omega
      change some (max r (seq + 1)).toNat = some (max r.toNat (seq.toNat + 1))
      rw [hmax, hsucc]

theorem toNat_foldl_advance {blocks : List ParsedBlock} {nextSeq : Option UInt64}
    {seen : List Nat} (hbelow : ∀ b ∈ blocks, b.seq.toNat < 2 ^ 64 - 1)
    (h : nextSeq.map UInt64.toNat = next seen) :
    (blocks.foldl (fun nextSeq b => advance nextSeq b.seq) nextSeq).map UInt64.toNat =
      next (seen ++ blocks.map fun b => b.seq.toNat) := by
  induction blocks generalizing nextSeq seen with
  | nil =>
      rw [List.map_nil, List.append_nil]
      exact h
  | cons b blocks ih =>
      have hstep := toNat_advance (hbelow b List.mem_cons_self) h
      have hrest := ih (fun b' hb' => hbelow b' (List.mem_cons_of_mem b hb')) hstep
      rw [List.append_assoc] at hrest
      exact hrest

theorem cursor_visit (hbelow : ∀ k ∈ v.emitted, k < 2 ^ 64 - 1) (h : Emits codec args l l' v)
    {seen : List Nat} (hl : l.nextSeq.map UInt64.toNat = next seen) :
    l'.nextSeq.map UInt64.toNat = next (seen ++ v.emitted) := by
  have hblocks : ∀ b ∈ v.messages.flatMap (blocksOf codec), b.seq.toNat < 2 ^ 64 - 1 := by
    intro b hb
    apply hbelow
    rw [h.emitted]
    exact List.mem_map.mpr ⟨b, hb, rfl⟩
  rw [h.nextSeq, h.emitted]
  exact toNat_foldl_advance hblocks hl

/-- Each turn asks for the number after the greatest one emitted before it. -/
theorem cursor_run {Z : Decompress} {attempts : List Attempt} (seen : List Nat)
    (hbelow : ∀ v ∈ run codec args Z l attempts, ∀ k ∈ v.emitted, k < 2 ^ 64 - 1)
    (hl : l.nextSeq.map UInt64.toNat = next seen) :
    Along (fun before v =>
        requested v = (next (seen ++ before.flatMap Visit.emitted)).map toString)
      (run codec args Z l attempts) := by
  induction attempts generalizing l seen with
  | nil => exact along_nil
  | cons attempt attempts ih =>
      have hemits := visit_emits codec args Z l attempt
      rw [run] at hbelow ⊢
      generalize visit codec args Z l attempt = turn at hbelow hemits ⊢
      obtain ⟨l₁, v⟩ := turn
      dsimp only at hbelow hemits ⊢
      rw [along_cons]
      constructor
      · rw [List.flatMap_nil, List.append_nil, ← hl, Option.map_map]
        exact requested_eq hemits
      · cases hsleep : v.sleep with
        | none => exact along_nil
        | some d =>
            rw [hsleep] at hbelow
            have hturn := cursor_visit (hbelow v List.mem_cons_self) hemits hl
            have hrest := ih _ (fun w hw => hbelow w (List.mem_cons_of_mem v hw)) hturn
            change Along _ (run codec args Z l₁ attempts)
            refine hrest.mono ?_
            intro before w _ hw
            rw [List.flatMap_cons, ← List.append_assoc]
            exact hw

/-! ## The whole run -/

/-- What a run asks for and delivers. -/
structure ResumeLaw (visits : List (Visit n)) : Prop where
  /-- One more than the greatest number emitted so far; no header before the first. -/
  requests : Along (fun before v =>
    requested v = (next (before.flatMap Visit.emitted)).map toString) visits
  never_decreases : visits.Pairwise fun v w => ∀ r : Nat, requested v = some (toString r) →
    ∃ r' : Nat, r ≤ r' ∧ requested w = some (toString r')
  fits : ∀ v ∈ visits, ∀ r : Nat, requested v = some (toString r) → r < 2 ^ 64
  filled : Filled (visits.flatMap Visit.emitted)
  contiguous_iff : (∀ before, before <+: visits →
      Set.OrdConnected {k | k ∈ before.flatMap Visit.emitted}) ↔
    Along (fun before v => Meets (before.flatMap Visit.emitted) v.emitted) visits

/-- What the collector has on record for the source of a run: the stamps of first deliveries. -/
structure StampLaw (codec : Codec) (args : Args n) (messages : List Message)
    (c : Collector n) : Prop where
  block : ∀ k, c.blockSlot (seqKey k) args.index =
    firstOf (carriesBlock codec k) args.stamp.of messages
  tx : ∀ hash, c.txSlot hash args.index = firstOf (carriesTx codec hash) args.stamp.of messages
  tx_of_block : ∀ hash k, (∀ m ∈ messages, carriesTx codec hash m = carriesBlock codec k m) →
    c.txSlot hash args.index = c.blockSlot (seqKey k) args.index

theorem mem_next_of_requested {seen : List Nat} {r : Nat}
    (h : (next seen).map toString = some (toString r)) : r ∈ next seen := by
  obtain ⟨r', hr', heq⟩ := Option.map_eq_some_iff.mp h
  rw [← Text.toString_inj.mp heq]
  exact hr'

theorem resumed_run {Z : Decompress} {attempts : List Attempt}
    (hserved : ∀ v ∈ run codec args Z .start attempts, Served codec v) :
    Resumed ((run codec args Z .start attempts).map Visit.emitted) := by
  unfold Resumed
  rw [along_map]
  have hcursor := cursor_run [] (emitted_below hserved) rfl
  refine hcursor.mono ?_
  intro before v hv hrequest
  obtain ⟨l, l', hemits⟩ := mem_run hv
  have heq := (hserved v hv).emitted_eq hemits
  rw [← List.flatMap_def, heq]
  constructor
  · exact (hserved v hv).consecutive
  · intro r hr
    apply (hserved v hv).start_le r
    rw [hrequest, List.nil_append, Option.mem_def.mp hr, Option.map_some]

theorem resumeLaw_run {Z : Decompress} {attempts : List Attempt}
    (hserved : ∀ v ∈ run codec args Z .start attempts, Served codec v) :
    ResumeLaw (run codec args Z .start attempts) := by
  have hresumed := resumed_run hserved
  have hcursor : Along (fun before v =>
      requested v = (next (before.flatMap Visit.emitted)).map toString)
      (run codec args Z .start attempts) :=
    cursor_run [] (emitted_below hserved) rfl
  constructor
  · exact hcursor
  · apply hcursor.pairwise
    intro before v before' w hle hv hw r hr
    rw [hv] at hr
    have hsub : before.flatMap Visit.emitted ⊆ before'.flatMap Visit.emitted :=
      (hle.flatMap Visit.emitted).subset
    obtain ⟨r', hr', hrr⟩ := next_mono hsub (mem_next_of_requested hr)
    refine ⟨r', hrr, ?_⟩
    rw [hw, Option.mem_def.mp hr', Option.map_some]
  · intro v hv r hr
    obtain ⟨before, hbefore, hrequest⟩ := hcursor.exists_before hv
    rw [hrequest] at hr
    obtain ⟨m, hm, rfl⟩ := mem_next.mp (mem_next_of_requested hr)
    obtain ⟨w, hw, hmw⟩ := List.mem_flatMap.mp (mem_max?.mp hm).1
    have hw' := hbefore.subset (List.mem_append_left [v] hw)
    have := emitted_below hserved w hw' m hmw
    omega
  · have hfilled := filled_of_resumed hresumed
    rw [← List.flatMap_def] at hfilled
    exact hfilled
  · have hiff := contiguous_iff_meets hresumed
    rw [along_map] at hiff
    simp only [← List.flatMap_def] at hiff
    rw [← hiff]
    constructor
    · intro h before hb
      obtain ⟨before', hb', rfl⟩ := List.prefix_map_iff.mp hb
      rw [← List.flatMap_def]
      exact h before' hb'
    · intro h before hb
      have := h (before.map Visit.emitted) (hb.map Visit.emitted)
      rw [← List.flatMap_def] at this
      exact this

theorem firstOf_run {Z : Decompress} {attempts : List Attempt} {es : List (Event n)}
    (hes : es.filter (fun e => e.source = args.index) =
      (run codec args Z l attempts).flatMap Visit.events)
    {p : Event n → Bool} (hown : ∀ e, p e = true → decide (e.source = args.index) = true)
    {q : Message → Bool} (hq : ∀ {l l' v}, Emits codec args l l' v →
      firstOf p Event.t v.events = firstOf q args.stamp.of v.messages) :
    firstOf p Event.t es =
      firstOf q args.stamp.of ((run codec args Z l attempts).flatMap Visit.messages) := by
  rw [← firstOf_filter hown, hes]
  apply firstOf_flatMap
  intro v hv
  obtain ⟨l₁, l₂, hemits⟩ := mem_run hv
  exact hq hemits

theorem stampLaw_run (codec : Codec) (args : Args n) (Z : Decompress) (l : Locals)
    (attempts : List Attempt) {c₀ : Collector n} (h₀ : c₀.IsNew) {es : List (Event n)}
    (hes : es.filter (fun e => e.source = args.index) =
      (run codec args Z l attempts).flatMap Visit.events) :
    StampLaw codec args ((run codec args Z l attempts).flatMap Visit.messages) (c₀.run es) := by
  have hblock : ∀ k, (c₀.run es).blockSlot (seqKey k) args.index =
      firstOf (carriesBlock codec k) args.stamp.of
        ((run codec args Z l attempts).flatMap Visit.messages) := by
    intro k
    rw [Collector.blockSlot_run h₀]
    apply firstOf_run hes
    · intro e he
      exact Collector.source_of_isBlockFrom he
    · intro l l' v hemits
      exact hemits.firstOf_block k
  have htx : ∀ hash, (c₀.run es).txSlot hash args.index =
      firstOf (carriesTx codec hash) args.stamp.of
        ((run codec args Z l attempts).flatMap Visit.messages) := by
    intro hash
    rw [Collector.txSlot_run h₀]
    apply firstOf_run hes
    · intro e he
      exact Collector.source_of_isTxFrom he
    · intro l l' v hemits
      exact hemits.firstOf_tx hash
  refine ⟨hblock, htx, ?_⟩
  intro hash k hsame
  rw [htx, hblock, firstOf_congr hsame]

/-! ## Two connections -/

def feedText (seq inner : String) : List UInt8 :=
  ("\x7b\"messages\":[\x7b\"sequenceNumber\":" ++ seq ++ ",\"message\":\x7b\"message\":\x7b" ++
    inner ++ "\x7d\x7d\x7d]\x7d").toList.map fun c => UInt8.ofNat c.toNat

def feed : List (List UInt8 × FeedMessage) :=
  [(feedText "3" "", ⟨3, none, none⟩),
    (feedText "10" "\"l2Msg\":\"BAc=\"", ⟨10, none, some "BAc="⟩),
    (feedText "11" "", ⟨11, none, none⟩)]

def feedCodec : Codec where
  fromSlice data := (feed.lookup data).elim (.error "expected value") fun m => .ok [m]
  base64 s := if s = "BAc=" then .ok [4, 7] else .error "Invalid symbol"
  keccak256 _ := #v[
    238, 42, 75, 199, 219, 129, 218, 43, 113, 100, 229, 107, 54, 73, 177, 226,
    160, 156, 88, 196, 85, 177, 93, 171, 221, 217, 20, 108, 117, 130, 206, 188]

def feedArgs : Args 1 := ⟨Fin.last 0, ⟨"feed".toList, "ws://feed/".toList⟩, .none, .arrival⟩

def feedAttempt (t : Nat) (frames : List (List UInt8)) : Attempt where
  dial := Client.sampleDial
  reads := [.bytes 1 Client.sampleHead]
  env := ⟨fun _ => .replicate 4 0, fun _ => none, fun _ => 0⟩
  polls := frames.mapIdx (fun i data =>
    Poll.read (.bytes (t + i) (0x81 :: UInt8.ofNat data.length :: data))) ++ [.read (.bytes 99 [])]
  up := 2
  down := 99

def replay : List Attempt :=
  [feedAttempt 5 [feedText "10" "\"l2Msg\":\"BAc=\""],
    feedAttempt 50 [feedText "10" "\"l2Msg\":\"BAc=\"", feedText "11" ""]]

def below : List Attempt := [feedAttempt 5 [feedText "10" "\"l2Msg\":\"BAc=\""],
  feedAttempt 50 [feedText "3" ""]]

theorem served_feed {v : Visit 1} {o : Option Nat} (hrequest : requested v = o.map toString)
    {ks : List Nat} (hks : received feedCodec v = ks) (hconsecutive : Consecutive ks)
    (hbelow : ∀ k ∈ ks, k < 2 ^ 64 - 1) (hstart : ∀ r ∈ o, ∀ k ∈ ks.head?, k ≤ r) :
    Served feedCodec v where
  wellFormed := by
    intro m _ frame hframe msg hmsg b64 hb64
    have hl2 : ∀ entry ∈ feed, ∀ b64 ∈ entry.2.l2Msg, b64 = "BAc=" := by decide
    have hentry : ∃ data, (data, msg) ∈ feed := by
      cases hlookup : feed.lookup m.data with
      | none =>
          simp [feedCodec, hlookup] at hframe
      | some msg' =>
          have hframe' : [msg'] = frame := by simpa [feedCodec, hlookup] using hframe
          rw [← hframe', List.mem_singleton] at hmsg
          obtain ⟨before, after, hfeed, _⟩ := List.lookup_eq_some_iff.mp hlookup
          exact ⟨m.data, by rw [hfeed, hmsg]; simp⟩
    obtain ⟨data, hdata⟩ := hentry
    rw [hl2 (data, msg) hdata b64 hb64]
    exact ⟨[4, 7], rfl⟩
  below := by rwa [hks]
  consecutive := by rwa [hks]
  start_le := by
    intro r hr
    rw [hrequest] at hr
    obtain ⟨r', hr', heq⟩ := Option.map_eq_some_iff.mp hr
    rw [← Text.toString_inj.mp heq, hks]
    exact hstart r' hr'

theorem replay_visits :
    (run feedCodec feedArgs Client.noDeflate .start replay).map
        (fun v => (requested v, received feedCodec v)) =
      [(none, [10]), (some (toString 11), [10, 11])] := by
  decide +kernel

theorem below_visits :
    (run feedCodec feedArgs Client.noDeflate .start below).map
        (fun v => (requested v, received feedCodec v, v.emitted)) =
      [(none, [10], [10]), (some (toString 11), [3], [3])] := by
  decide +kernel

theorem served_of_visits {attempts : List Attempt} {later : List Nat}
    (hvisits : (run feedCodec feedArgs Client.noDeflate .start attempts).map
        (fun v => (requested v, received feedCodec v)) =
      [(none, [10]), (some (toString 11), later)])
    (hconsecutive : Consecutive later) (hbelow : ∀ k ∈ later, k < 2 ^ 64 - 1)
    (hstart : ∀ k ∈ later.head?, k ≤ 11) :
    ∀ v ∈ run feedCodec feedArgs Client.noDeflate .start attempts, Served feedCodec v := by
  intro v hv
  have hmem := List.mem_map_of_mem (f := fun v => (requested v, received feedCodec v)) hv
  rw [hvisits] at hmem
  simp only [List.mem_cons, List.not_mem_nil, or_false, Prod.mk.injEq] at hmem
  rcases hmem with ⟨hrequest, hks⟩ | ⟨hrequest, hks⟩
  · exact served_feed (o := none) hrequest hks (by decide) (by decide) (by decide)
  · refine served_feed (o := some 11) hrequest hks hconsecutive hbelow ?_
    rintro r ⟨⟩
    exact hstart

theorem served_replay :
    ∀ v ∈ run feedCodec feedArgs Client.noDeflate .start replay, Served feedCodec v :=
  served_of_visits replay_visits (by decide) (by decide) (by decide)

theorem served_below :
    ∀ v ∈ run feedCodec feedArgs Client.noDeflate .start below, Served feedCodec v := by
  have hvisits := congrArg (List.map fun p => (p.1, p.2.1)) below_visits
  rw [List.map_map] at hvisits
  exact served_of_visits hvisits (by decide) (by decide) (by decide)

/-! ## The law -/

/-- Nothing above the first block of a run is left out by reconnecting, the run is in one
piece exactly when no connection drops below the least number before it, and replays do not
move a stamp. -/
theorem reconnects_leave_no_gap (codec : Codec) (args : Args n) (Z : Decompress)
    (attempts : List Attempt)
    (hserved : ∀ v ∈ run codec args Z .start attempts, Served codec v)
    {c₀ : Collector n} (h₀ : c₀.IsNew) {es : List (Event n)}
    (hes : es.filter (fun e => e.source = args.index) =
      (run codec args Z .start attempts).flatMap Visit.events) :
    ResumeLaw (run codec args Z .start attempts) ∧
      StampLaw codec args ((run codec args Z .start attempts).flatMap Visit.messages)
        (c₀.run es) :=
  ⟨resumeLaw_run hserved, stampLaw_run codec args Z .start attempts h₀ hes⟩

theorem reconnects_leave_no_gap_replay :
    let visits := run feedCodec feedArgs Client.noDeflate .start replay
    let c := (Collector.new #v[⟨"feed", "nitro"⟩] 0 1 0 0).run (visits.flatMap Visit.events)
    ([10, 11].map (fun k => c.blockSlot (seqKey k) 0) = [some 5, some 51] ∧
      c.txSlot (feedCodec.keccak256 [7]) 0 = some 5) ∧
      ResumeLaw visits ∧ StampLaw feedCodec feedArgs (visits.flatMap Visit.messages) c :=
  ⟨by decide +kernel, reconnects_leave_no_gap feedCodec feedArgs Client.noDeflate replay
    served_replay (Collector.isNew_new _ _ _ _ _)
    (List.filter_eq_self.mpr fun e he => decide_eq_true (source_run e he))⟩

/-- The first connection delivers 10.  The second one, asked for 11, starts at 3 and drops. -/
theorem reconnects_leave_hole :
    (∀ v ∈ run feedCodec feedArgs Client.noDeflate .start below, Served feedCodec v) ∧
      ¬Set.OrdConnected {k | k ∈
        (run feedCodec feedArgs Client.noDeflate .start below).flatMap Visit.emitted} := by
  have hemitted : (run feedCodec feedArgs Client.noDeflate .start below).flatMap Visit.emitted =
      [10, 3] := by
    have hflat := congrArg (List.flatMap fun p => p.2.2) below_visits
    rw [List.flatMap_map] at hflat
    exact hflat
  refine ⟨served_below, ?_⟩
  rw [hemitted]
  intro h
  have hfour : 4 ∈ [10, 3] := h.out (x := 3) (by simp) (y := 10) (by simp) ⟨by omega, by omega⟩
  exact absurd hfour (by decide)

end FeedBench.Nitro
