import FeedBench.Proofs.Measured
import FeedBench.Ws.Proofs.Heard

/-!
# From the wire to the records

What the servers of a raw source send on its connections, in whatever pieces, is what the
collector has on record for the source, and each record bears the instant at which the last byte
of the message was read.
-/

namespace FeedBench

open Lib Stats Ws Inflate

variable {n : Nat}

/-! ## Connections -/

/-- What comes of an attempt dialed with `config`: nothing, or what a server says that agrees to
no compression and stays within the limits, up to the end of the connection. -/
inductive Attempt.Hears (Z : Decompress) (attempt : Attempt) (config : Config) :
    List (List UInt8 × Nat) → Prop where
  | refused {e : ConnectError}
      (h : (Client.connect attempt.dial config attempt.reads : Dialed Z) = .failed e) :
      Hears Z attempt config []
  | unanswered (h : (Client.connect attempt.dial config attempt.reads : Dialed Z) = .waiting) :
      Hears Z attempt config []
  | served {c : Client Z} {left : List Read} {polls tail : List Poll} {last : Option Ws.Error}
      {msgs : List WireMessage} {trailing : List Control}
      (connected : Client.connect attempt.dial config attempt.reads = .connected c left)
      (plain : c.inflater = none)
      (writes : ∀ k, attempt.env.writeError k = none)
      (reads : left.map Poll.read ++ attempt.polls = polls ++ tail)
      (quiet : ∀ p ∈ polls, p.Quiet)
      (ending : Client.EndsWith Z attempt.env tail last)
      (fits : ∀ m ∈ msgs, m.payload.length ≤ config.maxMessage)
      (stream : c.buf ++ polls.flatMap Poll.received =
        (talk msgs trailing).flatMap WireFrame.bytes) :
      Hears Z attempt config
        (heard msgs (c.buf.map (·, c.lastRead) ++ (polls ++ tail).flatMap Poll.stamped))

def Message.heard (m : Message) : List UInt8 × Nat := (m.data, m.arrival)

variable {Z : Decompress} {attempt : Attempt} {config : Config}
  {script : List (List UInt8 × Nat)}

theorem Attempt.session_heard {c : Client Z} {left : List Read} {polls tail : List Poll}
    {last : Option Ws.Error} {msgs : List WireMessage} {trailing : List Control}
    (connected : Client.connect attempt.dial config attempt.reads = .connected c left)
    (hmax : 125 ≤ config.maxMessage)
    (plain : c.inflater = none) (writes : ∀ k, attempt.env.writeError k = none)
    (reads : left.map Poll.read ++ attempt.polls = polls ++ tail) (quiet : ∀ p ∈ polls, p.Quiet)
    (ending : Client.EndsWith Z attempt.env tail last)
    (fits : ∀ m ∈ msgs, m.payload.length ≤ config.maxMessage)
    (stream : c.buf ++ polls.flatMap Poll.received =
      (talk msgs trailing).flatMap WireFrame.bytes)
    (written : List Sent) :
    (({ c with written := written } : Client Z).session attempt.env
        (left.map Poll.read ++ attempt.polls)).1.map Message.heard =
      heard msgs (c.buf.map (·, c.lastRead) ++ (polls ++ tail).flatMap Poll.stamped) := by
  obtain ⟨used, i, headers, mode, inflater, -, -, -, hc⟩ := Client.connect_ok connected
  have hopen : c.openMsg = none := by
    rw [hc]
    rfl
  have hlimit : c.max = config.maxMessage := by
    rw [hc]
    rfl
  rw [← hlimit] at hmax fits
  have hsession := @Client.session_heard Z attempt.env { c with written := written } writes plain
    hopen hmax polls tail quiet last ending msgs trailing fits stream
  rw [reads]
  exact hsession.1

theorem Generic.subscribed_ok (src : Generic n) {env : Env} (hwrites : ∀ k, env.writeError k = none)
    (c : Client Z) :
    ∃ written, src.subscribed env c = ({ c with written := written }, .ok ()) := by
  unfold subscribed
  cases src.subscribe with
  | none => exact ⟨c.written, rfl⟩
  | some text =>
      dsimp only
      unfold Client.sendText Client.write
      rw [hwrites]
      exact ⟨_, rfl⟩

theorem le_maxMessage : 125 ≤ Nitro.maxMessage := by decide

theorem Generic.visit_config (src : Generic n) (backoff : Nat) (attempt : Attempt) :
    (src.visit Z backoff attempt).2.config = src.config := by
  unfold visit
  dsimp only
  repeat' split
  all_goals rfl

theorem Generic.visit_heard (src : Generic n) (backoff : Nat)
    (h : attempt.Hears Z (src.visit Z backoff attempt).2.config script) :
    (src.visit Z backoff attempt).2.messages.map Message.heard = script := by
  rw [visit_config] at h
  unfold visit
  dsimp only
  cases h with
  | refused h =>
      rw [h]
      rfl
  | unanswered h =>
      rw [h]
      rfl
  | served connected plain writes reads quiet ending fits stream =>
      obtain ⟨written, hwritten⟩ := src.subscribed_ok writes _
      rw [connected]
      dsimp only
      rw [hwritten]
      exact Attempt.session_heard connected le_maxMessage plain writes reads quiet ending fits
        stream written

theorem Nitro.visit_config (codec : Nitro.Codec) (args : Nitro.Args n) (l : Nitro.Locals)
    (attempt : Attempt) :
    (Nitro.visit codec args Z l attempt).2.config = Nitro.config args l.nextSeq := by
  unfold visit
  dsimp only
  split
  all_goals rfl

theorem Nitro.visit_heard (codec : Nitro.Codec) (args : Nitro.Args n) (l : Nitro.Locals)
    (h : attempt.Hears Z (Nitro.visit codec args Z l attempt).2.config script) :
    (Nitro.visit codec args Z l attempt).2.messages.map Message.heard = script := by
  rw [visit_config] at h
  unfold visit
  dsimp only
  cases h with
  | refused h =>
      rw [h]
      rfl
  | unanswered h =>
      rw [h]
      rfl
  | @served c left _ _ _ _ _ connected plain writes reads quiet ending fits stream =>
      rw [connected]
      exact Attempt.session_heard connected le_maxMessage plain writes reads quiet ending fits
        stream c.written

/-! ## Runs -/

abbrev Hear (Z : Decompress) (attempts : List Attempt) (visits : List (Visit n))
    (scripts : List (List (List UInt8 × Nat))) : Prop :=
  List.Forall₂ (fun q script => q.1.Hears Z q.2.config script) (attempts.zip visits) scripts

variable {attempts : List Attempt} {scripts : List (List (List UInt8 × Nat))}

theorem heard_cons {v : Visit n} {visits : List (Visit n)}
    (hvisit : ∀ script, attempt.Hears Z v.config script → v.messages.map Message.heard = script)
    (hvisits : ∀ scripts, Hear Z attempts visits scripts →
      (visits.flatMap Visit.messages).map Message.heard = scripts.flatten)
    (h : Hear Z (attempt :: attempts) (v :: if v.sleep.isSome then visits else []) scripts) :
    ((v :: if v.sleep.isSome then visits else []).flatMap Visit.messages).map Message.heard =
      scripts.flatten := by
  obtain ⟨script, scripts, hscript, hscripts, rfl⟩ := List.forall₂_cons_left_iff.mp h
  rw [List.flatMap_cons, List.map_append, List.flatten_cons, hvisit script hscript]
  apply congrArg
  by_cases hsleep : v.sleep.isSome = true
  · rw [if_pos hsleep] at hscripts ⊢
    exact hvisits scripts hscripts
  · rw [if_neg hsleep] at hscripts ⊢
    have hnil : attempts.zip ([] : List (Visit n)) = [] := List.zip_nil_right
    rw [← List.zip, hnil] at hscripts
    cases hscripts
    rfl

theorem Generic.run_heard (src : Generic n) (backoff : Nat)
    (h : Hear Z attempts (src.run Z backoff attempts) scripts) :
    ((src.run Z backoff attempts).flatMap Visit.messages).map Message.heard = scripts.flatten := by
  induction attempts generalizing backoff scripts with
  | nil =>
      cases h
      rfl
  | cons attempt attempts ih =>
      exact heard_cons (fun _ => src.visit_heard backoff) (fun _ => ih _) h

theorem Generic.hear_singleton (src : Generic n) (backoff : Nat)
    (h : attempt.Hears Z src.config script) :
    Hear Z [attempt] (src.run Z backoff [attempt]) [script] := by
  have hrun : src.run Z backoff [attempt] = [(src.visit Z backoff attempt).2] := by
    simp only [run, ite_self]
  rw [hrun]
  refine .cons ?_ .nil
  dsimp only
  rw [visit_config]
  exact h

theorem Nitro.run_heard (codec : Nitro.Codec) (args : Nitro.Args n) (l : Nitro.Locals)
    (h : Hear Z attempts (Nitro.run codec args Z l attempts) scripts) :
    ((Nitro.run codec args Z l attempts).flatMap Visit.messages).map Message.heard =
      scripts.flatten := by
  induction attempts generalizing l scripts with
  | nil =>
      cases h
      rfl
  | cons attempt attempts ih =>
      exact heard_cons (fun _ => Nitro.visit_heard codec args l) (fun _ => ih _) h

/-! ## Tasks -/

namespace Main.Job

variable (L : Libraries) (index : Fin n)

/-- The task stamps arrivals, and its attempts hear these messages. -/
def Hears : (job : Job) → job.World → List (List (List UInt8 × Nat)) → Prop
  | .nitro src offer stamp, attempts, scripts =>
      stamp = .arrival ∧ Hear L.decompress attempts
        (Nitro.run L.feedCodec ⟨index, src, offer, stamp⟩ L.decompress .start attempts) scripts
  | .eira _ _, _, _ => False
  | .wsjson src stamp, attempts, scripts =>
      stamp = .arrival ∧ Hear L.decompress attempts
        (WsJson.run L.keyCodec L.valueFromSlice index src stamp L.decompress attempts) scripts
  | .wsraw src stamp, attempts, scripts =>
      stamp = .arrival ∧ Hear L.decompress attempts
        (WsRaw.run L.rawCodec index src stamp L.decompress attempts) scripts

def brings : Job → List UInt8 × Nat → Delivery
  | .nitro src offer stamp, (data, t) =>
      Nitro.delivery L.feedCodec ⟨index, src, offer, stamp⟩ ⟨data, t, t, 0⟩
  | .eira _ _, (_, t) => ⟨t, [], []⟩
  | .wsjson src _, (data, t) =>
      txDelivery t (WsJson.messageKeys L.keyCodec L.valueFromSlice src.path ⟨data, t, t, 0⟩)
  | .wsraw _ _, (data, t) => txDelivery t (WsRaw.messageKeys L.rawCodec data)

variable {L index}

theorem deliveries_heard {job : Job} {world : job.World}
    (h : job.Hears L index world scripts) :
    job.deliveries L index world = scripts.flatten.map (job.brings L index) := by
  cases job with
  | eira addr level => exact h.elim
  | nitro src offer stamp =>
      obtain ⟨rfl, hear⟩ := h
      rw [← Nitro.run_heard _ _ _ hear, List.map_map]
      rfl
  | wsjson src stamp =>
      obtain ⟨rfl, hear⟩ := h
      rw [← Generic.run_heard _ _ hear, List.map_map]
      rfl
  | wsraw src stamp =>
      obtain ⟨rfl, hear⟩ := h
      rw [← Generic.run_heard _ _ hear, List.map_map]
      rfl

end Main.Job

namespace Main.Program

open Stats.Collector

/-- **From the wire to the records.** However the servers of a source cut their messages into
frames and these arrived in reads, over however many connections, the collector has on record for
the source the first message with the block, or with the transaction, at the instant at which its
last byte was read, and counts the transactions of all messages. -/
theorem records_heard (p : Program) (L : Libraries)
    (worlds : ∀ i : Fin p.n, (p.jobs.get i).World) (start : Nat) (es : List (Event p.n))
    (i : Fin p.n) (hall : p.TakenAll L worlds i es)
    (scripts : List (List (List UInt8 × Nat)))
    (hhears : (p.jobs.get i).Hears L i (worlds i) scripts) :
    let delivered := scripts.flatten.map ((p.jobs.get i).brings L i)
    (∀ key, ((p.collector start).run es).blockSlot key i =
        firstOf (Delivery.carriesBlock key) Delivery.t delivered) ∧
      (∀ hash, ((p.collector start).run es).txSlot hash i =
        firstOf (Delivery.carriesTx hash) Delivery.t delivered) ∧
      (((p.collector start).run es).txEvents.get i).toNat =
        (delivered.flatMap Delivery.txs).length % 2 ^ 64 ∧
      (((p.collector start).run es).rawTxBytes.get i).toNat =
        ((delivered.flatMap Delivery.txs).map fun tx => tx.2.toNat).sum % 2 ^ 64 := by
  intro delivered
  have hdelivered : p.delivered L worlds i = delivered := Job.deliveries_heard hhears
  have hcount := counters_run (p.isNew_collector start) es i
  rw [hall, (p.conveys L worlds i).filterMap_tx, hdelivered] at hcount
  refine ⟨?_, ?_, hcount⟩
  · intro key
    rw [blockSlot_takenAll hall, sightBlock, get_ofFn, hdelivered]
  · intro hash
    rw [txSlot_takenAll hall, sightTx, get_ofFn, hdelivered]

def rawSource : WsRaw.WsRawSource := ⟨['r'], "ws://feed/".toList, [], none⟩

/-- A source of binary transactions that sends one, in a frame that comes in two reads. -/
def rawProgram : Program where
  n := 1
  jobs := #v[.wsraw rawSource .arrival]
  reference := ⟨0, Nat.one_pos⟩
  minSources := 1
  warmup := 0
  interval := pairProgram.interval
  names_nodup := by decide
  one_le_minSources := Nat.le_refl 1
  minSources_le := Nat.le_refl 1
  second_le_interval := pairProgram.second_le_interval

def rawIndex : Fin rawProgram.n := ⟨0, Nat.one_pos⟩

def rawMessage : WireMessage where
  binary := true
  fragments := [⟨[], [2, 0xc7, 1, 2, 3, 4, 5, 6, 7], none, .short, by decide⟩]
  nonempty := by simp

def rawAttempt : Attempt where
  dial := Client.sampleDial
  reads := [.bytes 1 (Client.sampleHead ++ [0x82, 9])]
  env := ⟨fun _ => .replicate 4 0, fun _ => none, fun _ => 9⟩
  polls := [.read (.bytes 5 [2, 0xc7, 1, 2, 3, 4, 5, 6, 7])]
  up := 3
  down := 8

def rawWorld : ∀ i : Fin rawProgram.n, (rawProgram.jobs.get i).World
  | (⟨0, _⟩ : Fin 1) => ([rawAttempt] : List Attempt)

def rawConfig : Config := (WsRaw.feed noLibraries.rawCodec rawIndex rawSource .arrival).config

theorem rawAttempt_connects :
    (Client.connect rawAttempt.dial rawConfig rawAttempt.reads : Dialed Client.noDeflate) =
      .connected (Client.accepted rawConfig 2 [0x82, 9]
        [("Sec-WebSocket-Accept".toList, ['a'])] none none) [] := rfl

theorem rawAttempt_hears :
    rawAttempt.Hears Client.noDeflate rawConfig [([2, 0xc7, 1, 2, 3, 4, 5, 6, 7], 5)] := by
  have hquiet : ∀ p ∈ rawAttempt.polls, p.Quiet := by
    intro p hp
    rw [List.mem_singleton.mp hp]
    exact ⟨5, _, rfl, by simp⟩
  have hfits : ∀ m ∈ [rawMessage], m.payload.length ≤ rawConfig.maxMessage := by
    intro m hm
    rw [List.mem_singleton.mp hm]
    show 9 ≤ Nitro.maxMessage
    decide
  have hstream : [0x82, 9] ++ rawAttempt.polls.flatMap Poll.received =
      (talk [rawMessage] []).flatMap WireFrame.bytes := by decide
  have hheard : heard [rawMessage] (([0x82, 9] : List UInt8).map (·, 2) ++
      (rawAttempt.polls ++ []).flatMap Poll.stamped) =
        [([2, 0xc7, 1, 2, 3, 4, 5, 6, 7], 5)] := by decide
  have hreads : ([] : List Read).map Poll.read ++ rawAttempt.polls = rawAttempt.polls ++ [] :=
    (List.append_nil _).symm
  have hserved := Attempt.Hears.served rawAttempt_connects rfl (fun _ => rfl) hreads hquiet
    Client.endsWith_nil hfits hstream
  rw [← hheard]
  exact hserved

theorem records_heard_raw :
    ((rawProgram.collector 0).run (rawProgram.sent noLibraries rawWorld rawIndex)).txSlot
      (.replicate 32 0) rawIndex = some 5 := by
  have hall : rawProgram.TakenAll noLibraries rawWorld rawIndex
      (rawProgram.sent noLibraries rawWorld rawIndex) := by
    apply List.filter_eq_self.mpr
    intro e he
    exact decide_eq_true ((rawProgram.conveys noLibraries rawWorld rawIndex).source e he)
  have hhears : (rawProgram.jobs.get rawIndex).Hears noLibraries rawIndex (rawWorld rawIndex)
      [[([2, 0xc7, 1, 2, 3, 4, 5, 6, 7], 5)]] :=
    ⟨rfl, Generic.hear_singleton _ _ rawAttempt_hears⟩
  have hrecords := records_heard rawProgram noLibraries rawWorld 0 _ rawIndex hall _ hhears
  rw [hrecords.2.1]
  decide +kernel

end Main.Program

end FeedBench
