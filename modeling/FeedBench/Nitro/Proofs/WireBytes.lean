import FeedBench.Nitro.Proofs.Reconnect
import FeedBench.Stats.Proofs.Confluence

/-!
# Bytes on the wire

The byte count of a source grows with every Block event, so a message is counted once for
each feed message in it: not at all when it carries none, and several times when it carries
several.
-/

namespace FeedBench

def Event.wireLen {n : Nat} (e : Event n) : UInt64 :=
  match e.payload with
  | .block _ _ _ _ wireLen => wireLen
  | _ => 0

def Event.wireSum {n : Nat} (es : List (Event n)) : Nat := (es.map fun e => e.wireLen.toNat).sum

namespace Stats.Collector

open Lib

variable {n : Nat}

theorem move_wireBytes (l : Lane) (e : Event n) :
    (l.move e).wireBytes = l.wireBytes + e.wireLen := by
  obtain ⟨s, t, p⟩ := e
  have hzero : l.wireBytes = l.wireBytes + 0 := (UInt64.add_zero l.wireBytes).symm
  cases p with
  | block => rfl
  | tx => exact hzero
  | disconnected => exact hzero
  | connected detail =>
      unfold Lane.move
      dsimp only
      split
      · exact hzero
      · exact hzero

theorem wireBytes_onEvent (c : Collector n) (e : Event n) (s : Fin n) :
    (c.onEvent e).1.wireBytes.get s =
      if e.source = s then c.wireBytes.get s + e.wireLen else c.wireBytes.get s := by
  have hlane := congrArg Lane.wireBytes (c.lane_onEvent e s)
  rw [apply_ite Lane.wireBytes, move_wireBytes] at hlane
  exact hlane

/-- The byte count of a source, modulo its width. -/
theorem wireBytes_run (c : Collector n) (es : List (Event n)) (s : Fin n) :
    ((c.run es).wireBytes.get s).toNat =
      ((c.wireBytes.get s).toNat + Event.wireSum (es.filter fun e => e.source = s)) % 2 ^ 64 := by
  have hview : (c.run es).wireBytes.get s =
      (es.filter fun e => e.source = s).foldl (fun bytes e => bytes + e.wireLen)
        (c.wireBytes.get s) := by
    apply foldl_view (fun c : Collector n => c.wireBytes.get s)
    intro c e
    rw [wireBytes_onEvent]
    simp only [decide_eq_true_eq]
  have hsum : ∀ (es : List (Event n)) (bytes : UInt64),
      (es.foldl (fun bytes e => bytes + e.wireLen) bytes).toNat =
        (bytes.toNat + Event.wireSum es) % 2 ^ 64 := by
    intro es
    induction es with
    | nil =>
        intro bytes
        exact (Nat.mod_eq_of_lt bytes.toNat_lt).symm
    | cons e es ih =>
        intro bytes
        rw [List.foldl_cons, ih, UInt64.toNat_add, Event.wireSum, Event.wireSum, List.map_cons,
          List.sum_cons]
        omega
  rw [hview, hsum]

end Stats.Collector

namespace Nitro

open Ws Inflate Stats Lib

variable {n : Nat} {codec : Codec} {args : Args n} {l l' : Locals} {v : Visit n}

/-! ## What a message adds -/

variable (codec) in
/-- How often the bytes of a message are counted: once for each feed message in it. -/
def carried (m : Message) : Nat := (blocksOf codec m).length

variable (codec) in
def countedBytes (messages : List Message) : Nat :=
  (messages.map fun m => carried codec m * m.wireLen).sum

def receivedBytes (messages : List Message) : Nat := (messages.map Message.wireLen).sum

theorem wireSum_append (es es' : List (Event n)) :
    Event.wireSum (es ++ es') = Event.wireSum es + Event.wireSum es' := by
  rw [Event.wireSum, List.map_append, List.sum_append, Event.wireSum, Event.wireSum]

theorem wireSum_eq_zero {es : List (Event n)} (h : ∀ e ∈ es, e.wireLen = 0) :
    Event.wireSum es = 0 := by
  induction es with
  | nil => rfl
  | cons e es ih =>
      rw [Event.wireSum, List.map_cons, List.sum_cons, h e List.mem_cons_self]
      exact (Nat.zero_add _).trans (ih fun e' he' => h e' (List.mem_cons_of_mem e he'))

theorem wireLen_of_link {e : Event n} (h : e.link.isSome) : e.wireLen = 0 := by
  obtain ⟨s, t, p⟩ := e
  cases p with
  | block | tx => cases h
  | connected | disconnected => rfl

theorem wireSum_blockEvents (t wireLen : Nat) (b : ParsedBlock) :
    Event.wireSum (blockEvents args.index t wireLen b) = wireLen % 2 ^ 64 := by
  have htxs : Event.wireSum (blockEvents args.index t wireLen b).tail = 0 := by
    apply wireSum_eq_zero
    intro e he
    obtain ⟨tx, _, rfl⟩ := List.mem_map.mp he
    rfl
  show (UInt64.ofNat wireLen).toNat + Event.wireSum (blockEvents args.index t wireLen b).tail = _
  rw [htxs, Nat.add_zero, UInt64.toNat_ofNat']

theorem wireSum_messageEvents (m : Message) :
    Event.wireSum (messageEvents codec args m) = carried codec m * (m.wireLen % 2 ^ 64) := by
  unfold messageEvents carried
  induction blocksOf codec m with
  | nil =>
      rw [List.length_nil, Nat.zero_mul]
      rfl
  | cons b blocks ih =>
      rw [List.flatMap_cons, wireSum_append, ih, wireSum_blockEvents, List.length_cons,
        Nat.add_mul, Nat.one_mul, Nat.add_comm]

theorem wireSum_flatMap (messages : List Message) :
    Event.wireSum (messages.flatMap (messageEvents codec args)) % 2 ^ 64 =
      countedBytes codec messages % 2 ^ 64 := by
  induction messages with
  | nil => rfl
  | cons m messages ih =>
      rw [List.flatMap_cons, wireSum_append, wireSum_messageEvents, Nat.add_mod, ih,
        Nat.mul_mod_mod, ← Nat.add_mod]
      rfl

theorem Emits.wireSum (h : Emits codec args l l' v) :
    Event.wireSum v.events % 2 ^ 64 = countedBytes codec v.messages % 2 ^ 64 := by
  obtain ⟨before, after, hevents, hlinks⟩ := h.events
  have hbefore : Event.wireSum before = 0 :=
    wireSum_eq_zero fun e he => wireLen_of_link (hlinks e (List.mem_append_left after he)).2
  have hafter : Event.wireSum after = 0 :=
    wireSum_eq_zero fun e he => wireLen_of_link (hlinks e (List.mem_append_right before he)).2
  rw [hevents, wireSum_append, wireSum_append, hbefore, hafter, Nat.zero_add, Nat.add_zero,
    wireSum_flatMap]

theorem wireSum_run {visits : List (Visit n)}
    (h : ∀ v ∈ visits, ∃ l₁ l₂, Emits codec args l₁ l₂ v) :
    Event.wireSum (visits.flatMap Visit.events) % 2 ^ 64 =
      countedBytes codec (visits.flatMap Visit.messages) % 2 ^ 64 := by
  induction visits with
  | nil => rfl
  | cons v visits ih =>
      obtain ⟨l₁, l₂, hemits⟩ := h v List.mem_cons_self
      have hrest := ih fun v' hv' => h v' (List.mem_cons_of_mem v hv')
      rw [List.flatMap_cons, List.flatMap_cons, wireSum_append, Nat.add_mod, hemits.wireSum,
        hrest, ← Nat.add_mod, countedBytes, countedBytes, countedBytes, List.map_append,
        List.sum_append]

/-! ## The law -/

/-- The collector was fed what the turns sent, between the events of other sources. -/
def Fed (args : Args n) (visits : List (Visit n)) (es : List (Event n)) : Prop :=
  es.filter (fun e => e.source = args.index) = visits.flatMap Visit.events

/-- The byte count is right: every message received counts once. -/
def Counted (args : Args n) (visits : List (Visit n)) (c : Collector n) : Prop :=
  c.wireBytes.get args.index = UInt64.ofNat (receivedBytes (visits.flatMap Visit.messages))

variable {c₀ : Collector n} {Z : Decompress} {attempts : List Attempt} {es : List (Event n)}

theorem counted_iff (h₀ : c₀.wireBytes.get args.index = 0)
    (hes : Fed args (run codec args Z l attempts) es) :
    Counted args (run codec args Z l attempts) (c₀.run es) ↔
      countedBytes codec ((run codec args Z l attempts).flatMap Visit.messages) % 2 ^ 64 =
        receivedBytes ((run codec args Z l attempts).flatMap Visit.messages) % 2 ^ 64 := by
  have hsum : Event.wireSum ((run codec args Z l attempts).flatMap Visit.events) % 2 ^ 64 =
      countedBytes codec ((run codec args Z l attempts).flatMap Visit.messages) % 2 ^ 64 :=
    wireSum_run fun v hv => mem_run hv
  rw [Counted, ← UInt64.toNat_inj, Collector.wireBytes_run, hes, h₀, UInt64.toNat_ofNat',
    UInt64.toNat_zero, Nat.zero_add, hsum]

theorem countedBytes_eq {messages : List Message} (h : ∀ m ∈ messages, carried codec m = 1) :
    countedBytes codec messages = receivedBytes messages := by
  unfold countedBytes receivedBytes
  congr 1
  apply List.map_congr_left
  intro m hm
  rw [h m hm, Nat.one_mul]

theorem carried_eq_one {messages : List Message} {m : Message}
    (h : countedBytes codec messages % 2 ^ 64 = receivedBytes messages % 2 ^ 64)
    (h' : countedBytes codec (messages ++ [m]) % 2 ^ 64 =
      receivedBytes (messages ++ [m]) % 2 ^ 64)
    (hpos : 0 < m.wireLen) (hlt : m.wireLen < 2 ^ 64)
    (htimes : carried codec m * m.wireLen < 2 ^ 64) : carried codec m = 1 := by
  have hcounted : countedBytes codec (messages ++ [m]) =
      countedBytes codec messages + carried codec m * m.wireLen := by
    rw [countedBytes, List.map_append, List.sum_append]
    rfl
  have hreceived : receivedBytes (messages ++ [m]) = receivedBytes messages + m.wireLen := by
    rw [receivedBytes, List.map_append, List.sum_append]
    rfl
  rw [hcounted, hreceived] at h'
  have hone : carried codec m * m.wireLen % 2 ^ 64 = m.wireLen % 2 ^ 64 := by omega
  rw [Nat.mod_eq_of_lt htimes, Nat.mod_eq_of_lt hlt] at hone
  exact Nat.eq_of_mul_eq_mul_right hpos (by rw [hone, Nat.one_mul])

/-- **Bytes received.** The byte count of a Nitro source is right when every message carries
exactly one feed message, and a message that carries another number of them spoils it. -/
theorem wireBytes_counted (sources : Vector SourceInfo n) (reference : Fin n)
    (minSources warmup start : Nat) (codec : Codec) (args : Args n) (Z : Decompress) :
    let c₀ := Collector.new sources reference minSources warmup start
    let visits := run codec args Z .start
    let messages := fun attempts => (visits attempts).flatMap Visit.messages
    (∀ attempts es, Fed args (visits attempts) es →
      (∀ m ∈ messages attempts, carried codec m = 1) →
      Counted args (visits attempts) (c₀.run es)) ∧
    ∀ attempts attempts' es es' m, Fed args (visits attempts) es →
      Fed args (visits attempts') es' → messages attempts' = messages attempts ++ [m] →
      0 < m.wireLen → m.wireLen < 2 ^ 64 → carried codec m * m.wireLen < 2 ^ 64 →
      Counted args (visits attempts) (c₀.run es) →
      Counted args (visits attempts') (c₀.run es') → carried codec m = 1 := by
  intro c₀ visits messages
  have h₀ : c₀.wireBytes.get args.index = 0 := get_replicate 0 args.index
  constructor
  · intro attempts es hes hone
    rw [counted_iff h₀ hes, countedBytes_eq hone]
  · intro attempts attempts' es es' m hes hes' hmore hpos hlt htimes hcounted hcounted'
    have hbefore := (counted_iff h₀ hes).mp hcounted
    have hafter := (counted_iff h₀ hes').mp hcounted'
    have hmessages : (run codec args Z .start attempts').flatMap Visit.messages =
        (run codec args Z .start attempts).flatMap Visit.messages ++ [m] := hmore
    rw [hmessages] at hafter
    exact carried_eq_one hbefore hafter hpos hlt htimes

/-! ## Two feed messages in one frame -/

def backlogText : List UInt8 :=
  ("\x7b\"messages\":[\x7b\"sequenceNumber\":10,\"message\":\x7b\"message\":\x7b\x7d\x7d\x7d," ++
    "\x7b\"sequenceNumber\":11,\"message\":\x7b\"message\":\x7b\x7d\x7d\x7d]\x7d").toList.map
    fun c => UInt8.ofNat c.toNat

def backlogCodec : Codec where
  fromSlice data :=
    if data = backlogText then .ok [⟨10, none, none⟩, ⟨11, none, none⟩]
    else feedCodec.fromSlice data
  base64 := feedCodec.base64
  keccak256 := feedCodec.keccak256

def backlog : List Attempt := [feedAttempt 5 [backlogText]]

def oneFeed : Vector SourceInfo 1 := #v[⟨"feed", "nitro"⟩]

/-- The frame has 110 bytes on the wire, and 220 are counted. -/
theorem backlog_not_counted :
    let visits := run backlogCodec feedArgs Client.noDeflate .start backlog
    let c := (Collector.new oneFeed 0 1 0 0).run (visits.flatMap Visit.events)
    receivedBytes (visits.flatMap Visit.messages) = 110 ∧
      c.wireBytes.get feedArgs.index = 220 ∧ ¬Counted feedArgs visits c := by
  intro visits c
  have hbytes : receivedBytes (visits.flatMap Visit.messages) = 110 ∧
      c.wireBytes.get feedArgs.index = 220 := by decide +kernel
  obtain ⟨hreceived, hcounted⟩ := hbytes
  refine ⟨hreceived, hcounted, ?_⟩
  rw [Counted, hreceived, hcounted]
  decide

theorem wireBytes_counted_replay :
    let visits := run feedCodec feedArgs Client.noDeflate .start replay
    Counted feedArgs visits ((Collector.new oneFeed 0 1 0 0).run (visits.flatMap Visit.events)) :=
  (wireBytes_counted oneFeed 0 1 0 0 feedCodec feedArgs Client.noDeflate).1 replay _
    (List.filter_eq_self.mpr fun e he => decide_eq_true (source_run e he)) (by decide +kernel)

end Nitro

end FeedBench
