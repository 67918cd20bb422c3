import FeedBench.Nitro.Proofs.Emission
import FeedBench.Proofs.Deliveries
import FeedBench.System

/-!
# What the adapters deliver

Each adapter conveys what its messages, or its updates, bring.  A WebSocket adapter has a group
of events for each message.  The Eira adapter leaves out the Block events it remembers having
sent, which is no loss, since it forgets but never makes up a key.
-/

namespace FeedBench

open Lib Ws

variable {n : Nat}

/-! ## WebSocket adapters -/

section Messages

variable {i : Fin n} {events : Message → List (Event n)} {deliver : Message → Delivery}

theorem conveys_messages (h : ∀ before m, Group i before (deliver m) (events m))
    (messages : List Message) : Conveys i (messages.map deliver) (messages.flatMap events) := by
  induction messages using List.reverseRecOn with
  | nil => exact .nil
  | append_singleton messages m ih =>
      rw [List.map_append, List.flatMap_append, List.flatMap_singleton]
      exact ih.deliver (h _ m)

theorem conveys_visit (h : ∀ before m, Group i before (deliver m) (events m)) {v : Visit n}
    {before after : List (Event n)}
    (hevents : v.events = before ++ v.messages.flatMap events ++ after)
    (hlinks : ∀ e ∈ before ++ after, e.source = i ∧ e.link.isSome) :
    Conveys i (v.messages.map deliver) v.events := by
  have hbefore : Conveys i [] before := by
    rw [← List.nil_append before]
    exact Conveys.nil.links fun e he => hlinks e (List.mem_append_left after he)
  have hall := hbefore.append (conveys_messages h v.messages)
  rw [List.nil_append] at hall
  rw [hevents]
  exact hall.links fun e he => hlinks e (List.mem_append_right before he)

theorem conveys_visits {visits : List (Visit n)}
    (h : ∀ v ∈ visits, Conveys i (v.messages.map deliver) v.events) :
    Conveys i ((visits.flatMap Visit.messages).map deliver) (visits.flatMap Visit.events) := by
  induction visits with
  | nil => exact .nil
  | cons v visits ih =>
      rw [List.flatMap_cons, List.flatMap_cons, List.map_append]
      exact (h v List.mem_cons_self).append
        (ih fun v' hv' => h v' (List.mem_cons_of_mem v hv'))

end Messages

namespace Nitro

variable (codec : Codec) (args : Args n)

def delivery (m : Message) : Delivery where
  t := args.stamp.of m
  blocks := (blocksOf codec m).map fun b => seqKey b.seq.toNat
  txs := (blocksOf codec m).flatMap ParsedBlock.txs

theorem group_messageEvents (before : List Delivery) (m : Message) :
    Group args.index before (delivery codec args m) (messageEvents codec args m) where
  source e he := (mem_messageEvents he).1
  stamp e he := (mem_messageEvents he).2
  blocks_sound e he key hkey := by
    obtain ⟨b, hb, heb⟩ := List.mem_flatMap.mp he
    rcases List.mem_cons.mp heb with rfl | hmem
    · rw [← Option.some.inj hkey]
      exact List.mem_map_of_mem hb
    · obtain ⟨tx, -, rfl⟩ := List.mem_map.mp hmem
      cases hkey
  blocks_complete key hkey := by
    obtain ⟨b, hb, rfl⟩ := List.mem_map.mp hkey
    exact .inl ⟨_, List.mem_flatMap.mpr ⟨b, hb, List.mem_cons_self⟩, rfl⟩
  txs := by
    have hblock : ∀ t wireLen b,
        (blockEvents args.index t wireLen b).filterMap Event.tx = b.txs := by
      intro t wireLen b
      show (b.txs.map _).filterMap Event.tx = b.txs
      rw [List.filterMap_map]
      exact List.filterMap_some
    unfold messageEvents
    rw [List.filterMap_flatMap]
    simp only [hblock]
    rfl

theorem conveys_run (Z : Inflate.Decompress) (l : Locals) (attempts : List Attempt) :
    Conveys args.index
      (((run codec args Z l attempts).flatMap Visit.messages).map (delivery codec args))
      ((run codec args Z l attempts).flatMap Visit.events) := by
  apply conveys_visits
  intro v hv
  obtain ⟨l₁, l₂, hemits⟩ := mem_run hv
  obtain ⟨before, after, hevents, hlinks⟩ := hemits.events
  exact conveys_visit (group_messageEvents codec args) hevents hlinks

end Nitro

namespace Generic

variable (src : Generic n)

/-- Everything a turn says: what its messages bring, and news of the connection. -/
theorem visit_emits (Z : Inflate.Decompress) (backoff : Nat) (attempt : Attempt) :
    ∃ before after, (src.visit Z backoff attempt).2.events =
        before ++ (src.visit Z backoff attempt).2.messages.flatMap src.events ++ after ∧
      ∀ e ∈ before ++ after, e.source = src.index ∧ e.link.isSome := by
  unfold visit
  dsimp only
  split
  · exact ⟨[], [], rfl, by simp⟩
  · exact ⟨[], [], rfl, by simp⟩
  · split
    · exact ⟨[], [], rfl, by simp⟩
    · refine ⟨[_], _, rfl, ?_⟩
      intro e he
      rcases List.mem_append.mp he with he | he
      · rw [List.mem_singleton.mp he]
        exact ⟨rfl, rfl⟩
      · obtain ⟨reason, -, rfl⟩ := List.mem_map.mp he
        exact ⟨rfl, rfl⟩

theorem mem_run {Z : Inflate.Decompress} {backoff : Nat} {attempts : List Attempt} {v : Visit n}
    (hv : v ∈ src.run Z backoff attempts) :
    ∃ backoff attempt, v = (src.visit Z backoff attempt).2 := by
  induction attempts generalizing backoff with
  | nil => cases hv
  | cons attempt attempts ih =>
      have hturn : ∃ backoff' attempt', src.visit Z backoff attempt =
          src.visit Z backoff' attempt' := ⟨backoff, attempt, rfl⟩
      rw [run] at hv
      generalize src.visit Z backoff attempt = turn at hv hturn
      rcases List.mem_cons.mp hv with rfl | hv
      · obtain ⟨backoff', attempt', heq⟩ := hturn
        exact ⟨backoff', attempt', by rw [← heq]⟩
      · cases hsleep : turn.2.sleep with
        | none =>
            rw [hsleep] at hv
            cases hv
        | some d =>
            rw [hsleep] at hv
            exact ih hv

theorem conveys_run {deliver : Message → Delivery}
    (h : ∀ before m, Group src.index before (deliver m) (src.events m)) (Z : Inflate.Decompress)
    (backoff : Nat) (attempts : List Attempt) :
    Conveys src.index (((src.run Z backoff attempts).flatMap Visit.messages).map deliver)
      ((src.run Z backoff attempts).flatMap Visit.events) := by
  apply conveys_visits
  intro v hv
  obtain ⟨backoff', attempt, rfl⟩ := src.mem_run hv
  obtain ⟨before, after, hevents, hlinks⟩ := src.visit_emits Z backoff' attempt
  exact conveys_visit h hevents hlinks

end Generic

def txDelivery (t : Nat) (keys : List (Hash × UInt32)) : Delivery := ⟨t, [], keys⟩

theorem group_txs {i : Fin n} {t : Nat} (event : Hash × UInt32 → Event n)
    (hsource : ∀ key, (event key).source = i) (hstamp : ∀ key, (event key).t = t)
    (hblock : ∀ key, (event key).blockKey = none) (htx : ∀ key, (event key).tx = some key)
    (before : List Delivery) (keys : List (Hash × UInt32)) :
    Group i before (txDelivery t keys) (keys.map event) where
  source e he := by
    obtain ⟨key, -, rfl⟩ := List.mem_map.mp he
    exact hsource key
  stamp e he := by
    obtain ⟨key, -, rfl⟩ := List.mem_map.mp he
    exact hstamp key
  blocks_sound e he k hk := by
    obtain ⟨key, -, rfl⟩ := List.mem_map.mp he
    rw [hblock] at hk
    cases hk
  blocks_complete key hkey := absurd hkey List.not_mem_nil
  txs := by
    rw [List.filterMap_map]
    calc keys.filterMap (Event.tx ∘ event) = keys.filterMap some :=
          List.filterMap_congr fun key _ => htx key
      _ = keys := List.filterMap_some

/-! ## The Eira adapter -/

namespace Eira

variable (args : Args n)

def delivery (s : Stamped) : Option Delivery :=
  match s.update with
  | .transaction t =>
      (t.accept args.wanted).map fun hash =>
        ⟨s.t, [t.blockKey], [(hash, UInt32.ofNat t.rawTx.length)]⟩
  | _ => none

def delivered : List Session → List Delivery
  | [] => []
  | session :: sessions =>
      session.updates.filterMap (delivery args) ++
        if session.ending.isSome then delivered sessions else []

def Remembers (before : List Delivery) (l : Locals) : Prop :=
  ∀ key ∈ l.seenBlocks, ∃ d ∈ before, key ∈ d.blocks

variable {args} {before : List Delivery} {es : List (Event n)} {l : Locals}

theorem Remembers.trim (h : Remembers before l) :
    ∀ key ∈ l.trim, ∃ d ∈ before, key ∈ d.blocks := by
  intro key hkey
  unfold Locals.trim at hkey
  split at hkey
  · exact absurd hkey (Finset.notMem_empty key)
  · exact h key hkey

theorem group_transaction {t : Transaction} {s : Nat} {hash : Hash} (h : Remembers before l) :
    Group args.index before ⟨s, [t.blockKey], [(hash, UInt32.ofNat t.rawTx.length)]⟩
      ((if t.blockKey ∈ l.trim then [] else [blockEvent args s t]) ++ [txEvent args s t hash]) := by
  have hmem : ∀ e ∈ (if t.blockKey ∈ l.trim then [] else [blockEvent args s t]) ++
      [txEvent args s t hash], e = blockEvent args s t ∨ e = txEvent args s t hash := by
    intro e he
    rcases List.mem_append.mp he with he | he
    · split at he
      · cases he
      · exact .inl (List.mem_singleton.mp he)
    · exact .inr (List.mem_singleton.mp he)
  refine ⟨?_, ?_, ?_, ?_, ?_⟩
  · intro e he
    rcases hmem e he with rfl | rfl <;> rfl
  · intro e he
    rcases hmem e he with rfl | rfl <;> rfl
  · intro e he key hkey
    rcases hmem e he with rfl | rfl
    · rw [← Option.some.inj hkey]
      exact List.mem_singleton_self _
    · cases hkey
  · intro key hkey
    rw [List.mem_singleton.mp hkey]
    by_cases hseen : t.blockKey ∈ l.trim
    · exact .inr (h.trim _ hseen)
    · refine .inl ⟨blockEvent args s t, ?_, rfl⟩
      rw [if_neg hseen]
      exact List.mem_append_left _ (List.mem_singleton_self _)
  · split <;> rfl

theorem conveys_step (h : Conveys args.index before es) (hl : Remembers before l) (s : Stamped) :
    Conveys args.index (before ++ (delivery args s).toList) (es ++ (step args l s).2) ∧
      Remembers (before ++ (delivery args s).toList) (step args l s).1 := by
  unfold step delivery
  cases s.update with
  | ack filterCount =>
      dsimp only [Option.toList]
      rw [List.append_nil]
      split
      · exact ⟨by rwa [List.append_nil], hl⟩
      · exact ⟨h.link rfl rfl, hl⟩
  | sourceStatus commitment connected sourceEpoch =>
      dsimp only [Option.toList]
      rw [List.append_nil]
      split
      · refine ⟨h.link rfl ?_, hl⟩
        cases connected <;> rfl
      · exact ⟨by rwa [List.append_nil], hl⟩
  | transaction t =>
      dsimp only
      cases t.accept args.wanted with
      | none =>
          dsimp only [Option.map_none, Option.toList]
          rw [List.append_nil, List.append_nil]
          exact ⟨h, hl⟩
      | some hash =>
          refine ⟨h.deliver (group_transaction hl), ?_⟩
          intro key hkey
          rcases Finset.mem_insert.mp hkey with rfl | hkey
          · exact ⟨_, List.mem_append_right _ (List.mem_singleton_self _),
              List.mem_singleton_self _⟩
          · obtain ⟨d, hd, hk⟩ := hl.trim key hkey
            exact ⟨d, List.mem_append_left _ hd, hk⟩
  | other =>
      dsimp only [Option.toList]
      rw [List.append_nil, List.append_nil]
      exact ⟨h, hl⟩

theorem conveys_loop (h : Conveys args.index before es) (hl : Remembers before l)
    (updates : List Stamped) :
    Conveys args.index (before ++ updates.filterMap (delivery args))
      (es ++ loop args l updates) := by
  induction updates generalizing before es l with
  | nil =>
      rw [List.filterMap_nil, List.append_nil, loop, List.append_nil]
      exact h
  | cons s updates ih =>
      have hcons : (s :: updates).filterMap (delivery args) =
          (delivery args s).toList ++ updates.filterMap (delivery args) := by
        rw [List.filterMap_cons]
        cases delivery args s <;> rfl
      have hstep := conveys_step h hl s
      rw [loop, hcons, ← List.append_assoc, ← List.append_assoc]
      exact ih hstep.1 hstep.2

theorem conveys_run (args : Args n) (sessions : List Session) :
    Conveys args.index (delivered args sessions) (run args sessions) := by
  induction sessions with
  | nil => exact .nil
  | cons session sessions ih =>
      have hnone : Remembers [] Locals.start := fun key hkey =>
        absurd hkey (Finset.notMem_empty key)
      have hstart : Conveys args.index [] ([] : List (Event n)) := .nil
      have hloop := conveys_loop hstart hnone session.updates
      rw [List.nil_append, List.nil_append] at hloop
      have hdown : ∀ e ∈ session.down args, e.source = args.index ∧ e.link.isSome := by
        intro e he
        obtain ⟨x, -, rfl⟩ := List.mem_map.mp he
        exact ⟨rfl, rfl⟩
      rw [run, delivered]
      apply (hloop.links hdown).append
      split
      · exact ih
      · exact .nil

end Eira

/-! ## Tasks -/

namespace Main.Job

variable (L : Libraries) (index : Fin n)

/-- What a task was delivered. -/
def deliveries : (job : Job) → job.World → List Delivery
  | .nitro src offer stamp, attempts =>
      ((Nitro.run L.feedCodec ⟨index, src, offer, stamp⟩ L.decompress .start attempts).flatMap
        Visit.messages).map (Nitro.delivery L.feedCodec ⟨index, src, offer, stamp⟩)
  | .eira _ level, sessions => Eira.delivered ⟨index, level, L.commitment⟩ sessions
  | .wsjson src stamp, attempts =>
      ((WsJson.run L.keyCodec L.valueFromSlice index src stamp L.decompress attempts).flatMap
        Visit.messages).map fun m =>
          txDelivery (stamp.of m) (WsJson.messageKeys L.keyCodec L.valueFromSlice src.path m)
  | .wsraw src stamp, attempts =>
      ((WsRaw.run L.rawCodec index src stamp L.decompress attempts).flatMap
        Visit.messages).map fun m =>
          txDelivery (stamp.of m) (WsRaw.messageKeys L.rawCodec m.data)

theorem conveys (job : Job) (world : job.World) :
    Conveys index (job.deliveries L index world) (job.sends L index world) := by
  cases job with
  | nitro src offer stamp =>
      exact Nitro.conveys_run L.feedCodec ⟨index, src, offer, stamp⟩ L.decompress .start world
  | eira addr level => exact Eira.conveys_run ⟨index, level, L.commitment⟩ world
  | wsjson src stamp =>
      refine (WsJson.feed L.keyCodec L.valueFromSlice index src stamp).conveys_run ?_
        L.decompress initialBackoff world
      intro before m
      exact group_txs (WsJson.txEvent index (stamp.of m)) (fun _ => rfl) (fun _ => rfl)
        (fun _ => rfl) (fun _ => rfl) before _
  | wsraw src stamp =>
      refine (WsRaw.feed L.rawCodec index src stamp).conveys_run ?_
        L.decompress initialBackoff world
      intro before m
      exact group_txs (WsRaw.txEvent index (stamp.of m)) (fun _ => rfl) (fun _ => rfl)
        (fun _ => rfl) (fun _ => rfl) before _

end Main.Job

end FeedBench
