import FeedBench.Eira.Session
import FeedBench.Stats.Proofs.Alike

/-!
# The block dedupe is transparent

A session sends the Block event of a key once, as far as its bounded set of keys remembers.
The offers of a session are its events with a Block event before every accepted
transaction, each flagged with whether the session sends it.  A Block event that is not sent
repeats one that was, so the collector can do without it.
-/

namespace FeedBench.Eira

open Lib Stats

variable {n : Nat} (args : Args n)

/-! ## Offers -/

/-- The events of one turn, the Block event of an accepted transaction always among them. -/
def offer (l : Locals) (s : Stamped) : List (Event n × Bool) :=
  match s.update with
  | .transaction t =>
      match t.accept args.wanted with
      | none => []
      | some hash =>
          [(blockEvent args s.t t, decide (t.blockKey ∉ l.trim)), (txEvent args s.t t hash, true)]
  | _ => (step args l s).2.map fun e => (e, true)

def offerLoop : Locals → List Stamped → List (Event n × Bool)
  | _, [] => []
  | l, s :: updates => offer args l s ++ offerLoop (step args l s).1 updates

def offers : List Session → List (Event n × Bool)
  | [] => []
  | session :: sessions =>
      offerLoop args .start session.updates ++ (session.down args).map (fun e => (e, true)) ++
        if session.ending.isSome then offers sessions else []

theorem kept_offer (l : Locals) (s : Stamped) : kept (offer args l s) = (step args l s).2 := by
  unfold offer step
  cases s.update with
  | transaction t =>
      dsimp only
      cases t.accept args.wanted with
      | none => rfl
      | some hash =>
          by_cases hmem : t.blockKey ∈ l.trim
          · simp [kept, hmem]
          · simp [kept, hmem]
  | ack | sourceStatus | other => exact kept_map_true _

theorem kept_offerLoop (l : Locals) (updates : List Stamped) :
    kept (offerLoop args l updates) = loop args l updates := by
  induction updates generalizing l with
  | nil => rfl
  | cons s updates ih => rw [offerLoop, kept_append, kept_offer, ih, loop]

theorem kept_offers (sessions : List Session) :
    kept (offers args sessions) = run args sessions := by
  induction sessions with
  | nil => rfl
  | cons session sessions ih =>
      rw [offers, run, kept_append, kept_append, kept_offerLoop, kept_map_true]
      cases session.ending.isSome with
      | false => rfl
      | true => rw [if_pos rfl, if_pos rfl, ih]

theorem source_offer (l : Locals) (s : Stamped) :
    ∀ x ∈ offer args l s, decide (x.1.source = args.index) = true := by
  unfold offer step
  cases s.update with
  | transaction t =>
      dsimp only
      cases t.accept args.wanted <;> simp [blockEvent, txEvent]
  | ack =>
      dsimp only
      split <;> simp
  | sourceStatus =>
      dsimp only
      split <;> simp
  | other => simp

theorem source_offerLoop (l : Locals) (updates : List Stamped) :
    ∀ x ∈ offerLoop args l updates, decide (x.1.source = args.index) = true := by
  induction updates generalizing l with
  | nil => exact fun x hx => absurd hx List.not_mem_nil
  | cons s updates ih =>
      intro x hx
      rcases List.mem_append.mp hx with hx | hx
      · exact source_offer args l s x hx
      · exact ih _ x hx

theorem source_offers (sessions : List Session) :
    ∀ x ∈ offers args sessions, decide (x.1.source = args.index) = true := by
  induction sessions with
  | nil => exact fun x hx => absurd hx List.not_mem_nil
  | cons session sessions ih =>
      intro x hx
      rw [offers, List.mem_append, List.mem_append] at hx
      rcases hx with (hx | hx) | hx
      · exact source_offerLoop args _ _ x hx
      · simp only [Session.down, List.map_map, List.mem_map, Function.comp_apply] at hx
        obtain ⟨y, -, rfl⟩ := hx
        exact decide_eq_true rfl
      · split at hx
        · exact ih x hx
        · exact absurd hx List.not_mem_nil

/-! ## Every offer that is not sent repeats one that was -/

def Announced (es : List (Event n × Bool)) (t : Transaction) : Prop :=
  ∃ s t', (blockEvent args s t', true) ∈ es ∧ t'.blockKey = t.blockKey

/-- Every offer that is not sent repeats one that was sent before. -/
def Backed (es : List (Event n × Bool)) : Prop :=
  ∀ p e q, es = p ++ (e, false) :: q → ∃ s t, e = blockEvent args s t ∧ Announced args p t

variable {args}

theorem Announced.mono {es es' : List (Event n × Bool)} {t : Transaction}
    (h : Announced args es t) : Announced args (es ++ es') t := by
  obtain ⟨s, t', hmem, hkey⟩ := h
  exact ⟨s, t', List.mem_append_left _ hmem, hkey⟩

theorem Backed.snoc {es : List (Event n × Bool)} {e : Event n} {b : Bool} (h : Backed args es)
    (hb : b = false → ∃ s t, e = blockEvent args s t ∧ Announced args es t) :
    Backed args (es ++ [(e, b)]) := by
  intro p e' q hes
  rcases split_snoc hes with ⟨rfl, heq⟩ | ⟨q', rfl⟩
  · cases heq
    exact hb rfl
  · exact h p e' q' rfl

theorem Backed.append_true {es : List (Event n × Bool)} (h : Backed args es) (l : List (Event n)) :
    Backed args (es ++ l.map fun e => (e, true)) := by
  induction l using List.reverseRecOn with
  | nil => rwa [List.map_nil, List.append_nil]
  | append_singleton l e ih =>
      rw [List.map_append, ← List.append_assoc]
      exact ih.snoc fun hb => by cases hb

def Remembered (args : Args n) (es : List (Event n × Bool)) (seen : Finset String) : Prop :=
  ∀ t : Transaction, t.blockKey ∈ seen → Announced args es t

theorem seq_isSome_of_blockKey_eq {t t' : Transaction} (h : t.blockKey = t'.blockKey) :
    t.seq.isSome = t'.seq.isSome := by
  have hne : ∀ a b : String, "seq:" ++ a ≠ "num:" ++ b := by
    intro a b heq
    have := congrArg (fun x : String => x.toList.head?) heq
    simp at this
  unfold Transaction.blockKey at h
  unfold Transaction.seq
  by_cases ht : 0 < t.feedSequence
  · by_cases ht' : 0 < t'.feedSequence
    · rw [if_pos ht, if_pos ht']
      rfl
    · rw [if_pos ht, if_neg ht'] at h
      exact absurd h (hne _ _)
  · by_cases ht' : 0 < t'.feedSequence
    · rw [if_neg ht, if_pos ht'] at h
      exact absurd h.symm (hne _ _)
    · rw [if_neg ht, if_neg ht']

theorem backed_offer {es : List (Event n × Bool)} {l : Locals} (hb : Backed args es)
    (hr : Remembered args es l.seenBlocks) (s : Stamped) :
    Backed args (es ++ offer args l s) ∧
      Remembered args (es ++ offer args l s) (step args l s).1.seenBlocks := by
  have hmono : ∀ (o : List (Event n × Bool)) (seen : Finset String),
      Remembered args es seen → Remembered args (es ++ o) seen :=
    fun o seen h t ht => (h t ht).mono
  unfold offer step
  cases s.update with
  | ack filterCount =>
      refine ⟨hb.append_true _, ?_⟩
      dsimp only
      split <;> exact hmono _ _ hr
  | sourceStatus commitment connected sourceEpoch =>
      refine ⟨hb.append_true _, ?_⟩
      dsimp only
      split <;> exact hmono _ _ hr
  | other => exact ⟨hb.append_true _, hmono _ _ hr⟩
  | transaction t =>
      dsimp only
      cases t.accept args.wanted with
      | none =>
          rw [List.append_nil]
          exact ⟨hb, hr⟩
      | some hash =>
          -- a clear forgets keys, it does not make up any
          have htrim : Remembered args es l.trim := by
            intro t' ht'
            unfold Locals.trim at ht'
            split at ht'
            · exact absurd ht' (Finset.notMem_empty _)
            · exact hr t' ht'
          have hann : t.blockKey ∈ l.trim → Announced args es t := htrim t
          constructor
          · have hblock : Backed args
                (es ++ [(blockEvent args s.t t, decide (t.blockKey ∉ l.trim))]) := by
              apply hb.snoc
              intro hfalse
              exact ⟨s.t, t, rfl, hann (by simpa using hfalse)⟩
            have := hblock.snoc (e := txEvent args s.t t hash) (b := true) fun h => by cases h
            rwa [List.append_assoc] at this
          · intro t' ht'
            rcases Finset.mem_insert.mp ht' with hkey | hmem
            · by_cases hold : t.blockKey ∈ l.trim
              · exact ((htrim t' (hkey ▸ hold))).mono
              · exact ⟨s.t, t, by simp [hold], hkey.symm⟩
            · exact (htrim t' hmem).mono

theorem backed_offerLoop {es : List (Event n × Bool)} {l : Locals} (hb : Backed args es)
    (hr : Remembered args es l.seenBlocks) (updates : List Stamped) :
    Backed args (es ++ offerLoop args l updates) := by
  induction updates generalizing es l with
  | nil => rwa [offerLoop, List.append_nil]
  | cons s updates ih =>
      obtain ⟨hb', hr'⟩ := backed_offer hb hr s
      rw [offerLoop, ← List.append_assoc]
      exact ih hb' hr'

/-- Over any number of sessions, an offer that is not sent repeats one that was sent. -/
theorem backed_offers {es : List (Event n × Bool)} (hb : Backed args es)
    (sessions : List Session) : Backed args (es ++ offers args sessions) := by
  induction sessions generalizing es with
  | nil => rwa [offers, List.append_nil]
  | cons session sessions ih =>
      have hforgotten : Remembered args es Locals.start.seenBlocks :=
        fun t ht => absurd ht (Finset.notMem_empty _)
      have hsession := (backed_offerLoop hb hforgotten session.updates).append_true
        (session.down args)
      rw [offers, ← List.append_assoc, ← List.append_assoc]
      split
      · exact ih hsession
      · rwa [List.append_nil]

/-! ## The merged stream -/

/-- A merge of offers with events of other sources, all of which are sent.  The collector may
have stopped before the last offer. -/
structure Merged (args : Args n) (sessions : List Session) (es : List (Event n × Bool)) :
    Prop where
  own : es.filter (fun e => e.1.source = args.index) <+: offers args sessions
  others : ∀ e ∈ es, e.1.source ≠ args.index → e.2 = true

variable {c₀ : Collector n} {sessions : List Session} {es : List (Event n × Bool)}

/-- The Block event of a key that was announced may be left out. -/
theorem skips_announced (h₀ : c₀.IsNew) {p : List (Event n × Bool)} {t : Transaction}
    (h : Announced args p t) (s : Nat) :
    Skips Collector.onEvent Collector.Alike (c₀.run (whole p)) (blockEvent args s t) := by
  obtain ⟨s', t', hmem, hkey⟩ := h
  have hwhole : blockEvent args s' t' ∈ whole p := List.mem_map.mpr ⟨_, hmem, rfl⟩
  have hslot : ((c₀.run (whole p)).blockSlot t.blockKey args.index).isSome := by
    rw [Collector.blockSlot_run h₀, firstOf_isSome]
    exact ⟨_, hwhole, by simp [Event.isBlockFrom, blockEvent, hkey]⟩
  obtain ⟨a, ha⟩ := Option.isSome_iff_exists.mp hslot
  obtain ⟨r, hr, harr⟩ := Option.bind_eq_some_iff.mp ha
  apply Collector.skips_of_repeated rfl hr
  · show (r.arrivals.get args.index).isSome
    rw [harr]
    rfl
  · intro hseq
    rw [← seq_isSome_of_blockKey_eq hkey] at hseq
    obtain ⟨v, hv⟩ := Option.isSome_iff_exists.mp hseq
    have hreport : (blockEvent args s' t').seqFor t.blockKey = some v := by
      simp [Event.seqFor, blockEvent, hkey, hv]
    have := (Collector.blockSeq_run h₀ (whole p) t.blockKey).complete v ⟨_, hwhole, hreport⟩
    rwa [Collector.blockSeq, hr] at this

/-- The collector cannot tell the sent events from all offers. -/
theorem Merged.alike (h₀ : c₀.IsNew) (h : Merged args sessions es) :
    (c₀.run (whole es)).Alike (c₀.run (kept es)) ∧
      c₀.notices (whole es) = c₀.notices (kept es) := by
  apply Collector.isAlike.kept c₀ es
  rintro p e q rfl
  have hsource : e.source = args.index := by
    by_contra hne
    have := h.others (e, false) (by simp) hne
    cases this
  obtain ⟨r, hr⟩ := h.own
  rw [List.filter_append, List.filter_cons_of_pos (by simpa using hsource), List.append_assoc,
    List.cons_append] at hr
  have hbacked : Backed args (offers args sessions) := by
    have hempty : Backed args [] := fun p e q h => by simp at h
    have hall := backed_offers hempty sessions
    rwa [List.nil_append] at hall
  obtain ⟨s, t, rfl, s', t', hmem, hkey⟩ := hbacked _ e _ hr.symm
  exact skips_announced h₀ ⟨s', t', List.mem_of_mem_filter hmem, hkey⟩ s

/-! ## First transactions -/

structure Accepted where
  t : Nat
  hash : Hash
  key : String

variable (args) in
def acceptedOf (s : Stamped) : Option Accepted :=
  match s.update with
  | .transaction t => (t.accept args.wanted).map fun hash => ⟨s.t, hash, t.blockKey⟩
  | _ => none

variable (args) in
def accepted : List Session → List Accepted
  | [] => []
  | session :: sessions =>
      session.updates.filterMap (acceptedOf args) ++
        if session.ending.isSome then accepted sessions else []

/-- `p` picks among the offers what `q` picks among the accepted transactions. -/
structure Picks (args : Args n) (p : Event n → Bool) (q : Accepted → Bool) : Prop where
  link : ∀ e : Event n, e.link.isSome → p e = false
  tx : ∀ s t hash, firstOf p Event.t [blockEvent args s t, txEvent args s t hash] =
    firstOf q Accepted.t [⟨s, hash, t.blockKey⟩]

variable {p : Event n → Bool} {q : Accepted → Bool}

theorem Picks.firstOf_links (h : Picks args p q) {es : List (Event n)}
    (hes : ∀ e ∈ es, e.link.isSome) :
    firstOf p Event.t (whole (es.map fun e => (e, true))) = none := by
  apply firstOf_eq_none
  intro e he
  rw [whole, List.map_map] at he
  obtain ⟨e', he', rfl⟩ := List.mem_map.mp he
  exact h.link e' (hes e' he')

theorem Picks.firstOf_offer (h : Picks args p q) (l : Locals) (s : Stamped) :
    firstOf p Event.t (whole (offer args l s)) =
      firstOf q Accepted.t (acceptedOf args s).toList := by
  unfold offer acceptedOf step
  cases s.update with
  | transaction t =>
      dsimp only
      cases t.accept args.wanted with
      | none => rfl
      | some hash => exact h.tx s.t t hash
  | ack filterCount =>
      apply h.firstOf_links
      dsimp only
      split <;> simp [Event.link]
  | sourceStatus commitment connected sourceEpoch =>
      apply h.firstOf_links
      dsimp only
      split
      · cases connected <;> simp [Event.link]
      · simp
  | other => rfl

theorem Picks.firstOf_offerLoop (h : Picks args p q) (l : Locals) (updates : List Stamped) :
    firstOf p Event.t (whole (offerLoop args l updates)) =
      firstOf q Accepted.t (updates.filterMap (acceptedOf args)) := by
  induction updates generalizing l with
  | nil => rfl
  | cons s updates ih =>
      have hcons : (s :: updates).filterMap (acceptedOf args) =
          (acceptedOf args s).toList ++ updates.filterMap (acceptedOf args) := by
        rw [List.filterMap_cons]
        cases acceptedOf args s <;> rfl
      rw [offerLoop, whole_append, firstOf_append, h.firstOf_offer, ih, hcons, firstOf_append]

theorem Picks.firstOf_offers (h : Picks args p q) (sessions : List Session) :
    firstOf p Event.t (whole (offers args sessions)) =
      firstOf q Accepted.t (accepted args sessions) := by
  induction sessions with
  | nil => rfl
  | cons session sessions ih =>
      have hdown : firstOf p Event.t
          (whole ((session.down args).map fun e => (e, true))) = none := by
        apply h.firstOf_links
        intro e he
        obtain ⟨x, -, rfl⟩ := List.mem_map.mp he
        rfl
      rw [offers, accepted, whole_append, whole_append, firstOf_append, firstOf_append,
        h.firstOf_offerLoop, hdown, Option.or_none, firstOf_append]
      split
      · rw [ih]
      · rfl

theorem picks_block (args : Args n) (key : String) :
    Picks args (Event.isBlockFrom key args.index) (·.key == key) where
  link e he := by
    obtain ⟨s, t, p⟩ := e
    cases p with
    | block | tx => cases he
    | connected | disconnected => rfl
  tx s t hash := by
    by_cases hkey : t.blockKey = key
    · simp [firstOf, Event.isBlockFrom, blockEvent, hkey]
    · simp [firstOf, Event.isBlockFrom, blockEvent, txEvent, hkey]

theorem picks_tx (args : Args n) (hash : Hash) :
    Picks args (Event.isTxFrom hash args.index) (·.hash == hash) where
  link e he := by
    obtain ⟨s, t, p⟩ := e
    cases p with
    | block | tx => cases he
    | connected | disconnected => rfl
  tx s t hash' := by
    by_cases hhash : hash' = hash
    · simp [firstOf, Event.isTxFrom, blockEvent, txEvent, hhash]
    · simp [firstOf, Event.isTxFrom, blockEvent, txEvent, hhash]

theorem firstOf_merged (h : Picks args p q)
    (hown : ∀ e, p e = true → decide (e.source = args.index) = true)
    (hes : es.filter (fun e => e.1.source = args.index) = offers args sessions) :
    firstOf p Event.t (whole es) = firstOf q Accepted.t (accepted args sessions) := by
  have hfilter : (whole es).filter (fun e => decide (e.source = args.index)) =
      whole (es.filter fun e => e.1.source = args.index) := by
    rw [whole, List.filter_map]
    rfl
  rw [← firstOf_filter hown, hfilter, hes, h.firstOf_offers]

/-- A hash was delivered under another key before it was delivered under `key`, if it was. -/
def OtherKeyFirst (l : List Accepted) (hash : Hash) (key : String) : Prop :=
  ∃ before x after, l = before ++ x :: after ∧ x.hash = hash ∧ x.key ≠ key ∧
    ∀ y ∈ before, y.hash ≠ hash

/-- While stamps do not decrease, a block arrives no later than its transactions. -/
theorem block_le_tx {l : List Accepted} (hsorted : l.Pairwise fun x y => x.t ≤ y.t)
    {hash : Hash} {key : String} {b a : Nat}
    (hb : firstOf (·.key == key) Accepted.t l = some b)
    (ha : firstOf (·.hash == hash) Accepted.t l = some a) :
    b ≤ a ∨ OtherKeyFirst l hash key := by
  obtain ⟨x, hx, rfl⟩ := Option.map_eq_some_iff.mp ha
  obtain ⟨hhash, before, after, rfl, hbefore⟩ := List.find?_eq_some_iff_append.mp hx
  by_cases hkey : x.key = key
  · exact .inl (firstOf_le hsorted Nat.le_refl (by simp) (by simpa using hkey) hb)
  · refine .inr ⟨before, x, after, rfl, by simpa using hhash, hkey, fun y hy => ?_⟩
    simpa using hbefore y hy

/-! ## The law -/

/-- **The block dedupe.** Whatever the sessions, and however their events interleave with
those of other sources, the collector ends up as if a Block event had been sent before every
accepted transaction.  The block arrival of the source is its first accepted transaction. -/
theorem dedupe_transparent (sources : Vector SourceInfo n) (reference : Fin n)
    (minSources warmup start : Nat) (args : Args n) (sessions : List Session) :
    let c₀ := Collector.new sources reference minSources warmup start
    (∀ sent : List (Event n), sent.filter (fun e => e.source = args.index) <+: run args sessions →
      ∃ es, Merged args sessions es ∧ kept es = sent) ∧
    (∀ es, Merged args sessions es → (c₀.run (whole es)).Alike (c₀.run (kept es)) ∧
      c₀.notices (whole es) = c₀.notices (kept es)) ∧
    ∀ sent : List (Event n), sent.filter (fun e => e.source = args.index) = run args sessions →
      (∀ key, (c₀.run sent).blockSlot key args.index =
        firstOf (·.key == key) Accepted.t (accepted args sessions)) ∧
      ((accepted args sessions).Pairwise (fun x y => x.t ≤ y.t) →
        ∀ key hash b a, (c₀.run sent).blockSlot key args.index = some b →
          (c₀.run sent).txSlot hash args.index = some a →
          b ≤ a ∨ OtherKeyFirst (accepted args sessions) hash key) := by
  intro c₀
  have h₀ : c₀.IsNew := Collector.isNew_new sources reference minSources warmup start
  refine ⟨fun sent hsent => ?_, fun es hes => hes.alike h₀, fun sent hsent => ?_⟩
  · rw [← kept_offers] at hsent
    obtain ⟨o, hpre, hkept⟩ := exists_prefix hsent
    have hsource := fun x hx => source_offers args sessions x (hpre.subset hx)
    obtain ⟨es, hown, hothers, rfl⟩ := exists_whole hsource hkept.symm
    exact ⟨es, ⟨by rw [hown]; exact hpre, fun e he hne => hothers e he (by simpa using hne)⟩, rfl⟩
  · rw [← kept_offers] at hsent
    obtain ⟨es, hown, hothers, rfl⟩ := exists_whole (source_offers args sessions) hsent
    have hmerged : Merged args sessions es :=
      ⟨by rw [hown], fun e he hne => hothers e he (by simpa using hne)⟩
    obtain ⟨halike, -⟩ := hmerged.alike h₀
    have hblock : ∀ key, (c₀.run (kept es)).blockSlot key args.index =
        firstOf (·.key == key) Accepted.t (accepted args sessions) := by
      intro key
      rw [Collector.blockSlot, ← halike.blocks, ← Collector.blockSlot, Collector.blockSlot_run h₀,
        firstOf_merged (picks_block args key) (fun _ => Collector.source_of_isBlockFrom) hown]
    have htx : ∀ hash, (c₀.run (kept es)).txSlot hash args.index =
        firstOf (·.hash == hash) Accepted.t (accepted args sessions) := by
      intro hash
      have htxs : (c₀.run (kept es)).txs = (c₀.run (whole es)).txs := by rw [halike.rest]
      rw [Collector.txSlot, htxs, ← Collector.txSlot, Collector.txSlot_run h₀,
        firstOf_merged (picks_tx args hash) (fun _ => Collector.source_of_isTxFrom) hown]
    refine ⟨hblock, fun hsorted key hash b a hb ha => ?_⟩
    rw [hblock] at hb
    rw [htx] at ha
    exact block_le_tx hsorted hb ha

end FeedBench.Eira
