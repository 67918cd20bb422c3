import FeedBench.Eira.Session
import FeedBench.Lib.Latest
import FeedBench.Stats.Proofs.Records

/-!
# The connected flag of the Eira source

The session holds one flag (whether it has been announced) and the collector another.  Between
them they follow the stream, but for the statuses that come before the first Ack.
-/

namespace FeedBench.Stats.Collector

open Lib

variable {n : Nat}

theorem connected_run (c : Collector n) (es : List (Event n)) (s : Fin n) :
    (c.run es).connected.get s =
      latest Event.link (c.connected.get s) (es.filter fun e => e.source = s) := by
  induction es generalizing c with
  | nil => rfl
  | cons e es ih =>
      rw [run_cons, ih, connected_onEvent, List.filter_cons]
      by_cases hs : e.source = s
      · rw [if_pos hs, if_pos (decide_eq_true hs), latest_cons]
      · rw [if_neg hs, if_neg (by simpa using hs)]

end FeedBench.Stats.Collector

namespace FeedBench.Eira

open Lib Stats

/-! ## What the stream says -/

def Update.isAck : Update → Bool
  | .ack _ => true
  | _ => false

def Update.status (wanted : Int) : Update → Option Bool
  | .sourceStatus commitment connected _ => if commitment = wanted then some connected else none
  | _ => none

/-- An Ack has been received, and the latest status since the first one, if there is one, says
connected. -/
def Delivering (wanted : Int) (updates : List Update) : Prop :=
  ∃ before filterCount after, updates = before ++ .ack filterCount :: after ∧
    (∀ u ∈ before, u.isAck = false) ∧
    ∀ up ∈ (after.filterMap (Update.status wanted)).getLast?, up = true

theorem not_delivering_nil (wanted : Int) : ¬ Delivering wanted [] := by
  rintro ⟨before, filterCount, after, hnil, -, -⟩
  simp at hnil

theorem delivering_ack (wanted : Int) (filterCount : Nat) (updates : List Update) :
    Delivering wanted (.ack filterCount :: updates) ↔
      ∀ up ∈ (updates.filterMap (Update.status wanted)).getLast?, up = true := by
  constructor
  · rintro ⟨before, filterCount', after, hsplit, hbefore, hafter⟩
    cases before with
    | nil =>
        obtain ⟨-, rfl⟩ := List.cons.inj hsplit
        exact hafter
    | cons u before =>
        obtain ⟨rfl, -⟩ := List.cons.inj hsplit
        exact absurd (hbefore _ List.mem_cons_self) (by simp [Update.isAck])
  · intro hafter
    exact ⟨[], filterCount, updates, rfl, by simp, hafter⟩

theorem delivering_cons {u : Update} (hu : u.isAck = false) (wanted : Int)
    (updates : List Update) :
    Delivering wanted (u :: updates) ↔ Delivering wanted updates := by
  constructor
  · rintro ⟨before, filterCount, after, hsplit, hbefore, hafter⟩
    cases before with
    | nil =>
        obtain ⟨rfl, -⟩ := List.cons.inj hsplit
        exact absurd hu (by simp [Update.isAck])
    | cons u' before =>
        obtain ⟨-, rfl⟩ := List.cons.inj hsplit
        exact ⟨before, filterCount, after, rfl,
          fun v hv => hbefore v (List.mem_cons_of_mem _ hv), hafter⟩
  · rintro ⟨before, filterCount, after, rfl, hbefore, hafter⟩
    refine ⟨u :: before, filterCount, after, rfl, ?_, hafter⟩
    exact List.forall_mem_cons.mpr ⟨hu, hbefore⟩

/-! ## One update -/

variable {n : Nat} (args : Args n)

theorem announced_step (l : Locals) (s : Stamped) :
    (step args l s).1.announced = (l.announced || s.update.isAck) := by
  unfold step
  cases s.update with
  | ack filterCount =>
      by_cases h : l.announced = true
      · simp [h, Update.isAck]
      · simp [h, Update.isAck]
  | sourceStatus commitment connected sourceEpoch =>
      dsimp only
      split
      · exact (Bool.or_false _).symm
      · exact (Bool.or_false _).symm
  | transaction t =>
      dsimp only
      cases t.accept args.wanted with
      | none => exact (Bool.or_false _).symm
      | some hash => exact (Bool.or_false _).symm
  | other => exact (Bool.or_false _).symm

theorem link_step (l : Locals) (s : Stamped) (up : Bool) :
    latest Event.link up (step args l s).2 =
      if l.announced then (s.update.status args.wanted).getD up else s.update.isAck || up := by
  unfold step
  cases s.update with
  | ack filterCount =>
      by_cases h : l.announced = true
      · simp [h, Update.status]
      · simp [h, Update.isAck, latest_singleton, Event.link]
  | sourceStatus commitment connected sourceEpoch =>
      by_cases hwanted : commitment = args.wanted
      · by_cases h : l.announced = true
        · cases connected with
          | true => simp [hwanted, h, Update.status, latest_singleton, Event.link]
          | false => simp [hwanted, h, Update.status, latest_singleton, Event.link]
        · simp [h, Update.isAck]
      · simp [hwanted, Update.status, Update.isAck]
  | transaction t =>
      have hquiet : ∀ hash, latest Event.link up
          ((if t.blockKey ∈ l.trim then [] else [blockEvent args s.t t]) ++
            [txEvent args s.t t hash]) = up := by
        intro hash
        rw [latest_append]
        split
        · rfl
        · rfl
      cases haccept : t.accept args.wanted with
      | none => simp [haccept, Update.status, Update.isAck]
      | some hash => simp [haccept, hquiet, Update.status, Update.isAck]
  | other => simp [Update.status, Update.isAck]

/-! ## A session -/

theorem link_loop_announced {l : Locals} (h : l.announced = true) (updates : List Stamped)
    (up : Bool) :
    latest Event.link up (loop args l updates) =
      latest (Update.status args.wanted) up (updates.map Stamped.update) := by
  induction updates generalizing l up with
  | nil => rfl
  | cons s updates ih =>
      have hstill : (step args l s).1.announced = true := by
        rw [announced_step, h, Bool.true_or]
      rw [loop, latest_append, link_step, if_pos h, List.map_cons, latest_cons]
      apply ih hstill

/-- The flag that a session sets is true while the stream delivers. -/
theorem link_loop {l : Locals} (h : l.announced = false) (updates : List Stamped) :
    latest Event.link false (loop args l updates) = true ↔
      Delivering args.wanted (updates.map Stamped.update) := by
  induction updates generalizing l with
  | nil => simp [loop, not_delivering_nil]
  | cons s updates ih =>
      have hnext : (step args l s).1.announced = s.update.isAck := by
        rw [announced_step, h, Bool.false_or]
      rw [loop, latest_append, link_step, if_neg (by simp [h]), Bool.or_false, List.map_cons]
      cases hack : s.update.isAck with
      | true =>
          rw [hack] at hnext
          obtain ⟨filterCount, hu⟩ : ∃ filterCount, s.update = .ack filterCount := by
            revert hack
            cases s.update <;> simp [Update.isAck]
          rw [link_loop_announced args hnext, latest_eq_getLast, hu, delivering_ack]
          generalize ((updates.map Stamped.update).filterMap _).getLast? = last
          cases last <;> simp
      | false =>
          rw [hack] at hnext
          rw [delivering_cons hack]
          exact ih hnext

/-! ## All sessions -/

theorem link_down {session : Session} (h : session.ending.isSome) (up : Bool) :
    latest Event.link up (session.down args) = false := by
  obtain ⟨⟨t, reason⟩, hend⟩ := Option.isSome_iff_exists.mp h
  rw [Session.down, hend]
  rfl

theorem link_run {past : List Session} (hpast : ∀ session ∈ past, session.ending.isSome)
    (updates : List Stamped) :
    latest Event.link false (run args (past ++ [⟨updates, none⟩])) =
      latest Event.link false (loop args .start updates) := by
  induction past with
  | nil => simp [run, Session.down]
  | cons session past ih =>
      obtain ⟨hend, hrest⟩ := List.forall_mem_cons.mp hpast
      rw [List.cons_append, run, if_pos hend, latest_append, latest_append, link_down args hend,
        ih hrest]

/-- **The connected flag.** After every update of every session, and however the events of other
sources come between, the collector holds the source connected while the stream delivers. -/
theorem connected_iff_delivering (sources : Vector Stats.SourceInfo n) (reference : Fin n)
    (minSources warmup start : Nat) (past : List Session)
    (hpast : ∀ session ∈ past, session.ending.isSome) (updates : List Stamped)
    (es : List (Event n))
    (hes : es.filter (fun e => e.source = args.index) = run args (past ++ [⟨updates, none⟩])) :
    ((Collector.new sources reference minSources warmup start).run es).connected.get args.index =
        true ↔
      Delivering args.wanted (updates.map Stamped.update) := by
  have hstart : (Collector.new sources reference minSources warmup start).connected.get args.index =
      false := by
    rw [(Collector.isNew_new sources reference minSources warmup start).connected]
    exact Vector.getElem_replicate _
  rw [Collector.connected_run, hes, hstart, link_run args hpast]
  exact link_loop args rfl updates

/-! ### A source on its own -/

def sampleArgs : Args 1 where
  index := ⟨0, Nat.one_pos⟩
  level := .received
  commitment _ := 1

def sampleCollector : Collector 1 :=
  .new (.replicate 1 ⟨"eira", "eira"⟩) ⟨0, Nat.one_pos⟩ 1 0 0

def recovering : List Stamped :=
  [⟨1, .ack 1⟩, ⟨2, .sourceStatus 1 false 7⟩, ⟨3, .sourceStatus 2 false 7⟩,
    ⟨4, .sourceStatus 1 true 8⟩]

theorem connected_recovering :
    (sampleCollector.run
      (run sampleArgs [⟨[], some (0, "unavailable")⟩, ⟨recovering, none⟩])).connected.get
        sampleArgs.index = true :=
  (connected_iff_delivering sampleArgs (.replicate 1 ⟨"eira", "eira"⟩) ⟨0, Nat.one_pos⟩ 1 0 0
    [⟨[], some (0, "unavailable")⟩] (by simp) recovering _ (by decide)).mpr
    ⟨[], 1, _, rfl, by simp, by decide⟩

def unheard : List Stamped := [⟨1, .sourceStatus 1 false 7⟩, ⟨2, .ack 1⟩]

theorem connected_unheard :
    (sampleCollector.run (run sampleArgs [⟨unheard, none⟩])).connected.get sampleArgs.index = true ∧
      ((unheard.map Stamped.update).filterMap (Update.status sampleArgs.wanted)).getLast? =
        some false := by
  refine ⟨?_, by decide⟩
  rw [Collector.connected_run]
  decide

end FeedBench.Eira
