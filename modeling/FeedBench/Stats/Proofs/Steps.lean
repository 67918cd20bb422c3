import FeedBench.Stats.Collector
import FeedBench.Lib.Arrivals

/-!
# What one event can do

One lemma for each component of the collector: its value after `onEvent`, whatever the
event is.  Every invariant of a run is derived from these, never from `onEvent` itself.
-/

namespace FeedBench.Stats

open Lib

variable {n : Nat}

/-! ## What one source's events move -/

/-- What one source's own events determine. -/
structure Lane where
  connected : Bool
  everConnected : Bool
  reconnects : UInt32
  details : String
  txEvents : UInt64
  blockEvents : UInt64
  wireBytes : UInt64
  rawTxBytes : UInt64

def Lane.move (l : Lane) (e : Event n) : Lane :=
  match e.payload with
  | .connected detail =>
      if l.connected then { l with details := detail }
      else { l with
        connected := true
        everConnected := true
        reconnects := if l.everConnected then l.reconnects + 1 else l.reconnects
        details := detail }
  | .disconnected _ => { l with connected := false }
  | .block _ _ _ _ wireLen =>
      { l with blockEvents := l.blockEvents + 1, wireBytes := l.wireBytes + wireLen }
  | .tx _ _ _ _ rawLen =>
      { l with txEvents := l.txEvents + 1, rawTxBytes := l.rawTxBytes + rawLen.toUInt64 }

theorem Lane.move_connected (l : Lane) (e : Event n) :
    (l.move e).connected = e.link.getD l.connected := by
  obtain ⟨s, t, p⟩ := e
  cases p with
  | block | tx | disconnected => rfl
  | connected detail =>
      unfold Lane.move
      dsimp only
      split
      · next h => exact h
      · rfl

namespace Collector

variable (c : Collector n) (e : Event n) (es : List (Event n))

/-! ## Configuration -/

/-- What a collector is given when it is made and never changes. -/
structure Settings (n : Nat) where
  sources : Vector SourceInfo n
  reference : Fin n
  minSources : Nat
  warmup : Nat
  nitroPresent : Bool

def settings : Settings n :=
  ⟨c.sources, c.reference, c.minSources, c.warmup, c.nitroPresent⟩

theorem onEvent_settings : (c.onEvent e).1.settings = c.settings := by
  simp only [onEvent, onConnected, onDisconnected, onBlock, onTx]
  repeat' split
  all_goals rfl

theorem run_settings : (c.run es).settings = c.settings := by
  induction es generalizing c with
  | nil => rfl
  | cons e es ih => exact (ih (c.onEvent e).1).trans (c.onEvent_settings e)

@[simp] theorem onEvent_minSources : (c.onEvent e).1.minSources = c.minSources :=
  congrArg Settings.minSources (c.onEvent_settings e)

@[simp] theorem onEvent_sources : (c.onEvent e).1.sources = c.sources :=
  congrArg Settings.sources (c.onEvent_settings e)

@[simp] theorem onEvent_warmup : (c.onEvent e).1.warmup = c.warmup :=
  congrArg Settings.warmup (c.onEvent_settings e)

@[simp] theorem run_minSources : (c.run es).minSources = c.minSources :=
  congrArg Settings.minSources (c.run_settings es)

@[simp] theorem run_warmup : (c.run es).warmup = c.warmup :=
  congrArg Settings.warmup (c.run_settings es)

@[simp] theorem run_sources : (c.run es).sources = c.sources :=
  congrArg Settings.sources (c.run_settings es)

@[simp] theorem run_reference : (c.run es).reference = c.reference :=
  congrArg Settings.reference (c.run_settings es)

@[simp] theorem run_nitroPresent : (c.run es).nitroPresent = c.nitroPresent :=
  congrArg Settings.nitroPresent (c.run_settings es)

/-! ## Runs by the number of events processed -/

def At (i : Nat) : Collector n := c.run (es.take i)

@[simp] theorem at_zero : c.At es 0 = c := rfl

@[simp] theorem at_length : c.At es es.length = c.run es := by simp [At]

theorem at_succ {i : Nat} (hi : i < es.length) :
    c.At es (i + 1) = ((c.At es i).onEvent es[i]).1 := by
  unfold At
  rw [List.take_succ_eq_append_getElem hi, run_append]
  rfl

/-! ## Lanes -/

def lane (s : Fin n) : Lane where
  connected := c.connected.get s
  everConnected := c.everConnected.get s
  reconnects := c.reconnects.get s
  details := c.details.get s
  txEvents := c.txEvents.get s
  blockEvents := c.blockEvents.get s
  wireBytes := c.wireBytes.get s
  rawTxBytes := c.rawTxBytes.get s

theorem lane_onEvent (s : Fin n) :
    (c.onEvent e).1.lane s = if e.source = s then (c.lane s).move e else c.lane s := by
  obtain ⟨s', t, p⟩ := e
  cases p with
  | block key seq hash txCount wireLen =>
      simp only [onEvent, onBlock, lane, Lane.move, get_set]
      split
      · next h => subst h; rfl
      · rfl
  | tx hash blockKey txCount swap rawLen =>
      simp only [onEvent, onTx, lane, Lane.move, get_set]
      split
      · next h => subst h; rfl
      · rfl
  | connected detail =>
      simp only [onEvent, onConnected]
      by_cases hc : c.connected.get s' = true
      · simp only [hc, if_true, lane, Lane.move, get_set]
        split
        · next h => subst h; simp [hc]
        · rfl
      · -- opening an interval moves no per-source field
        simp only [hc, Bool.false_eq_true, if_false]
        rw [apply_ite (fun c : Collector n => c.lane s)]
        simp only [lane, Lane.move, ite_self]
        by_cases hev : c.everConnected.get s' = true
        all_goals
          simp only [hev, Bool.false_eq_true, if_true, if_false, get_set]
          split
          · next h => subst h; simp only [hc, hev, Bool.false_eq_true, if_true, if_false]
          · rfl
  | disconnected reason =>
      simp only [onEvent, onDisconnected, lane, Lane.move]
      by_cases hc : c.connected.get s' = true
      · simp only [hc, Bool.not_true, Bool.false_eq_true, if_false, get_set]
        split
        · next h => subst h; rfl
        · rfl
      · simp only [hc, Bool.not_false, if_true]
        split
        · next h => subst h; simp [hc]
        · rfl

/-! ## Connections -/

theorem allConnected_iff : c.allConnected = true ↔ ∀ s : Fin n, c.connected.get s = true := by
  unfold allConnected
  rw [List.all_eq_true]
  constructor
  · intro h s
    exact h _ (Vector.mem_toList_iff.mpr (Vector.getElem_mem s.isLt))
  · intro h b hb
    obtain ⟨i, hi, rfl⟩ := Vector.mem_iff_getElem.mp (Vector.mem_toList_iff.mp hb)
    exact h ⟨i, hi⟩

theorem connected_onEvent (s : Fin n) :
    (c.onEvent e).1.connected.get s =
      if e.source = s then e.link.getD (c.connected.get s) else c.connected.get s := by
  have hlane := congrArg Lane.connected (c.lane_onEvent e s)
  rw [apply_ite Lane.connected, Lane.move_connected] at hlane
  exact hlane

theorem allConnected_congr {c c' : Collector n} (h : c'.connected = c.connected) :
    c'.allConnected = c.allConnected := by
  rw [allConnected, allConnected, h]

theorem not_allConnected {s : Fin n} (hs : c.connected.get s = false) : c.allConnected = false := by
  rw [← Bool.not_eq_true, allConnected_iff]
  intro h
  rw [h s] at hs
  cases hs

theorem onConnected_allUp {s : Fin n} (t : Nat) (detail : String)
    (hs : c.connected.get s = false) (h : lastOpen c.allUp = c.allConnected) :
    (c.onConnected s t detail).1.allUp =
      if (c.onConnected s t detail).1.allConnected then c.allUp ++ [(t, none)] else c.allUp := by
  have hclosed : lastOpen c.allUp = false := by rw [h, c.not_allConnected hs]
  cases hall : (c.connected.set s true s.isLt).toList.all id with
  | true => simp [onConnected, allConnected, hs, hclosed, hall]
  | false => simp [onConnected, allConnected, hs, hall]

def Opens : Prop := c.connected.get e.source = false ∧ ∀ s, s ≠ e.source → c.connected.get s = true

/-- Everything a Connected can do to the intervals. -/
theorem connected_allUp {detail : String} (hp : e.payload = .connected detail)
    (h : lastOpen c.allUp = c.allConnected) :
    (c.Opens e ∧ (c.onEvent e).1.allUp = c.allUp ++ [(e.t, none)]) ∨
      (¬c.Opens e ∧ (c.onEvent e).1.allUp = c.allUp) := by
  have hstep : (c.onEvent e).1 = (c.onConnected e.source e.t detail).1 := by rw [onEvent, hp]
  cases hs : c.connected.get e.source with
  | true =>
      refine .inr ⟨fun hopens => ?_, by rw [hstep, onConnected, if_pos hs]⟩
      rw [hopens.1] at hs
      cases hs
  | false =>
      have hup := c.onConnected_allUp e.t detail hs h
      have hall : (c.onEvent e).1.allConnected = true ↔
          ∀ s, s ≠ e.source → c.connected.get s = true := by
        rw [allConnected_iff]
        apply forall_congr'
        intro s
        rw [connected_onEvent, Event.link, hp, Option.getD_some]
        by_cases hse : s = e.source
        · simp [hse]
        · simp [hse, Ne.symm hse]
      rw [← hstep] at hup
      by_cases hopens : (c.onEvent e).1.allConnected = true
      · rw [if_pos hopens] at hup
        exact .inl ⟨⟨hs, hall.mp hopens⟩, hup⟩
      · rw [if_neg hopens] at hup
        exact .inr ⟨fun h => hopens (hall.mpr h.2), hup⟩

theorem closeLast_of_not_open {allUp : List (Nat × Option Nat)} (t : Nat)
    (h : lastOpen allUp = false) : closeLast allUp t = allUp := by
  unfold lastOpen at h
  unfold closeLast
  split at h
  · cases h
  · rfl

theorem onDisconnected_allUp {s : Fin n} (t : Nat) (reason : String)
    (h : lastOpen c.allUp = c.allConnected) :
    (c.onDisconnected s t reason).1.allUp =
      if c.allConnected && c.connected.get s then closeLast c.allUp t else c.allUp := by
  unfold onDisconnected
  cases hs : c.connected.get s with
  | false => simp
  | true =>
      cases hall : c.allConnected with
      | true => rfl
      | false => exact closeLast_of_not_open t (by rw [h, hall])

/-! ## Records -/

def blockBefore (key : String) (s : Fin n) (t : Nat) (seq : Option UInt64)
    (hash : Option String) (txCount : Option UInt32) : BlockRec n :=
  ((c.blocks.lookup key).getD (.fresh seq s t)).fill seq hash txCount

def blockAfter (key : String) (s : Fin n) (t : Nat) (seq : Option UInt64)
    (hash : Option String) (txCount : Option UInt32) : BlockRec n :=
  ((c.blockBefore key s t seq hash txCount).deliver c.minSources s t).1

def txAfter (hash : Hash) (s : Fin n) (t : Nat) (blockKey : Option String)
    (txCount : Option UInt32) (swap : Bool) : TxRec n :=
  (((c.txs.lookup hash).getD (.fresh t)).fill ((c.sources.get s).kind == "nitro")
    blockKey txCount swap).deliver s t

theorem onEvent_records (h : e.link.isSome) :
    (c.onEvent e).1.blocks = c.blocks ∧ (c.onEvent e).1.txs = c.txs := by
  obtain ⟨s, t, p⟩ := e
  cases p with
  | block | tx => cases h
  | connected detail =>
      simp only [onEvent, onConnected]
      repeat' split
      all_goals exact ⟨rfl, rfl⟩
  | disconnected reason =>
      simp only [onEvent, onDisconnected]
      split
      · exact ⟨rfl, rfl⟩
      · exact ⟨rfl, rfl⟩

theorem lookup_blocks_onEvent (key : String) :
    (c.onEvent e).1.blocks.lookup key =
      match e.payload with
      | .block k seq hash txCount _ =>
          if k = key then some (c.blockAfter key e.source e.t seq hash txCount)
          else c.blocks.lookup key
      | _ => c.blocks.lookup key := by
  obtain ⟨s, t, p⟩ := e
  cases p with
  | block k seq hash txCount wireLen =>
      simp only [onEvent, onBlock]
      split
      · next h => subst h; exact AList.lookup_insert _
      · next h => exact AList.lookup_insert_ne (Ne.symm h)
  | tx => rfl
  | connected | disconnected => rw [(c.onEvent_records _ rfl).1]

theorem lookup_txs_onEvent (hash : Hash) :
    (c.onEvent e).1.txs.lookup hash =
      match e.payload with
      | .tx h blockKey txCount swap _ =>
          if h = hash then some (c.txAfter hash e.source e.t blockKey txCount swap)
          else c.txs.lookup hash
      | _ => c.txs.lookup hash := by
  obtain ⟨s, t, p⟩ := e
  cases p with
  | block => rfl
  | tx h blockKey txCount swap rawLen =>
      simp only [onEvent, onTx]
      split
      · next hh => subst hh; exact AList.lookup_insert _
      · next hh => exact AList.lookup_insert_ne (Ne.symm hh)
  | connected | disconnected => rw [(c.onEvent_records _ rfl).2]

theorem exists_blockLine_iff {key : String} {seq : Option UInt64} {hash : Option String}
    {txCount : Option UInt32} {wireLen : UInt64}
    (hp : e.payload = .block key seq hash txCount wireLen) :
    (∃ cols, (c.onEvent e).2 = some (.blockLine cols)) ↔
      ((c.blockBefore key e.source e.t seq hash txCount).deliver
        c.minSources e.source e.t).2 = true := by
  simp only [onEvent, hp, onBlock, blockBefore]
  split
  · next hc => exact ⟨fun _ => hc, fun _ => ⟨_, rfl⟩⟩
  · next hc => exact ⟨fun ⟨_, h⟩ => (by cases h), fun h => absurd h hc⟩

end Collector

end FeedBench.Stats
