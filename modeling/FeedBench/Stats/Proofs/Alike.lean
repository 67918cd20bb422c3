import FeedBench.Lib.Stutter
import FeedBench.Stats.Proofs.Confluence

/-!
# Collectors that differ in the number of Block events

Two collectors are alike when they hold the same records and agree on everything else but
`blockEvents`.  No event tells them apart, and a repeated Block event that reports nothing
new leads from a collector to one like it.
-/

namespace FeedBench.Stats

open Lib

variable {n : Nat}

namespace Collector

def notices (c : Collector n) (es : List (Event n)) : List (Notice n) := answers onEvent c es

/-- The same records, and the same fields but `blockEvents`. -/
structure Alike (c c' : Collector n) : Prop where
  rest : c' = { c with blocks := c'.blocks, blockEvents := c'.blockEvents }
  blocks : ∀ key, c.blocks.lookup key = c'.blocks.lookup key

def withBlocks (c : Collector n) (blocks : AList fun _ : String => BlockRec n)
    (blockEvents : Vector UInt64 n) : Collector n :=
  { c with blocks := blocks, blockEvents := blockEvents }

theorem alike_withBlocks {c : Collector n} {blocks : AList fun _ : String => BlockRec n}
    {blockEvents : Vector UInt64 n} (h : ∀ key, c.blocks.lookup key = blocks.lookup key) :
    c.Alike (c.withBlocks blocks blockEvents) := ⟨rfl, h⟩

theorem Alike.exists_withBlocks {c c' : Collector n} (h : c.Alike c') :
    ∃ blocks blockEvents, c' = c.withBlocks blocks blockEvents ∧
      ∀ key, c.blocks.lookup key = blocks.lookup key :=
  ⟨c'.blocks, c'.blockEvents, h.rest, h.blocks⟩

theorem onEvent_withBlocks (c : Collector n) (blocks : AList fun _ : String => BlockRec n)
    (blockEvents : Vector UInt64 n) {e : Event n} (he : e.blockKey = none) :
    (c.withBlocks blocks blockEvents).onEvent e =
      ((c.onEvent e).1.withBlocks blocks blockEvents, (c.onEvent e).2) := by
  obtain ⟨s, t, p⟩ := e
  cases p with
  | block => cases he
  | tx => rfl
  | connected detail =>
      simp only [onEvent, onConnected, withBlocks, allConnected]
      by_cases hc : c.connected.get s = true
      · simp only [hc, if_true]
      · simp only [hc, Bool.false_eq_true, if_false]
        by_cases hopen : ((c.connected.set s true s.isLt).toList.all id &&
            !lastOpen c.allUp) = true
        · simp only [hopen, if_true]
          rfl
        · simp only [hopen, Bool.false_eq_true, if_false]
          rfl
  | disconnected reason =>
      simp only [onEvent, onDisconnected, withBlocks]
      by_cases hc : (!c.connected.get s) = true
      · simp only [hc, if_true]
      · simp only [hc, Bool.false_eq_true, if_false]

theorem lookup_blocks_of_not_block {c : Collector n} {e : Event n} (he : e.blockKey = none)
    (key : String) : (c.onEvent e).1.blocks.lookup key = c.blocks.lookup key := by
  rw [lookup_blocks_onEvent]
  obtain ⟨s, t, p⟩ := e
  cases p with
  | block => cases he
  | tx | connected | disconnected => rfl

theorem onBlock_withBlocks (c : Collector n) {blocks : AList fun _ : String => BlockRec n}
    (blockEvents : Vector UInt64 n) (h : ∀ key, c.blocks.lookup key = blocks.lookup key)
    (s : Fin n) (t : Nat) (key seq hash txCount wireLen) :
    (c.onBlock s t key seq hash txCount wireLen).1.Alike
        ((c.withBlocks blocks blockEvents).onBlock s t key seq hash txCount wireLen).1 ∧
      (c.onBlock s t key seq hash txCount wireLen).2 =
        ((c.withBlocks blocks blockEvents).onBlock s t key seq hash txCount wireLen).2 := by
  simp only [onBlock, withBlocks, ← h key]
  refine ⟨⟨rfl, fun key' => ?_⟩, trivial⟩
  by_cases hk : key' = key
  · subst hk
    rw [AList.lookup_insert, AList.lookup_insert]
  · rw [AList.lookup_insert_ne hk, AList.lookup_insert_ne hk, h]

theorem isAlike : IsAlike onEvent (Alike (n := n)) where
  refl c := ⟨rfl, fun _ => rfl⟩
  trans c c' c'' h h' := by
    obtain ⟨b, v, rfl, hb⟩ := h.exists_withBlocks
    obtain ⟨b', v', rfl, hb'⟩ := h'.exists_withBlocks
    exact alike_withBlocks fun key => (hb key).trans (hb' key)
  step c c' e h := by
    obtain ⟨b, v, rfl, hb⟩ := h.exists_withBlocks
    cases he : e.blockKey with
    | none =>
        rw [onEvent_withBlocks c b v he]
        exact ⟨alike_withBlocks fun key => (lookup_blocks_of_not_block he key).trans (hb key), rfl⟩
    | some k =>
        obtain ⟨s, t, p⟩ := e
        cases p with
        | block key seq hash txCount wireLen =>
            exact c.onBlock_withBlocks v hb s t key seq hash txCount wireLen
        | tx | connected | disconnected => cases he

/-- A repeated Block event that reports nothing new may be left out. -/
theorem skips_of_repeated {c : Collector n} {e : Event n} {key : String} {seq : Option UInt64}
    (hp : e.payload = .block key seq none none 0) {r : BlockRec n}
    (hr : c.blocks.lookup key = some r) (hs : (r.arrivals.get e.source).isSome)
    (hseq : seq.isSome → r.seq.isSome) : Skips onEvent Alike c e := by
  obtain ⟨s, t, p⟩ := e
  subst hp
  have hfill : r.fill seq none none = r := by
    have hfield : (if r.seq.isNone then seq else r.seq) = r.seq := by
      cases hrs : r.seq with
      | some q => rfl
      | none =>
          cases seq with
          | none => rfl
          | some q =>
              rw [hrs] at hseq
              cases hseq rfl
    have hhash : (if r.hash.isNone then none else r.hash) = r.hash := by cases r.hash <;> rfl
    have hcount : (if r.txCount.isNone then none else r.txCount) = r.txCount := by
      cases r.txCount <;> rfl
    rw [BlockRec.fill, hfield, hhash, hcount]
  have hdup : r.deliver c.minSources s t = (r, false) := by rw [BlockRec.deliver, if_pos hs]
  have hbytes : c.wireBytes.set s (c.wireBytes.get s + 0) s.isLt = c.wireBytes := by
    apply ext_get
    intro s'
    rw [get_set]
    split
    · next h => rw [← h, UInt64.add_zero]
    · rfl
  have hstep : c.onEvent ⟨s, t, .block key seq none none 0⟩ =
      (c.withBlocks (c.blocks.insert key r)
        (c.blockEvents.set s (c.blockEvents.get s + 1) s.isLt), none) := by
    simp only [onEvent, onBlock, hr, Option.getD_some, hfill, hdup, hbytes]
    rfl
  rw [Skips, hstep]
  refine ⟨⟨rfl, fun key' => ?_⟩, rfl⟩
  show (c.blocks.insert key r).lookup key' = c.blocks.lookup key'
  by_cases hk : key' = key
  · subst hk
    rw [AList.lookup_insert, hr]
  · rw [AList.lookup_insert_ne hk]

end Collector

end FeedBench.Stats
