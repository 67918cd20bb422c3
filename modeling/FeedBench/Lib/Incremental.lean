import Mathlib.Algebra.GroupWithZero.Nat
import Mathlib.Data.List.Basic
import Mathlib.Data.List.Infix

/-!
# Incremental decoding

A `Decoder` takes one item off the front of a buffer, reports that the item is not all
there, or fails.  Its laws say that the answer does not depend on what follows the item in
the buffer.  `consume` feeds the items of a buffer to a consumer until one is incomplete or
the decoder or the consumer fails.

* `consume_append`: cutting the input into chunks changes nothing;
* `consume_sim`: consumers in lock step stay in lock step;
* `items`, `consume_tracks`: the items of a buffer whose elements carry stamps, and which of
  them a consumer has acted on;
* `items_encodings`: the items of a stream of encodings.
-/

namespace FeedBench.Lib

structure Decoder (β α ε : Type*) where
  take : List β → Except ε (Option (α × List β))
  used : ∀ {b a rest}, take b = .ok (some (a, rest)) → ∃ u, u ≠ [] ∧ b = u ++ rest
  more : ∀ {b a rest} (b'), take b = .ok (some (a, rest)) →
    take (b ++ b') = .ok (some (a, rest ++ b'))
  less : ∀ {b a rest b'}, take (b ++ b') = .ok (some (a, rest ++ b')) →
    take b = .ok (some (a, rest))
  fails : ∀ {b e} (b'), take b = .error e → take (b ++ b') = .error e

variable {β α ε σ τ : Type*}

namespace Decoder

variable (d : Decoder β α ε)

theorem length_lt {b rest : List β} {a : α} (h : d.take b = .ok (some (a, rest))) :
    rest.length < b.length := by
  obtain ⟨u, hu, rfl⟩ := d.used h
  have := List.length_pos_iff.mpr hu
  rw [List.length_append]
  omega

/-! ## Consuming a buffer -/

/-- Feed the items of the buffer to `act`.  The second component is the failure, or what is
left of the buffer. -/
def consume (act : σ → α → σ × Option ε) (s : σ) (b : List β) : σ × (ε ⊕ List β) :=
  match _h : d.take b with
  | .error e => (s, .inl e)
  | .ok none => (s, .inr b)
  | .ok (some (a, rest)) =>
      match act s a with
      | (s', some e) => (s', .inl e)
      | (s', none) => consume act s' rest
termination_by b.length
decreasing_by exact d.length_lt _h

variable {d} {act : σ → α → σ × Option ε} {s : σ} {b b' rest : List β} {a : α} {e : ε}

theorem consume_of_error (h : d.take b = .error e) : d.consume act s b = (s, .inl e) := by
  rw [consume]
  split <;> simp_all

theorem consume_of_none (h : d.take b = .ok none) : d.consume act s b = (s, .inr b) := by
  rw [consume]
  split <;> simp_all

theorem consume_of_some (h : d.take b = .ok (some (a, rest))) :
    d.consume act s b =
      match act s a with
      | (s', some e) => (s', .inl e)
      | (s', none) => d.consume act s' rest := by
  rw [consume]
  split
  · simp_all
  · simp_all
  · next a' rest' h' =>
    rw [h] at h'
    cases h'
    rfl

/-- More input after a buffer that was consumed is more input after what was left of it. -/
theorem consume_append (s : σ) (b b' : List β) :
    d.consume act s (b ++ b') =
      match d.consume act s b with
      | (s', .inl e) => (s', .inl e)
      | (s', .inr rest) => d.consume act s' (rest ++ b') := by
  induction hn : b.length using Nat.strongRecOn generalizing s b with
  | ind m ih =>
      cases h : d.take b with
      | error e => rw [consume_of_error h, consume_of_error (d.fails b' h)]
      | ok o =>
          cases o with
          | none => rw [consume_of_none h]
          | some p =>
              obtain ⟨a, rest⟩ := p
              have hlt := d.length_lt h
              rw [consume_of_some h, consume_of_some (d.more b' h)]
              rcases act s a with ⟨s', _ | e⟩
              · exact ih rest.length (by omega) s' rest rfl
              · rfl

theorem take_of_consume {s' : σ} (h : d.consume act s b = (s', .inr rest)) :
    d.take rest = .ok none := by
  induction hn : b.length using Nat.strongRecOn generalizing s b with
  | ind m ih =>
      cases htake : d.take b with
      | error e => rw [consume_of_error htake] at h; cases h
      | ok o =>
          cases o with
          | none =>
              rw [consume_of_none htake] at h
              cases h
              exact htake
          | some p =>
              obtain ⟨a, rest'⟩ := p
              have hlt := d.length_lt htake
              rw [consume_of_some htake] at h
              rcases hact : act s a with ⟨s₁, _ | e⟩
              · rw [hact] at h
                exact ih rest'.length (by omega) h rfl
              · rw [hact] at h
                cases h

/-! ## Simulation -/

theorem consume_sim {act' : τ → α → τ × Option ε} {R : σ → τ → Prop}
    (hact : ∀ s t a, R s t → R (act s a).1 (act' t a).1 ∧ (act s a).2 = (act' t a).2)
    {t : τ} (h : R s t) (b : List β) :
    R (d.consume act s b).1 (d.consume act' t b).1 ∧
      (d.consume act s b).2 = (d.consume act' t b).2 := by
  induction hn : b.length using Nat.strongRecOn generalizing s t b with
  | ind m ih =>
      cases htake : d.take b with
      | error e =>
          rw [consume_of_error htake, consume_of_error htake]
          exact ⟨h, rfl⟩
      | ok o =>
          cases o with
          | none =>
              rw [consume_of_none htake, consume_of_none htake]
              exact ⟨h, rfl⟩
          | some p =>
              obtain ⟨a, rest⟩ := p
              have hlt := d.length_lt htake
              have hstep := hact s t a h
              rw [consume_of_some htake, consume_of_some htake]
              rcases hs : act s a with ⟨s', o⟩
              rcases ht : act' t a with ⟨t', o'⟩
              rw [hs, ht] at hstep
              obtain ⟨hrel, heq⟩ := hstep
              dsimp only at hrel heq
              subst heq
              cases o with
              | some e => exact ⟨hrel, rfl⟩
              | none => exact ih rest.length (by omega) hrel rest rfl

/-! ## Stamped input -/

section Stamped

variable (d)

/-- The items of a buffer whose elements carry stamps, each with the stamp of its last
element. -/
def items (sb : List (β × τ)) : List (α × τ) :=
  match _h : d.take (sb.map Prod.fst) with
  | .ok (some (a, rest)) =>
      match (sb.take (sb.length - rest.length)).getLast? with
      | some x => (a, x.2) :: items (sb.drop (sb.length - rest.length))
      | none => []
  | _ => []
termination_by sb.length
decreasing_by
  have := d.length_lt _h
  simp only [List.length_map, List.length_drop] at *
  omega

/-- No complete item lies in the part of the buffer that was there before the elements
stamped `t`. -/
def Fresh (t : τ) (sb : List (β × τ)) : Prop :=
  ∃ old new, sb = old ++ new ∧ (∀ x ∈ new, x.2 = t) ∧
    ∀ a rest, d.take (old.map Prod.fst) ≠ .ok (some (a, rest))

variable {d} {t : τ} {sb sb' : List (β × τ)}

theorem take_nil (a : α) (rest : List β) : d.take [] ≠ .ok (some (a, rest)) := by
  intro h
  obtain ⟨u, hu, heq⟩ := d.used h
  simp only [List.nil_eq, List.append_eq_nil_iff] at heq
  exact hu heq.1

theorem fresh_of_stamps (h : ∀ x ∈ sb, x.2 = t) : d.Fresh t sb :=
  ⟨[], sb, rfl, h, take_nil⟩

theorem fresh_append (h : d.take (sb.map Prod.fst) = .ok none) (hnew : ∀ x ∈ sb', x.2 = t) :
    d.Fresh t (sb ++ sb') :=
  ⟨sb, sb', rfl, hnew, fun a rest h' => by rw [h] at h'; cases h'⟩

theorem items_split {u : List (β × τ)} {x : β × τ}
    (h : d.take (sb.map Prod.fst) = .ok (some (a, rest))) (hsb : sb = u ++ x :: sb')
    (hrest : sb'.map Prod.fst = rest) : d.items sb = (a, x.2) :: d.items sb' := by
  have hlen : sb.length - rest.length = u.length + 1 := by
    rw [hsb, ← hrest]
    simp only [List.length_append, List.length_cons, List.length_map]
    omega
  have hsplit : sb = (u ++ [x]) ++ sb' := by
    rw [hsb, List.append_assoc]
    rfl
  have htake : sb.take (u.length + 1) = u ++ [x] := by
    rw [hsplit]
    exact List.take_left' (by simp)
  have hdrop : sb.drop (u.length + 1) = sb' := by
    rw [hsplit]
    exact List.drop_left' (by simp)
  rw [items]
  split
  · next a' rest' h' =>
    rw [h] at h'
    cases h'
    rw [hlen, htake, hdrop, List.getLast?_concat]
  · next h' => exact absurd h (h' a rest)

theorem items_stamps (sb : List (β × τ)) :
    ((d.items sb).map Prod.snd).Sublist (sb.map Prod.snd) := by
  induction hn : sb.length using Nat.strongRecOn generalizing sb with
  | ind n ih =>
      rw [items]
      split
      · next a rest h =>
        have hlt := d.length_lt h
        rw [List.length_map] at hlt
        split
        · next x hx =>
          have hrec := ih (sb.drop (sb.length - rest.length)).length
            (by rw [List.length_drop]; omega) _ rfl
          have hmem : x ∈ sb.take (sb.length - rest.length) := List.mem_of_getLast? hx
          have hhead : [x.2].Sublist ((sb.take (sb.length - rest.length)).map Prod.snd) :=
            List.singleton_sublist.mpr (List.mem_map_of_mem hmem)
          have hboth := hhead.append hrec
          rw [← List.map_append, List.take_append_drop] at hboth
          exact hboth
        · exact List.nil_sublist _
      · exact List.nil_sublist _

theorem Fresh.take_some (hfresh : d.Fresh t sb)
    (h : d.take (sb.map Prod.fst) = .ok (some (a, rest))) :
    ∃ u x sb', sb = u ++ x :: sb' ∧ sb'.map Prod.fst = rest ∧ x.2 = t ∧ d.Fresh t sb' := by
  obtain ⟨old, new, hsb, hnew, hold⟩ := hfresh
  obtain ⟨w, hw, hsplit⟩ := d.used h
  have hwpos := List.length_pos_iff.mpr hw
  have hrest : (sb.drop w.length).map Prod.fst = rest := by
    rw [List.map_drop, hsplit]
    exact List.drop_left' rfl
  have hlong : old.length < w.length := by
    by_contra hle
    have hboth : d.take (old.map Prod.fst ++ new.map Prod.fst) =
        .ok (some (a, (old.drop w.length).map Prod.fst ++ new.map Prod.fst)) :=
      calc d.take (old.map Prod.fst ++ new.map Prod.fst)
          = d.take (sb.map Prod.fst) := by rw [← List.map_append, ← hsb]
        _ = .ok (some (a, (sb.drop w.length).map Prod.fst)) := by rw [h, hrest]
        _ = .ok (some (a, (old.drop w.length).map Prod.fst ++ new.map Prod.fst)) := by
            rw [hsb, List.drop_append_of_le_length (by omega), List.map_append]
    exact hold a _ (d.less hboth)
  have hwlen : w.length ≤ sb.length := by
    have := congrArg List.length hsplit
    simp only [List.length_map, List.length_append] at this
    omega
  have hsuffix : sb.drop w.length = new.drop (w.length - old.length) := by
    rw [hsb, List.drop_append, List.drop_eq_nil_of_le (by omega), List.nil_append]
  have hlast : sb[w.length - 1] ∈ new := by
    have hget : sb[w.length - 1]? = new[w.length - 1 - old.length]? := by
      rw [hsb, List.getElem?_append_right (by omega)]
    rw [List.getElem?_eq_getElem (by omega)] at hget
    exact List.mem_of_getElem? hget.symm
  refine ⟨sb.take (w.length - 1), sb[w.length - 1], sb.drop w.length, ?_, hrest,
    hnew _ hlast, ?_⟩
  · have hcons : sb.drop (w.length - 1) = sb[w.length - 1] :: sb.drop w.length := by
      rw [List.drop_eq_getElem_cons (by omega), Nat.sub_add_cancel hwpos]
    rw [← hcons, List.take_append_drop]
  · refine fresh_of_stamps fun x hx => hnew x ?_
    rw [hsuffix] at hx
    exact List.mem_of_mem_drop hx

/-- What a consumer has seen after a fresh buffer: `P` relates its state to the items it has
acted on, `Q` to those it stopped at. -/
theorem consume_tracks {P Q : σ → List (α × τ) → Prop}
    (hok : ∀ s a s' as, act s a = (s', none) → P s as → P s' (as ++ [(a, t)]))
    (hstop : ∀ s a s' e as, act s a = (s', some e) → P s as → Q s' (as ++ [(a, t)]))
    (hfresh : d.Fresh t sb) {seen : List (α × τ)} (h : P s seen) (future : List (β × τ)) :
    match d.consume act s (sb.map Prod.fst) with
    | (s', .inl _) =>
        ∃ as, as <+: d.items (sb ++ future) ∧ (P s' (seen ++ as) ∨ Q s' (seen ++ as))
    | (s', .inr rest) =>
        ∃ as sb', sb'.map Prod.fst = rest ∧
          d.items (sb ++ future) = as ++ d.items (sb' ++ future) ∧ P s' (seen ++ as) := by
  induction hn : sb.length using Nat.strongRecOn generalizing s sb seen with
  | ind m ih =>
      cases htake : d.take (sb.map Prod.fst) with
      | error e =>
          rw [consume_of_error htake]
          exact ⟨[], List.nil_prefix, .inl (by rwa [List.append_nil])⟩
      | ok o =>
          cases o with
          | none =>
              rw [consume_of_none htake]
              exact ⟨[], sb, rfl, rfl, by rwa [List.append_nil]⟩
          | some p =>
              obtain ⟨a, rest⟩ := p
              obtain ⟨u, x, sb', hsb, hrest, hx, hfresh'⟩ := hfresh.take_some htake
              have hmore : d.take ((sb ++ future).map Prod.fst) =
                  .ok (some (a, (sb' ++ future).map Prod.fst)) := by
                rw [List.map_append, d.more _ htake, List.map_append, hrest]
              have hitems : d.items (sb ++ future) = (a, t) :: d.items (sb' ++ future) := by
                rw [← hx]
                exact items_split hmore (by rw [hsb, List.append_assoc]; rfl) rfl
              rw [consume_of_some htake]
              rcases hact : act s a with ⟨s₁, _ | e⟩
              · have hlt : sb'.length < m := by
                  rw [← hn, hsb]
                  simp only [List.length_append, List.length_cons]
                  omega
                have hrec := ih sb'.length hlt hfresh' (hok s a s₁ seen hact h) rfl
                rw [hrest] at hrec
                dsimp only
                rcases hc : d.consume act s₁ rest with ⟨s', e | rest'⟩
                · rw [hc] at hrec
                  obtain ⟨as, has, hPQ⟩ := hrec
                  refine ⟨(a, t) :: as, ?_, by simpa using hPQ⟩
                  rw [hitems]
                  exact List.cons_prefix_cons.mpr ⟨rfl, has⟩
                · rw [hc] at hrec
                  obtain ⟨as, sb'', hmap, heq, hP⟩ := hrec
                  refine ⟨(a, t) :: as, sb'', hmap, ?_, by simpa using hP⟩
                  rw [hitems, heq]
                  rfl
              · refine ⟨[(a, t)], ?_, .inr (hstop s a s₁ e seen hact h)⟩
                rw [hitems]
                exact List.cons_prefix_cons.mpr ⟨rfl, List.nil_prefix⟩

end Stamped

/-! ## Encoded input -/

section Encoded

variable {ω : Type*} {len : ω → Nat} {ws ws' : List ω} {w : ω} {ts : List τ}

def lastStamps (len : ω → Nat) : List ω → List τ → List (ω × τ)
  | [], _ => []
  | w :: ws, ts =>
      match (ts.take (len w)).getLast? with
      | some t => (w, t) :: lastStamps len ws (ts.drop (len w))
      | none => []

theorem lastStamps_cons (len : ω → Nat) (hpos : 0 < len w) (hts : len w ≤ ts.length) :
    ∃ t, (ts.take (len w)).getLast? = some t ∧
      ∀ ws, lastStamps len (w :: ws) ts = (w, t) :: lastStamps len ws (ts.drop (len w)) := by
  have hne : (ts.take (len w)).getLast?.isSome := by
    rw [List.getLast?_isSome, ← List.length_pos_iff, List.length_take]
    omega
  obtain ⟨t, ht⟩ := Option.isSome_iff_exists.mp hne
  refine ⟨t, ht, fun ws => ?_⟩
  rw [lastStamps, ht]

theorem lastStamps_fst (hpos : ∀ w ∈ ws, 0 < len w) (hts : (ws.map len).sum ≤ ts.length) :
    (lastStamps len ws ts).map Prod.fst = ws := by
  induction ws generalizing ts with
  | nil => rfl
  | cons w ws ih =>
      rw [List.map_cons, List.sum_cons] at hts
      have hle : len w ≤ ts.length := by omega
      have hrest : (ws.map len).sum ≤ (ts.drop (len w)).length := by
        rw [List.length_drop]
        omega
      obtain ⟨t, -, hcons⟩ := lastStamps_cons len (hpos w List.mem_cons_self) hle
      rw [hcons, List.map_cons, ih (fun w hw => hpos w (List.mem_cons_of_mem _ hw)) hrest]

/-- Encodings that are taken off the front of any input are the items of their stream, each
stamped by its last element. -/
theorem items_encodings {enc : ω → List β} {item : ω → α} {sb : List (β × τ)} {more : List β}
    (htake : ∀ w ∈ ws, ∀ more, d.take (enc w ++ more) = .ok (some (item w, more)))
    (hsb : sb.map Prod.fst = ws.flatMap enc ++ more) :
    d.items sb =
      (lastStamps (fun w => (enc w).length) ws (sb.map Prod.snd)).map
          (fun p => (item p.1, p.2)) ++
        d.items (sb.drop (ws.flatMap enc).length) := by
  induction ws generalizing sb with
  | nil => rfl
  | cons w ws ih =>
      rw [List.flatMap_cons, List.append_assoc] at hsb
      have htakeW := htake w List.mem_cons_self (ws.flatMap enc ++ more)
      have hpos : 0 < (enc w).length := by
        obtain ⟨u, hu, happ⟩ := d.used htakeW
        rw [List.append_cancel_right happ]
        exact List.length_pos_iff.mpr hu
      have hle : (enc w).length ≤ (sb.map Prod.snd).length := by
        have hlen := congrArg List.length hsb
        rw [List.length_map, List.length_append] at hlen
        rw [List.length_map]
        omega
      obtain ⟨t, ht, hcons⟩ := lastStamps_cons (fun w => (enc w).length) hpos hle
      have hdrop : (sb.drop (enc w).length).map Prod.fst = ws.flatMap enc ++ more := by
        rw [List.map_drop, hsb]
        exact List.drop_left' rfl
      -- the element that completes the first encoding
      have hsplit : ∃ u x, sb.take (enc w).length = u ++ [x] ∧ x.2 = t := by
        have hne : sb.take (enc w).length ≠ [] := by
          rw [List.length_map] at hle
          rw [← List.length_pos_iff, List.length_take]
          omega
        refine ⟨_, _, (List.dropLast_append_getLast hne).symm, ?_⟩
        rw [← List.map_take, List.getLast?_map, List.getLast?_eq_getLast_of_ne_nil hne] at ht
        exact Option.some.inj ht
      obtain ⟨u, x, hux, hx⟩ := hsplit
      have hsbSplit : sb = u ++ x :: sb.drop (enc w).length := by
        calc sb = sb.take (enc w).length ++ sb.drop (enc w).length :=
              (List.take_append_drop _ sb).symm
          _ = u ++ x :: sb.drop (enc w).length := by
              rw [hux, List.append_assoc]
              rfl
      have hitems : d.items sb = (item w, t) :: d.items (sb.drop (enc w).length) := by
        rw [← hx]
        apply items_split _ hsbSplit hdrop
        rw [hsb]
        exact htakeW
      rw [hitems, hcons, ih (fun w hw => htake w (List.mem_cons_of_mem _ hw)) hdrop,
        List.map_drop, List.drop_drop, List.flatMap_cons, List.length_append]
      rfl

end Encoded

end Decoder

end FeedBench.Lib
