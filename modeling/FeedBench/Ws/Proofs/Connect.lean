import FeedBench.Ws.Client

/-!
# Connecting

The head loop of `connect` finds the first blank line of the stream, however the stream is
cut, and keeps every byte after it.
-/

namespace FeedBench.Ws

open Inflate

def Read.received : Read → List UInt8
  | .bytes _ data => data
  | _ => []

def Read.Brings (r : Read) : Prop := ∃ now data, r = .bytes now data ∧ data ≠ []

/-! ## The blank line -/

variable {buf more : List UInt8} {i : Nat}

theorem headEnd_le (h : headEnd buf = some i) : i + 4 ≤ buf.length := by
  induction buf generalizing i with
  | nil => cases h
  | cons b buf ih =>
      rw [headEnd] at h
      split at h
      · next hpre =>
        have hle := (List.isPrefixOf_iff_prefix.mp hpre).length_le
        have hfour : blankLine.length = 4 := rfl
        cases h
        omega
      · rcases hrec : headEnd buf with _ | j
        · rw [hrec] at h
          cases h
        · rw [hrec] at h
          have := ih hrec
          cases h
          simp only [List.length_cons]
          omega

theorem headEnd_append (more : List UInt8) (h : headEnd buf = some i) :
    headEnd (buf ++ more) = some i := by
  induction buf generalizing i with
  | nil => cases h
  | cons b buf ih =>
      rw [headEnd] at h
      rw [List.cons_append, headEnd]
      split at h
      · next hpre =>
        have hpre' : blankLine <+: b :: (buf ++ more) :=
          (List.isPrefixOf_iff_prefix.mp hpre).trans (List.prefix_append (b :: buf) more)
        rw [if_pos (List.isPrefixOf_iff_prefix.mpr hpre'), h]
      · next hpre =>
        rcases hrec : headEnd buf with _ | j
        · rw [hrec] at h
          cases h
        · rw [hrec] at h
          have hle := headEnd_le hrec
          have hnot : ¬blankLine.isPrefixOf (b :: (buf ++ more)) := by
            intro hpre'
            apply hpre
            rw [List.isPrefixOf_iff_prefix] at hpre' ⊢
            have hfour : blankLine.length = 4 := rfl
            exact List.prefix_of_prefix_length_le hpre' (List.prefix_append (b :: buf) more)
              (by simp only [List.length_cons]; omega)
          rw [if_neg hnot, ih hrec, h]

theorem headEnd_of_append (h : headEnd (buf ++ more) = some i) (hle : i + 4 ≤ buf.length) :
    headEnd buf = some i := by
  cases hbuf : headEnd buf with
  | some j => rw [← headEnd_append more hbuf, h]
  | none =>
      exfalso
      induction buf generalizing i with
      | nil => simp only [List.length_nil] at hle; omega
      | cons b buf ih =>
          rw [List.cons_append, headEnd] at h
          rw [headEnd] at hbuf
          split at hbuf
          · cases hbuf
          · next hpre =>
            have hrec : headEnd buf = none := by
              rcases hnone : headEnd buf with _ | j
              · rfl
              · rw [hnone] at hbuf
                cases hbuf
            split at h
            · next hpre' =>
              apply hpre
              rw [List.isPrefixOf_iff_prefix] at hpre' ⊢
              have hfour : blankLine.length = 4 := rfl
              cases h
              exact List.prefix_of_prefix_length_le hpre' (List.prefix_append (b :: buf) more)
                (by omega)
            · rcases hmore : headEnd (buf ++ more) with _ | j
              · rw [hmore] at h
                cases h
              · rw [hmore] at h
                cases h
                simp only [List.length_cons] at hle
                exact ih hmore (by omega) hrec

/-! ## The head loop -/

theorem readHead_found (h : headEnd buf = some i) (reads : List Read) :
    readHead buf reads = some (.ok (i, buf, reads)) := by
  rw [readHead.eq_def, h]

theorem readHead_more (h : headEnd buf = none) (hlen : buf.length ≤ 64 * 1024) (now : Nat)
    {data : List UInt8} (hdata : data ≠ []) (reads : List Read) :
    readHead buf (.bytes now data :: reads) = readHead (buf ++ data) reads := by
  rw [readHead, h]
  dsimp only
  rw [if_neg (by omega), if_neg hdata]

theorem readHead_ok {reads left : List Read} {buf' : List UInt8}
    (h : readHead buf reads = some (.ok (i, buf', left))) :
    ∃ used, reads = used ++ left ∧ buf' = buf ++ used.flatMap Read.received ∧
      headEnd buf' = some i := by
  induction reads generalizing buf with
  | nil =>
      rw [readHead] at h
      split at h
      · next hend =>
        cases h
        exact ⟨[], rfl, (List.append_nil _).symm, hend⟩
      · split at h <;> cases h
  | cons r reads ih =>
      rw [readHead.eq_def] at h
      split at h
      · next hend =>
        cases h
        exact ⟨[], rfl, (List.append_nil _).symm, hend⟩
      · split at h
        · cases h
        · rcases r with ⟨now, data⟩ | e | _
          · dsimp only at h
            split at h
            · cases h
            · obtain ⟨used, hreads, hbuf, hend⟩ := ih h
              refine ⟨.bytes now data :: used, ?_, ?_, hend⟩
              · rw [hreads, List.cons_append]
              · rw [hbuf, List.append_assoc]
                rfl
          · cases h
          · cases h

/-- A head that is short enough is found in every stream, however it is cut. -/
theorem readHead_of_stream (buf : List UInt8) (reads : List Read)
    (hreads : ∀ r ∈ reads, r.Brings)
    (hend : headEnd (buf ++ reads.flatMap Read.received) = some i) (hle : i + 4 ≤ 64 * 1024)
    (tail : List Read) :
    ∃ used left, reads = used ++ left ∧
      readHead buf (reads ++ tail) =
        some (.ok (i, buf ++ used.flatMap Read.received, left ++ tail)) := by
  induction reads generalizing buf with
  | nil =>
      refine ⟨[], [], rfl, ?_⟩
      rw [List.flatMap_nil, List.append_nil] at hend ⊢
      exact readHead_found hend tail
  | cons r reads ih =>
      obtain ⟨now, data, rfl, hdata⟩ := hreads r (by simp)
      cases hbuf : headEnd buf with
      | some j =>
          have hij := headEnd_append ((Read.bytes now data :: reads).flatMap Read.received) hbuf
          rw [hend] at hij
          cases hij
          refine ⟨[], .bytes now data :: reads, rfl, ?_⟩
          rw [readHead_found hbuf, List.flatMap_nil, List.append_nil]
      | none =>
          have hshort : buf.length < i + 4 := by
            by_contra hlong
            rw [headEnd_of_append hend (by omega)] at hbuf
            cases hbuf
          rw [List.flatMap_cons, ← List.append_assoc] at hend
          obtain ⟨used, left, hsplit, hrun⟩ := ih (buf ++ data)
            (fun r hr => hreads r (List.mem_cons_of_mem _ hr)) hend
          refine ⟨.bytes now data :: used, left, by rw [hsplit, List.cons_append], ?_⟩
          rw [List.cons_append, readHead_more hbuf (by omega) now hdata, hrun, List.flatMap_cons,
            List.append_assoc]
          rfl

/-! ## The client -/

namespace Client

variable {Z : Decompress} {dial : Dial} {cfg : Config} {c : Client Z} {reads left : List Read}

theorem ofHead_ok {head rest : List UInt8} (h : ofHead dial cfg head rest = .ok c) :
    ∃ headers mode inflater, inflater.isSome = mode.isSome ∧
      c = accepted cfg dial.now rest headers mode inflater := by
  unfold ofHead at h
  rcases hhead : acceptHead (dial.accept dial.key) cfg.offer head with e | ⟨headers, mode⟩
  · rw [hhead] at h
    cases h
  · rw [hhead] at h
    rcases mode with _ | m
    · cases h
      exact ⟨_, _, _, rfl, rfl⟩
    · simp only [bind, Except.bind] at h
      rcases hnew : (Inflater.new m cfg.maxMessage : Except Inflate.Error (Inflater Z)) with e | inf
      · rw [hnew] at h
        cases h
      · rw [hnew] at h
        cases h
        exact ⟨_, _, _, rfl, rfl⟩

/-- A connected client holds the bytes after the first blank line, and an inflater if
compression was agreed on. -/
theorem connect_ok (h : connect dial cfg reads = .connected c left) :
    ∃ used i headers mode inflater, reads = used ++ left ∧
      headEnd (used.flatMap Read.received) = some i ∧ inflater.isSome = mode.isSome ∧
      c = accepted cfg dial.now ((used.flatMap Read.received).drop (i + 4)) headers mode
        inflater := by
  unfold connect at h
  rcases hurl : parseUrl cfg.url with e | url
  · rw [hurl] at h
    cases h
  rw [hurl] at h
  dsimp only at h
  rcases hfail : dial.failure url (request cfg url dial.key) with _ | e
  · rw [hfail] at h
    dsimp only at h
    rcases hread : readHead [] reads with _ | e | ⟨i, buf, left'⟩
    · rw [hread] at h
      cases h
    · rw [hread] at h
      cases h
    · rw [hread] at h
      dsimp only at h
      obtain ⟨used, hreads, hbuf, hend⟩ := readHead_ok hread
      rw [List.nil_append] at hbuf
      rcases hhead : (ofHead dial cfg (buf.take i) (buf.drop (i + 4)) :
        Except ConnectError (Client Z)) with e | c'
      · rw [hhead] at h
        cases h
      · rw [hhead] at h
        cases h
        obtain ⟨headers, mode, inflater, hmode, rfl⟩ := ofHead_ok hhead
        rw [hbuf] at hend
        exact ⟨used, i, headers, mode, inflater, hreads, hend, hmode, by rw [hbuf]⟩
  · rw [hfail] at h
    cases h

/-! ## A connection -/

/-- A decompressor for connections without compression, which never call it. -/
def noDeflate : Decompress where
  State := Unit
  new := ()
  reset _ := ()
  setDictionary _ := .ok ()
  decompress _ _ _ := .error "no stream"
  consumed_le _ _ _ _ h := by cases h
  appended_le _ _ _ _ h := by cases h

def sampleDial : Dial where
  failure _ _ := none
  key := "k"
  accept _ := ['a']
  now := 2

def sampleConfig : Config where
  url := "ws://feed/".toList
  headers := []
  offer := .none
  maxMessage := 1000
  pingEvery := 20
  readTimeout := 60

def sampleHead : List UInt8 :=
  "HTTP/1.1 101 Switching Protocols\r\nSec-WebSocket-Accept: a\r\n\r\n".toList.map fun c =>
    UInt8.ofNat c.toNat

def sampleClient : Client noDeflate :=
  accepted sampleConfig 2 [0x82] [("Sec-WebSocket-Accept".toList, ['a'])] none none

theorem connect_sample :
    connect sampleDial sampleConfig [.bytes 1 (sampleHead ++ [0x82])] =
      .connected sampleClient [] := rfl

end Client

end FeedBench.Ws
