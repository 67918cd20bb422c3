import FeedBench.Text.Pieces
import FeedBench.Ws.Handshake

/-!
# Extensions

`negotiated_mode` decides on the first extension of the reply and returns.  It keeps to the
offer just when nothing after an acceptable first extension names another one.
-/

namespace FeedBench.Ws

open Inflate Text

/-! ## The list of extensions -/

def extensions (list : List Char) : List (List Char) := split [','] list

def extensionName (ext : List Char) : List Char := trim ((split [';'] ext).headD [])

def extensionParameters (ext : List Char) : List (List Char) :=
  ((split [';'] ext).tail.map trim).filter fun p => !p.isEmpty

def parameterKey (p : List Char) : List Char := toAsciiLowercase (trim ((split ['='] p).headD []))

def namedExtensions (list : List Char) : List (List Char) :=
  (extensions list).filter fun ext => !(extensionName ext).isEmpty

def Offer.names (offer : Offer) : List (List Char) :=
  offer.headerValue.elim [] fun value => (namedExtensions value.toList).map extensionName

def Offer.Names (offer : Offer) (name : List Char) : Prop :=
  ∃ n ∈ offer.names, eqIgnoreAsciiCase name n = true

def IsCompression (ext : List Char) : Prop :=
  ∃ n ∈ [nitroExtension, standardExtension],
    eqIgnoreAsciiCase (extensionName ext) n.toList = true

def serverNoContextTakeover (ext : List Char) : Prop :=
  ∃ p ∈ extensionParameters ext, parameterKey p = "server_no_context_takeover".toList

def Selects (ext : List Char) : Mode → Prop
  | .nitro => eqIgnoreAsciiCase (extensionName ext) nitroExtension.toList = true
  | .standard off => eqIgnoreAsciiCase (extensionName ext) standardExtension.toList = true ∧
      (off = true ↔ serverNoContextTakeover ext)

instance (ext : List Char) : Decidable (IsCompression ext) := by
  unfold IsCompression
  infer_instance

/-- The reply is taken for no more than the client offered. -/
structure Lawful (reply : List Char) (offer : Offer) : Prop where
  offered : ∀ mode, negotiatedMode reply offer = .ok (some mode) →
    ∀ ext ∈ namedExtensions reply, offer.Names (extensionName ext)
  selected : ∀ mode, negotiatedMode reply offer = .ok (some mode) →
    ∃ ext, (namedExtensions reply).filter (IsCompression ·) = [ext] ∧ Selects ext mode
  refused : ∀ ext ∈ namedExtensions reply, ¬offer.Names (extensionName ext) →
    ∃ e, negotiatedMode reply offer = .error e

/-! ## The offer -/

theorem names_eq (offer : Offer) : offer.names =
    match offer with
    | .auto => [nitroExtension.toList, standardExtension.toList]
    | .nitro => [nitroExtension.toList]
    | .standard => [standardExtension.toList]
    | .none => [] := by
  cases offer <;> decide +kernel

def offered (offer : Offer) (nitro standard : Bool) : Bool :=
  match offer with
  | .auto => true
  | .nitro => nitro
  | .standard => standard
  | .none => false

theorem isCompression_iff (ext : List Char) : IsCompression ext ↔
    (eqIgnoreAsciiCase (extensionName ext) nitroExtension.toList ||
      eqIgnoreAsciiCase (extensionName ext) standardExtension.toList) = true := by
  simp [IsCompression]

theorem names_iff (offer : Offer) (ext : List Char) : offer.Names (extensionName ext) ↔
    IsCompression ext ∧ offered offer
      (eqIgnoreAsciiCase (extensionName ext) nitroExtension.toList)
      (eqIgnoreAsciiCase (extensionName ext) standardExtension.toList) = true := by
  rw [Offer.Names, names_eq, isCompression_iff]
  cases offer <;> simp +contextual [offered]

theorem isCompression_of_names {offer : Offer} {ext : List Char}
    (h : offer.Names (extensionName ext)) : IsCompression ext :=
  ((names_iff offer ext).mp h).1

theorem name_ne_nil {ext : List Char} (h : IsCompression ext) : extensionName ext ≠ [] := by
  intro hname
  rw [isCompression_iff, hname] at h
  revert h
  decide

/-! ## One extension -/

def knownParameters : List (List Char) :=
  ["server_no_context_takeover".toList, "client_no_context_takeover".toList,
    "server_max_window_bits".toList, "client_max_window_bits".toList]

theorem takeoverParameters_cons {p : List Char} (ps : List (List Char)) (off : Bool)
    (h : parameterKey p ∈ knownParameters) : takeoverParameters off (p :: ps) =
      takeoverParameters (off || parameterKey p = "server_no_context_takeover".toList) ps := by
  rw [takeoverParameters, ← parameterKey]
  by_cases hserver : parameterKey p = "server_no_context_takeover".toList
  · rw [if_pos hserver, decide_eq_true hserver, Bool.or_true]
  · have hother := (List.mem_cons.mp h).resolve_left hserver
    simp only [List.mem_cons, List.not_mem_nil, or_false] at hother
    rw [if_neg hserver, if_pos hother, decide_eq_false hserver, Bool.or_false]

theorem takeoverParameters_error {p : List Char} (ps : List (List Char)) (off : Bool)
    (h : parameterKey p ∉ knownParameters) :
    takeoverParameters off (p :: ps) = .error (.unsupportedParameter (parameterKey p)) := by
  rw [takeoverParameters, ← parameterKey]
  simp only [knownParameters, List.mem_cons, List.not_mem_nil, or_false, not_or] at h
  obtain ⟨hserver, hother⟩ := h
  rw [if_neg hserver, if_neg (by simpa only [not_or] using hother)]

theorem takeoverParameters_known {ps : List (List Char)} (off : Bool)
    (h : ∀ p ∈ ps, parameterKey p ∈ knownParameters) :
    takeoverParameters off ps =
      .ok (off || ps.any fun p => parameterKey p = "server_no_context_takeover".toList) := by
  induction ps generalizing off with
  | nil => rw [takeoverParameters, List.any_nil, Bool.or_false]
  | cons p ps ih =>
      rw [takeoverParameters_cons ps off (h p List.mem_cons_self),
        ih _ fun q hq => h q (List.mem_cons_of_mem p hq), List.any_cons, Bool.or_assoc]

theorem takeoverParameters_unknown {ps : List (List Char)} (off : Bool)
    (h : ¬∀ p ∈ ps, parameterKey p ∈ knownParameters) :
    ∃ e, takeoverParameters off ps = .error e := by
  induction ps generalizing off with
  | nil => exact absurd (List.forall_mem_nil _) h
  | cons p ps ih =>
      by_cases hp : parameterKey p ∈ knownParameters
      · rw [takeoverParameters_cons ps off hp]
        exact ih _ fun hall => h (List.forall_mem_cons.mpr ⟨hp, hall⟩)
      · exact ⟨_, takeoverParameters_error ps off hp⟩

def Acceptable (offer : Offer) (ext : List Char) : Prop :=
  offer.Names (extensionName ext) ∧ ∀ p ∈ extensionParameters ext, parameterKey p ∈ knownParameters

theorem negotiatedModeOf_cons (offer : Offer) (ext : List Char) (exts : List (List Char)) :
    negotiatedModeOf offer (ext :: exts) =
      (let nitro := eqIgnoreAsciiCase (extensionName ext) nitroExtension.toList
      let standard := eqIgnoreAsciiCase (extensionName ext) standardExtension.toList
      if !nitro && !standard then .error (.unknownExtension (extensionName ext))
      else if !offered offer nitro standard then .error (.notOffered (extensionName ext))
      else (takeoverParameters false (extensionParameters ext)).bind fun off =>
        .ok (some (if nitro then .nitro else .standard off))) := by
  obtain ⟨name, parts, hparts⟩ := List.exists_cons_of_ne_nil (split_ne_nil ';' ext)
  rw [negotiatedModeOf, extensionName, extensionParameters, hparts]
  cases offer <;> rfl

def selected (ext : List Char) : Mode :=
  if eqIgnoreAsciiCase (extensionName ext) nitroExtension.toList then .nitro
  else .standard ((extensionParameters ext).any fun p =>
    parameterKey p = "server_no_context_takeover".toList)

theorem negotiatedModeOf_acceptable {offer : Offer} {ext : List Char} (exts : List (List Char))
    (h : Acceptable offer ext) :
    negotiatedModeOf offer (ext :: exts) = .ok (some (selected ext)) := by
  obtain ⟨hcompression, hoffered⟩ := (names_iff offer ext).mp h.1
  rw [isCompression_iff] at hcompression
  rw [negotiatedModeOf_cons]
  simp only [← Bool.not_or, hcompression, hoffered, takeoverParameters_known false h.2]
  rfl

theorem negotiatedModeOf_unacceptable {offer : Offer} {ext : List Char} (exts : List (List Char))
    (h : ¬Acceptable offer ext) : ∃ e, negotiatedModeOf offer (ext :: exts) = .error e := by
  rw [negotiatedModeOf_cons]
  by_cases hname : offer.Names (extensionName ext)
  · obtain ⟨hcompression, hoffered⟩ := (names_iff offer ext).mp hname
    rw [isCompression_iff] at hcompression
    obtain ⟨e, he⟩ := takeoverParameters_unknown false fun hall => h ⟨hname, hall⟩
    refine ⟨e, ?_⟩
    simp only [← Bool.not_or, hcompression, hoffered, he]
    rfl
  · rw [names_iff, isCompression_iff] at hname
    simp only [← Bool.not_or]
    split
    · exact ⟨_, rfl⟩
    · next hcompression =>
      rw [Bool.not_eq_true', Bool.not_eq_false] at hcompression
      have hoffered := Bool.eq_false_iff.mpr fun h => hname ⟨hcompression, h⟩
      rw [hoffered]
      exact ⟨_, rfl⟩

theorem selects_selected {ext : List Char} (h : IsCompression ext) :
    Selects ext (selected ext) := by
  rw [isCompression_iff, Bool.or_eq_true] at h
  rw [selected]
  split
  · next hnitro => exact hnitro
  · next hnitro =>
    refine ⟨h.resolve_left hnitro, ?_⟩
    rw [List.any_eq_true]
    simp only [decide_eq_true_eq]
    rfl

/-! ## The reply -/

/-- The first extension of the reply is the only one, or is not taken. -/
def Alone (reply : List Char) (offer : Offer) : Prop :=
  Acceptable offer ((extensions reply).headD []) →
    ∀ ext ∈ (extensions reply).tail, extensionName ext = []

theorem namedExtensions_eq {reply ext : List Char} {exts : List (List Char)}
    (hexts : extensions reply = ext :: exts) (hname : extensionName ext ≠ []) :
    namedExtensions reply = ext :: exts.filter fun ext => !(extensionName ext).isEmpty := by
  rw [namedExtensions, hexts, List.filter_cons_of_pos]
  rw [Bool.not_eq_true', List.isEmpty_eq_false_iff]
  exact hname

theorem namedExtensions_tail {exts : List (List Char)} :
    (exts.filter fun ext => !(extensionName ext).isEmpty) = [] ↔
      ∀ ext ∈ exts, extensionName ext = [] := by
  simp [List.filter_eq_nil_iff]

/-- `negotiated_mode` keeps to the offer just when there is nothing that it skips. -/
theorem lawful_iff (reply : List Char) (offer : Offer) :
    Lawful reply offer ↔ Alone reply offer := by
  obtain ⟨ext, exts, hexts⟩ := List.exists_cons_of_ne_nil (split_ne_nil ',' reply)
  have hmode : negotiatedMode reply offer = negotiatedModeOf offer (ext :: exts) :=
    congrArg (negotiatedModeOf offer) hexts
  rw [Alone, extensions, hexts, List.headD_cons, List.tail_cons]
  by_cases hext : Acceptable offer ext
  · have hcompression := isCompression_of_names hext.1
    have hnamed := namedExtensions_eq hexts (name_ne_nil hcompression)
    rw [negotiatedModeOf_acceptable exts hext] at hmode
    refine Iff.trans ⟨?_, ?_⟩ (forall_prop_of_true hext).symm
    · intro hlawful
      rw [← namedExtensions_tail]
      obtain ⟨only, honly, -⟩ := hlawful.selected _ hmode
      -- every name the reply has is offered, so all of it selects compression
      have hall : ∀ ext ∈ namedExtensions reply, decide (IsCompression ext) = true := by
        intro ext' hext'
        exact decide_eq_true (isCompression_of_names (hlawful.offered _ hmode ext' hext'))
      rw [List.filter_eq_self.mpr hall, hnamed] at honly
      exact (List.cons.inj honly).2
    · intro hblank
      rw [namedExtensions_tail.mpr hblank] at hnamed
      refine ⟨?_, ?_, ?_⟩
      · intro _ _ ext' hext'
        rw [hnamed, List.mem_singleton] at hext'
        exact hext' ▸ hext.1
      · intro mode h
        rw [hmode, Except.ok.injEq, Option.some.injEq] at h
        refine ⟨ext, ?_, h ▸ selects_selected hcompression⟩
        rw [hnamed]
        exact List.filter_cons_of_pos (decide_eq_true hcompression)
      · intro ext' hext' hnot
        rw [hnamed, List.mem_singleton] at hext'
        exact absurd (hext' ▸ hext.1) hnot
  · obtain ⟨e, he⟩ := negotiatedModeOf_unacceptable exts hext
    rw [he] at hmode
    refine iff_of_true ⟨?_, ?_, fun _ _ _ => ⟨e, hmode⟩⟩ fun h => absurd h hext
    · intro mode h
      rw [hmode] at h
      cases h
    · intro mode h
      rw [hmode] at h
      cases h

/-- A second extension that was not offered. -/
theorem not_lawful_second : negotiatedMode "permessage-deflate, x-foo".toList .auto =
    .ok (some (.standard false)) ∧ ¬Lawful "permessage-deflate, x-foo".toList .auto := by
  refine ⟨by decide, ?_⟩
  rintro ⟨hoffered, -, -⟩
  have hnames := hoffered (.standard false) (by decide) " x-foo".toList (by decide)
  revert hnames
  rw [names_iff, isCompression_iff]
  decide

end FeedBench.Ws
