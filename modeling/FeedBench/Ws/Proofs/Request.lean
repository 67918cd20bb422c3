import FeedBench.Ws.Proofs.Url

/-!
# The request read by a server

A server takes the head apart at the line breaks, up to the first blank line, and each header at
its first colon.  What it reads is what the configuration asks for, if no part of it can be taken
for a separator.
-/

namespace FeedBench.Ws

open Text

/-! ## Reading -/

structure Upgrade where
  method : List Char
  target : List Char
  version : List Char
  headers : List (List Char × List Char)

def Upgrade.named (u : Upgrade) (name : String) : List (List Char) :=
  (u.headers.filter fun h => eqIgnoreAsciiCase h.1 name.toList).map Prod.snd

/-- The name and the value of a header, as `acceptHead` reads them. -/
def readHeader (line : List Char) : Option (List Char × List Char) :=
  (splitOnce [':'] line).map fun h => (trim h.1, trim h.2)

def readUpgrade (text : List Char) : Option Upgrade :=
  match (split ['\r', '\n'] text).takeWhile (· ≠ []) with
  | [] => none
  | first :: lines =>
      match split [' '] first with
      | [method, target, version] =>
          some { method, target, version, headers := lines.filterMap readHeader }
      | _ => none

/-- The host, with the port if it is not the one the scheme stands for. -/
def hostText (url : Url) : List Char :=
  if (url.tls ∧ url.port = 443) ∨ (¬url.tls ∧ url.port = 80) then url.host
  else url.host ++ ':' :: (toString url.port).toList

def upgradeHeaders (cfg : Config) (url : Url) (key : String) : List (List Char × List Char) :=
  [("Host".toList, hostText url), ("Upgrade".toList, "websocket".toList),
    ("Connection".toList, "Upgrade".toList), ("Sec-WebSocket-Key".toList, key.toList),
    ("Sec-WebSocket-Version".toList, "13".toList)] ++
  (cfg.offer.headerValue.map fun offer =>
    ("Sec-WebSocket-Extensions".toList, offer.toList)).toList ++
  (cfg.headers.map fun h => (h.1.toList, h.2.toList)) ++
  [("User-Agent".toList, "feedbench/0.1.2".toList)]

/-! ## Lines -/

def requestLine (url : Url) : List Char := "GET ".toList ++ url.path ++ " HTTP/1.1".toList

def headerLine (h : List Char × List Char) : List Char := h.1 ++ ": ".toList ++ h.2

def requestLines (cfg : Config) (url : Url) (key : String) : List (List Char) :=
  requestLine url :: (upgradeHeaders cfg url key).map headerLine

def headerText (h : List Char × List Char) : List Char := headerLine h ++ ['\r', '\n']

theorem toList_hostText (url : Url) :
    (if (url.tls ∧ url.port = 443) ∨ (¬url.tls ∧ url.port = 80) then String.ofList url.host
      else String.ofList url.host ++ ":" ++ toString url.port).toList = hostText url := by
  unfold hostText
  split
  · exact String.toList_ofList
  · rw [String.toList_append, String.toList_append, String.toList_ofList, List.append_assoc]
    rfl

theorem toList_offer (offer : Option String) :
    (offer.elim "" fun offer => "Sec-WebSocket-Extensions: " ++ offer ++ "\r\n").toList =
      (offer.map fun offer => ("Sec-WebSocket-Extensions".toList, offer.toList)).toList.flatMap
        headerText := by
  cases offer with
  | none => rfl
  | some offer => simp [headerText, headerLine]

theorem toList_headers (headers : List (String × String)) :
    (String.join (headers.map fun h => h.1 ++ ": " ++ h.2 ++ "\r\n")).toList =
      (headers.map fun h => (h.1.toList, h.2.toList)).flatMap headerText := by
  rw [String.toList_join, List.flatMap_map, List.flatMap_map]
  congr 1
  funext h
  simp [headerText, headerLine]

theorem toList_request (cfg : Config) (url : Url) (key : String) :
    (request cfg url key).toList =
      ((requestLines cfg url key).flatMap fun line => line ++ ['\r', '\n']) ++ ['\r', '\n'] := by
  have hlines : ((requestLines cfg url key).flatMap fun line => line ++ ['\r', '\n']) =
      requestLine url ++ ['\r', '\n'] ++ (upgradeHeaders cfg url key).flatMap headerText := by
    rw [requestLines, List.flatMap_cons, List.flatMap_map]
    rfl
  rw [hlines, upgradeHeaders, List.flatMap_append, List.flatMap_append, List.flatMap_append,
    ← toList_offer, ← toList_headers, ← toList_hostText]
  unfold request
  generalize (cfg.offer.headerValue.elim "" _ : String) = offer
  generalize String.join _ = headers
  simp [headerText, headerLine, requestLine]

/-! ## Read back -/

def Solid (s : List Char) : Prop := ∀ c ∈ s, isWhitespace c = false

instance (s : List Char) : Decidable (Solid s) := List.decidableBAll _ s

/-- A header that stays one line, and whose name ends at its colon. -/
structure LegalHeader (h : List Char × List Char) : Prop where
  solid : Solid h.1
  colon : ':' ∉ h.1
  oneLine : '\r' ∉ h.2
  trimmed : trim h.2 = h.2

theorem Solid.not_mem {c : Char} {s : List Char} (h : Solid s) (hc : isWhitespace c = true) :
    c ∉ s := by
  intro hmem
  rw [h c hmem] at hc
  cases hc

theorem Solid.trim_eq {s : List Char} (h : Solid s) : trim s = s := by
  have hdrop : ∀ t : List Char, Solid t → t.dropWhile isWhitespace = t := by
    intro t ht
    rw [List.dropWhile_eq_self_iff]
    intro hpos
    rw [ht _ (List.getElem_mem hpos)]
    exact Bool.false_ne_true
  have hreverse : Solid s.reverse := fun c hmem => h c (List.mem_reverse.mp hmem)
  rw [trim, trimMatches, hdrop s h, hdrop s.reverse hreverse, List.reverse_reverse]

theorem solid_toString (k : Nat) : Solid (toString k).toList := by
  intro c hmem
  have hdigit : 48 ≤ c.toNat ∧ c.toNat ≤ 57 :=
    Char.isDigit_iff_toNat.mp (isDigit_of_mem_toString hmem)
  simp only [isWhitespace, Bool.or_eq_false_iff, Bool.and_eq_false_iff, decide_eq_false_iff_not]
  omega

theorem solid_hostText {url : Url} (h : Solid url.host) : Solid (hostText url) := by
  unfold hostText
  split
  · exact h
  · intro c hmem
    rcases List.mem_append.mp hmem with hhost | hport
    · exact h c hhost
    · rcases List.mem_cons.mp hport with rfl | hport
      · rfl
      · exact solid_toString url.port c hport

/-- The parts of a request that are not fixed cannot end a line, or the part they stand in. -/
structure Sendable (cfg : Config) (url : Url) (key : String) : Prop where
  host : Solid url.host
  path : Solid url.path
  key : Solid key.toList
  headers : ∀ h ∈ cfg.headers, LegalHeader (h.1.toList, h.2.toList)

variable {cfg : Config} {url : Url} {key : String} {h : List Char × List Char}

theorem legalHeader_offer {offer : Offer} {value : String} (h : offer.headerValue = some value) :
    LegalHeader ("Sec-WebSocket-Extensions".toList, value.toList) := by
  cases offer with
  | none => cases h
  | auto => cases h; exact ⟨by decide, by decide, by decide +kernel, by decide +kernel⟩
  | nitro => cases h; exact ⟨by decide, by decide, by decide +kernel, by decide +kernel⟩
  | standard => cases h; exact ⟨by decide, by decide, by decide +kernel, by decide +kernel⟩

theorem Solid.legalHeader {name value : List Char} (hname : Solid name) (hcolon : ':' ∉ name)
    (hvalue : Solid value) : LegalHeader (name, value) :=
  ⟨hname, hcolon, hvalue.not_mem rfl, hvalue.trim_eq⟩

theorem Sendable.legalHeader (hs : Sendable cfg url key) :
    ∀ h ∈ upgradeHeaders cfg url key, LegalHeader h := by
  intro h hmem
  simp only [upgradeHeaders, List.mem_append, List.mem_cons, List.not_mem_nil, or_false,
    Option.mem_toList, Option.map_eq_some_iff, List.mem_map] at hmem
  rcases hmem with ((((rfl | rfl | rfl | rfl | rfl) | ⟨offer, hoffer, rfl⟩) | ⟨g, hg, rfl⟩) | rfl)
  · exact Solid.legalHeader (by decide) (by decide) (solid_hostText hs.host)
  · exact Solid.legalHeader (by decide) (by decide) (by decide)
  · exact Solid.legalHeader (by decide) (by decide) (by decide)
  · exact Solid.legalHeader (by decide) (by decide) hs.key
  · exact Solid.legalHeader (by decide) (by decide) (by decide)
  · exact legalHeader_offer hoffer
  · exact hs.headers g hg
  · exact Solid.legalHeader (by decide) (by decide) (by decide)

theorem LegalHeader.not_mem_headerLine (hl : LegalHeader h) : '\r' ∉ headerLine h := by
  rw [headerLine, List.mem_append, List.mem_append]
  rintro ((hmem | hmem) | hmem)
  · exact hl.solid.not_mem rfl hmem
  · revert hmem
    decide
  · exact hl.oneLine hmem

theorem LegalHeader.readHeader (hl : LegalHeader h) : readHeader (headerLine h) = some h := by
  have hline : headerLine h = h.1 ++ [':'] ++ ([' '] ++ h.2) := by
    rw [headerLine, List.append_assoc, List.append_assoc]
    rfl
  have hspace : ∀ c ∈ [' '], isWhitespace c = true := List.forall_mem_singleton.mpr rfl
  rw [hline, Ws.readHeader, splitOnce_append hl.colon, Option.map_some, hl.solid.trim_eq,
    trim_whitespace_append hspace, hl.trimmed]

theorem headerLine_ne_nil : headerLine h ≠ [] := by
  simp [headerLine]

theorem not_mem_requestLine (hs : Sendable cfg url key) : '\r' ∉ requestLine url := by
  rw [requestLine, List.mem_append, List.mem_append]
  rintro ((hmem | hmem) | hmem)
  · revert hmem
    decide
  · exact hs.path.not_mem rfl hmem
  · revert hmem
    decide

theorem split_requestLine (h : Solid url.path) :
    split [' '] (requestLine url) = ["GET".toList, url.path, "HTTP/1.1".toList] := by
  have hline : requestLine url =
      "GET".toList ++ ' ' :: (url.path ++ ' ' :: "HTTP/1.1".toList) := by
    rw [requestLine, List.append_assoc]
    rfl
  have hget : ' ' ∉ "GET".toList := by decide
  rw [split_singleton, hline, List.splitOn_append_cons_self_of_not_mem hget,
    List.splitOn_append_cons_self_of_not_mem (h.not_mem rfl)]
  rfl

theorem takeWhile_request (hs : Sendable cfg url key) :
    (split ['\r', '\n'] (request cfg url key).toList).takeWhile (· ≠ []) =
      requestLines cfg url key := by
  have hlines : ∀ line ∈ requestLines cfg url key, '\r' ∉ line := by
    refine List.forall_mem_cons.mpr ⟨not_mem_requestLine hs, ?_⟩
    exact List.forall_mem_map.mpr fun h hmem => (hs.legalHeader h hmem).not_mem_headerLine
  have hne : ∀ line ∈ requestLines cfg url key, decide (line ≠ []) = true := by
    refine List.forall_mem_cons.mpr ⟨by simp [requestLine], ?_⟩
    exact List.forall_mem_map.mpr fun h _ => decide_eq_true headerLine_ne_nil
  rw [toList_request, split_flatMap_append hlines, List.takeWhile_append_of_pos hne]
  exact List.append_nil _

/-- A server reads the method, the target, the version and every header as they are meant. -/
theorem readUpgrade_request (hs : Sendable cfg url key) :
    readUpgrade (request cfg url key).toList =
      some ⟨"GET".toList, url.path, "HTTP/1.1".toList, upgradeHeaders cfg url key⟩ := by
  have hheaders : ((upgradeHeaders cfg url key).map headerLine).filterMap readHeader =
      upgradeHeaders cfg url key := by
    rw [List.filterMap_map]
    refine (List.filterMap_congr fun h hmem => ?_).trans List.filterMap_some
    exact (hs.legalHeader h hmem).readHeader
  rw [readUpgrade, takeWhile_request hs, requestLines]
  simp only [split_requestLine hs.path, hheaders]

/-! ## The parts of a URL -/

theorem Solid.of_subset {s t : List Char} (h : Solid s) (hsub : t ⊆ s) : Solid t :=
  fun c hmem => h c (hsub hmem)

theorem Sendable.of_parseUrl (hurl : parseUrl cfg.url = .ok url) (hsolid : Solid cfg.url)
    (hkey : Solid key.toList)
    (hheaders : ∀ h ∈ cfg.headers, LegalHeader (h.1.toList, h.2.toList)) :
    Sendable cfg url key := by
  obtain ⟨hhost, hpath⟩ := parseUrl_subset hurl
  have hslash : Solid ('/' :: cfg.url) := List.forall_mem_cons.mpr ⟨rfl, hsolid⟩
  exact ⟨hsolid.of_subset hhost, hslash.of_subset hpath, hkey, hheaders⟩

/-! ## Headers of a name -/

def fixedHeaders : List String :=
  ["Host", "Upgrade", "Connection", "Sec-WebSocket-Key", "Sec-WebSocket-Version",
    "Sec-WebSocket-Extensions", "User-Agent"]

theorem filter_upgradeHeaders {name : List Char}
    (hname : ∀ fixed ∈ fixedHeaders, eqIgnoreAsciiCase fixed.toList name = false) :
    (upgradeHeaders cfg url key).filter (fun h => eqIgnoreAsciiCase h.1 name) =
      (cfg.headers.map fun h => (h.1.toList, h.2.toList)).filter
        fun h => eqIgnoreAsciiCase h.1 name := by
  simp only [fixedHeaders, List.forall_mem_cons] at hname
  obtain ⟨hhost, hupgrade, hconnection, hkey, hversion, hoffer, hagent, -⟩ := hname
  have hoffers : (cfg.offer.headerValue.map fun offer =>
      ("Sec-WebSocket-Extensions".toList, offer.toList)).toList.filter
        (fun h => eqIgnoreAsciiCase h.1 name) = [] := by
    cases cfg.offer.headerValue with
    | none => rfl
    | some offer => exact List.filter_cons_of_neg (by rw [hoffer]; exact Bool.false_ne_true)
  rw [upgradeHeaders, List.filter_append, List.filter_append, List.filter_append, hoffers]
  simp only [List.filter_cons, List.filter_nil, hhost, hupgrade, hconnection, hkey, hversion,
    hagent, Bool.false_eq_true, if_false, List.nil_append, List.append_nil]

end FeedBench.Ws
