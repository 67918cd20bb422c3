import FeedBench.Text.Pieces
import FeedBench.Ws.Handshake

/-!
# URLs

`parse_url` reads back the parts a URL was written from, except behind a bracketed address
without a port: there the last colon of the address is taken for the one before a port.
-/

namespace FeedBench.Ws

open Text

/-! ## Host and port -/

/-- What `parse_url` makes of the authority. -/
def hostPort (authority : List Char) (default : Nat) : Except ConnectError (List Char × Nat) :=
  match rsplitOnce ':' authority with
  | some (h, p) =>
      if ']' ∉ h ∨ h.getLast? = some ']' then
        (parseUnsigned 65536 p).elim (.error (.badPort p)) fun port => .ok (h, port)
      else .ok (authority, default)
  | none => .ok (authority, default)

theorem bind_hostPort {α : Type} (authority : List Char) (default : Nat)
    (f : List Char × Nat → Except ConnectError α) :
    (match rsplitOnce ':' authority with
      | some (h, p) =>
          if ']' ∉ h ∨ h.getLast? = some ']' then
            ((parseUnsigned 65536 p).elim (Except.error (.badPort p)) fun port =>
              .ok (h, port)).bind f
          else (Except.ok (authority, default)).bind f
      | none => (Except.ok (authority, default)).bind f) = (hostPort authority default).bind f := by
  unfold hostPort
  split
  · split <;> rfl
  · rfl

/-- How a host is written.  Of an IPv6 address only its colons matter. -/
inductive HostText where
  | name (text : List Char) (ne : text ≠ []) (plain : ∀ c ∈ text, c ∉ [':', '/', '[', ']'])
  | ipv6 (text : List Char) (colon : ':' ∈ text) (plain : ∀ c ∈ text, c ∉ ['/', '[', ']'])

namespace HostText

def text : HostText → List Char
  | name text .. => text
  | ipv6 text .. => text

def render : HostText → List Char
  | name text .. => text
  | ipv6 text .. => '[' :: text ++ [']']

def isIpv6 : HostText → Bool
  | name .. => false
  | ipv6 .. => true

theorem not_slash (host : HostText) : '/' ∉ host.render := by
  intro hmem
  cases host with
  | name text ne plain => exact plain '/' hmem (by decide)
  | ipv6 text colon plain =>
      rcases List.mem_append.mp hmem with hmem | hmem
      · rcases List.mem_cons.mp hmem with heq | hmem
        · exact absurd heq (by decide)
        · exact plain '/' hmem (by decide)
      · exact absurd hmem (by decide)

theorem colon_not_mem (host : HostText) (h : host.isIpv6 = false) : ':' ∉ host.render := by
  cases host with
  | name text ne plain => exact fun hmem => plain ':' hmem (by decide)
  | ipv6 => cases h

theorem bracket_last (host : HostText) :
    ']' ∉ host.render ∨ host.render.getLast? = some ']' := by
  cases host with
  | name text ne plain => exact .inl fun hmem => plain ']' hmem (by decide)
  | ipv6 text colon plain => exact .inr List.getLast?_concat

theorem exists_last_colon (host : HostText) (h : host.isIpv6 = true) :
    ∃ before after, host.render = before ++ ':' :: after ∧ ']' ∉ before ∧ ']' ∈ after ∧
      ':' ∉ after := by
  cases host with
  | name => cases h
  | ipv6 text colon plain =>
      obtain ⟨after, before, htext, hafter⟩ :=
        List.eq_append_cons_of_mem (List.mem_reverse.mpr colon)
      have hrender : text = before.reverse ++ ':' :: after.reverse := by
        rw [← List.reverse_reverse text, htext, List.reverse_append, List.reverse_cons,
          List.append_assoc]
        rfl
      refine ⟨'[' :: before.reverse, after.reverse ++ [']'], ?_, ?_, by simp, ?_⟩
      · rw [render, hrender, List.cons_append, List.append_assoc]
        rfl
      · intro hmem
        have hmem : ']' ∈ text := by
          rw [hrender]
          exact List.mem_append_left _ ((List.mem_cons.mp hmem).resolve_left (by decide))
        exact plain ']' hmem (by decide)
      · intro hmem
        rcases List.mem_append.mp hmem with hmem | hmem
        · exact hafter (List.mem_reverse.mp hmem)
        · exact absurd hmem (by decide)

theorem text_ne_nil (host : HostText) : host.text ≠ [] := by
  cases host with
  | name text ne plain => exact ne
  | ipv6 text colon plain => exact List.ne_nil_of_mem colon

theorem text_plain (host : HostText) :
    ∀ c ∈ host.text, ¬(decide (c = '[') || decide (c = ']')) = true := by
  intro c hc
  have hplain : c ∉ ['[', ']'] := by
    cases host with
    | name text ne plain => exact fun hmem => plain c hc (by simp_all)
    | ipv6 text colon plain => exact fun hmem => plain c hc (by simp_all)
  simpa using hplain

theorem trimMatches_render (host : HostText) :
    trimMatches (fun c => c = '[' || c = ']') host.render = host.text := by
  have hhead : ∀ c ∈ host.text.head?, ¬(decide (c = '[') || decide (c = ']')) = true :=
    fun c hc => host.text_plain c (List.mem_of_mem_head? hc)
  have hlast : ∀ c ∈ host.text.getLast?, ¬(decide (c = '[') || decide (c = ']')) = true :=
    fun c hc => host.text_plain c (List.mem_of_getLast? hc)
  have hrender : ∃ before after, host.render = before ++ host.text ++ after ∧
      (∀ c ∈ before, c = '[') ∧ ∀ c ∈ after, c = ']' := by
    cases host with
    | name text ne plain => exact ⟨[], [], by simp [render, HostText.text], by simp, by simp⟩
    | ipv6 text colon plain =>
        exact ⟨['['], [']'], by simp [render, HostText.text], by simp, by simp⟩
  obtain ⟨before, after, hrender, hbefore, hafter⟩ := hrender
  rw [hrender]
  refine trimMatches_append ?_ ?_ hhead hlast host.text_ne_nil
  · intro c hc
    rw [hbefore c hc]
    rfl
  · intro c hc
    rw [hafter c hc]
    rfl

theorem render_ne_nil (host : HostText) : host.render ≠ [] := by
  cases host with
  | name text ne plain => exact ne
  | ipv6 => exact List.cons_ne_nil _ _

end HostText

structure UrlText where
  scheme : List Char
  scheme_known : toAsciiLowercase scheme ∈
    ["ws".toList, "wss".toList, "http".toList, "https".toList]
  host : HostText
  port : Option UInt16
  path : List Char
  path_rooted : ∀ c ∈ path.head?, c = '/'

namespace UrlText

variable (u : UrlText)

def portText : List Char := u.port.elim [] fun port => ':' :: (toString port.toNat).toList

def authority : List Char := u.host.render ++ u.portText

def render : List Char := u.scheme ++ "://".toList ++ (u.authority ++ u.path)

def tls : Bool := toAsciiLowercase u.scheme ∈ ["wss".toList, "https".toList]

def url : Url where
  tls := u.tls
  host := u.host.text
  port := u.port.elim (if u.tls then 443 else 80) UInt16.toNat
  path := if u.path = [] then ['/'] else u.path

/-! ## The parts -/

theorem colon_not_mem_scheme : ':' ∉ u.scheme := by
  intro hmem
  have hlower : ':' ∈ toAsciiLowercase u.scheme := List.mem_map.mpr ⟨':', hmem, by decide⟩
  have hknown : ∀ s ∈ ["ws".toList, "wss".toList, "http".toList, "https".toList], ':' ∉ s := by
    decide
  exact hknown _ u.scheme_known hlower

theorem splitOnce_render :
    splitOnce "://".toList u.render = some (u.scheme, u.authority ++ u.path) :=
  splitOnce_append u.colon_not_mem_scheme

theorem slash_not_mem_authority : '/' ∉ u.authority := by
  intro hmem
  rcases List.mem_append.mp hmem with hmem | hmem
  · exact u.host.not_slash hmem
  · unfold portText at hmem
    cases hport : u.port with
    | none =>
        rw [hport] at hmem
        cases hmem
    | some port =>
        rw [hport] at hmem
        rcases List.mem_cons.mp hmem with heq | hmem
        · exact absurd heq (by decide)
        · exact not_mem_toString (by decide) hmem

theorem split_path : (if '/' ∈ u.authority ++ u.path then
      ((u.authority ++ u.path).takeWhile (· ≠ '/'), (u.authority ++ u.path).dropWhile (· ≠ '/'))
    else (u.authority ++ u.path, ['/'])) = (u.authority, u.url.path) := by
  have hauthority : ∀ c ∈ u.authority, decide (c ≠ '/') = true := by
    intro c hc
    rw [decide_eq_true_eq]
    rintro rfl
    exact u.slash_not_mem_authority hc
  cases hpath : u.path with
  | nil =>
      rw [List.append_nil, if_neg u.slash_not_mem_authority, url, hpath]
      rfl
  | cons c path =>
      have hc : c = '/' := u.path_rooted c (by rw [hpath]; rfl)
      subst hc
      have hmem : '/' ∈ u.authority ++ '/' :: path := by simp
      rw [if_pos hmem, List.takeWhile_append_of_pos hauthority,
        List.dropWhile_append_of_pos hauthority, url, hpath]
      simp

theorem tls_of_scheme :
    (if toAsciiLowercase u.scheme = "wss".toList ∨ toAsciiLowercase u.scheme = "https".toList then
        Except.ok true
      else if toAsciiLowercase u.scheme = "ws".toList ∨
          toAsciiLowercase u.scheme = "http".toList then .ok false
      else .error (.unsupportedScheme (toAsciiLowercase u.scheme)) : Except ConnectError Bool) =
      .ok u.tls := by
  have hknown := u.scheme_known
  unfold tls
  generalize toAsciiLowercase u.scheme = s at hknown
  revert s
  decide

/-! ## Host and port of the authority -/

theorem hostPort_port {port : UInt16} (hport : u.port = some port) (default : Nat) :
    hostPort u.authority default = .ok (u.host.render, port.toNat) := by
  have hcolon : ':' ∉ (toString port.toNat).toList := not_mem_toString (by decide)
  have hbound : port.toNat < 65536 := port.toNat_lt
  rw [hostPort, authority, portText, hport, Option.elim_some, rsplitOnce_append hcolon]
  simp only [if_pos u.host.bracket_last, parseUnsigned_toString hbound, Option.elim_some]

theorem hostPort_name (hhost : u.host.isIpv6 = false) (hport : u.port = none) (default : Nat) :
    hostPort u.authority default = .ok (u.host.render, default) := by
  rw [hostPort, authority, portText, hport, Option.elim_none, List.append_nil,
    rsplitOnce_eq_none (u.host.colon_not_mem hhost)]

/-- The last colon of the address is taken for the one before a port. -/
theorem hostPort_ipv6 (hhost : u.host.isIpv6 = true) (hport : u.port = none) (default : Nat) :
    ∃ p, hostPort u.authority default = .error (.badPort p) := by
  obtain ⟨h, p, hrender, hbracket, hlast, hcolon⟩ := u.host.exists_last_colon hhost
  refine ⟨p, ?_⟩
  rw [hostPort, authority, portText, hport, Option.elim_none, List.append_nil, hrender,
    rsplitOnce_append hcolon]
  simp only [hbracket, not_false_eq_true, true_or, if_true,
    parseUnsigned_eq_none hlast (by decide) (by decide), Option.elim_none]

/-! ## The whole URL -/

theorem parseUrl_render : parseUrl u.render =
    (hostPort u.authority (if u.tls then 443 else 80)).bind fun (host, port) =>
      if host = [] then .error (.noHost u.render)
      else .ok
        { tls := u.tls, host := trimMatches (fun c => c = '[' || c = ']') host, port,
          path := u.url.path } := by
  have htls := u.tls_of_scheme
  rw [parseUrl, u.splitOnce_render]
  simp only [Option.elim_some, bind, Except.bind, u.split_path]
  by_cases hsecure : toAsciiLowercase u.scheme = "wss".toList ∨
      toAsciiLowercase u.scheme = "https".toList
  · rw [if_pos hsecure] at htls
    rw [if_pos hsecure, ← Except.ok.inj htls]
    exact bind_hostPort ..
  · rw [if_neg hsecure] at htls
    rw [if_neg hsecure]
    split at htls
    · next hplain =>
      rw [if_pos hplain, ← Except.ok.inj htls]
      exact bind_hostPort ..
    · cases htls

end UrlText

/-- `parse_url` reads the URL, unless its host is a bracketed address without a port. -/
theorem parseUrl_render_iff (u : UrlText) :
    parseUrl u.render = .ok u.url ↔ ¬(u.host.isIpv6 = true ∧ u.port = none) := by
  rw [u.parseUrl_render]
  by_cases hbad : u.host.isIpv6 = true ∧ u.port = none
  · obtain ⟨p, hp⟩ := u.hostPort_ipv6 hbad.1 hbad.2 (if u.tls then 443 else 80)
    rw [hp]
    refine iff_of_false ?_ (not_not_intro hbad)
    intro h
    cases h
  · have hhost : hostPort u.authority (if u.tls then 443 else 80) =
        .ok (u.host.render, u.url.port) := by
      cases hport : u.port with
      | some port =>
          rw [u.hostPort_port hport, UrlText.url, hport]
          rfl
      | none =>
          have hname : u.host.isIpv6 = false := by
            rw [← Bool.not_eq_true]
            exact fun h => hbad ⟨h, hport⟩
          rw [u.hostPort_name hname hport, UrlText.url, hport]
          rfl
    rw [hhost]
    refine iff_of_true ?_ hbad
    show (if u.host.render = [] then _ else _) = _
    rw [if_neg u.host.render_ne_nil, u.host.trimMatches_render]
    rfl

def loopback : UrlText where
  scheme := "ws".toList
  scheme_known := by decide
  host := .ipv6 [':', ':', '1'] (by simp) (by simp)
  port := none
  path := ['/']
  path_rooted := by simp

theorem parseUrl_loopback : loopback.render = "ws://[::1]/".toList ∧
    parseUrl loopback.render ≠ .ok loopback.url := by decide

/-! ## The parts in the text -/

variable {url : Url}

theorem fst_hostPort_subset {authority host : List Char} {default port : Nat}
    (h : hostPort authority default = .ok (host, port)) : host ⊆ authority := by
  unfold hostPort at h
  split at h
  next before after hsplit =>
    split at h
    · rcases hport : parseUnsigned 65536 after with _ | p
      · rw [hport] at h
        cases h
      · rw [hport] at h
        cases h
        exact fst_rsplitOnce_subset hsplit
    · cases h
      exact List.Subset.refl _
  next =>
    cases h
    exact List.Subset.refl _

theorem bind_hostPort_eq_ok {authority path text : List Char} {default : Nat} {tls : Bool}
    (h : ((hostPort authority default).bind fun (host, port) =>
      if host = [] then .error (.noHost text)
      else .ok { tls, host := trimMatches (fun c => c = '[' || c = ']') host, port, path }) =
        .ok url) :
    url.host ⊆ authority ∧ url.path = path := by
  rcases hhost : hostPort authority default with e | ⟨host, port⟩
  · rw [hhost] at h
    cases h
  · rw [hhost] at h
    simp only [Except.bind] at h
    split at h
    · cases h
    · cases h
      exact ⟨List.Subset.trans (trimMatches_subset _ host) (fst_hostPort_subset hhost), rfl⟩

theorem parseUrl_subset {s : List Char} (h : parseUrl s = .ok url) :
    url.host ⊆ s ∧ url.path ⊆ '/' :: s := by
  rcases hsplit : splitOnce "://".toList s with _ | ⟨scheme, rest⟩
  · rw [parseUrl, hsplit] at h
    cases h
  have hrest : rest ⊆ s := by
    rw [splitOnce_eq_append hsplit]
    exact List.subset_append_right _ _
  have hparts : url.host ⊆ (if '/' ∈ rest then
        (rest.takeWhile (· ≠ '/'), rest.dropWhile (· ≠ '/')) else (rest, ['/'])).1 ∧
      url.path = (if '/' ∈ rest then
        (rest.takeWhile (· ≠ '/'), rest.dropWhile (· ≠ '/')) else (rest, ['/'])).2 := by
    rw [parseUrl, hsplit] at h
    simp only [Option.elim_some, bind, Except.bind] at h
    by_cases hsecure : toAsciiLowercase scheme = "wss".toList ∨
        toAsciiLowercase scheme = "https".toList
    · rw [if_pos hsecure] at h
      exact bind_hostPort_eq_ok ((bind_hostPort ..).symm.trans h)
    · rw [if_neg hsecure] at h
      split at h
      · exact bind_hostPort_eq_ok ((bind_hostPort ..).symm.trans h)
      · cases h
  obtain ⟨hhost, hpath⟩ := hparts
  split at hhost <;> rename_i hslash
  · rw [if_pos hslash] at hpath
    have hauthority : rest.takeWhile (· ≠ '/') ⊆ rest := (List.takeWhile_sublist _).subset
    have hafter : rest.dropWhile (· ≠ '/') ⊆ rest := (List.dropWhile_sublist _).subset
    refine ⟨List.Subset.trans hhost (List.Subset.trans hauthority hrest), ?_⟩
    rw [hpath]
    exact List.subset_cons_of_subset '/' (List.Subset.trans hafter hrest)
  · rw [if_neg hslash] at hpath
    rw [hpath]
    exact ⟨List.Subset.trans hhost hrest, List.cons_subset_cons _ (List.nil_subset s)⟩

end FeedBench.Ws
