import FeedBench.Lib.Latest
import FeedBench.Spec
import FeedBench.Text.Pieces
import Mathlib.Data.List.Perm.Basic

/-!
# Source specs round trip

A spec is written as its options in any order and a subscription at the end.  Reading one option
back takes its key up to the first `=` and its value up to the next comma, so neither sign is
mistaken further on.
-/

namespace FeedBench.Spec

open Text Lib

/-! ## Specs -/

structure IsName (name : List Char) : Prop where
  ne_nil : name ≠ []
  trimmed : trim name = name
  no_equals : '=' ∉ name
  no_comma : ',' ∉ name
  no_scheme : contains "://".toList name = false
  not_key : name ∉ ["name", "url", "path", "header", "subscribe"].map String.toList

structure IsUrl (url : List Char) : Prop where
  scheme : contains "://".toList url = true
  no_comma : ',' ∉ url

structure IsPath (path : List Char) : Prop where
  ne_nil : path ≠ []
  no_comma : ',' ∉ path

structure IsHeader (header : List Char × List Char) : Prop where
  key_trimmed : trim header.1 = header.1
  key_no_colon : ':' ∉ header.1
  key_no_comma : ',' ∉ header.1
  value_trimmed : trim header.2 = header.2
  value_no_comma : ',' ∉ header.2

inductive Item where
  /-- `name=url`. -/
  | shorthand (name url : List Char)
  | name (text : List Char)
  | url (text : List Char)
  | path (text : List Char)
  | header (pair : List Char × List Char)
  deriving DecidableEq

namespace Item

def key : Item → List Char
  | .shorthand n _ => n
  | .name _ => "name".toList
  | .url _ => "url".toList
  | .path _ => "path".toList
  | .header _ => "header".toList

def value : Item → List Char
  | .shorthand _ u => u
  | .name text | .url text | .path text => text
  | .header pair => pair.1 ++ [':'] ++ pair.2

def text (item : Item) : List Char := item.key ++ ['='] ++ item.value

def Valid : Item → Prop
  | .shorthand n u => IsName n ∧ IsUrl u
  | .name text => IsName text
  | .url text => IsUrl text
  | .path text => IsPath text
  | .header pair => IsHeader pair

end Item

def render (items : List Item) (subscribe : Option (List Char)) : List Char :=
  List.intercalate [','] (items.map Item.text ++ subscribe.toList.map ("subscribe=".toList ++ ·))

/-! ## Reading options -/

theorem valueOf_last {value : List Char} (h : ',' ∉ value) : valueOf value = (value, []) := by
  unfold valueOf
  rw [splitOnce_eq_none h]
  rfl

theorem valueOf_more {value : List Char} (next : List Char) (h : ',' ∉ value) :
    valueOf (value ++ [','] ++ next) = (value, next) := by
  unfold valueOf
  rw [splitOnce_append h]
  rfl

section Loop

variable {Source : Type} {set : Source → List Char → List Char → Except Error Source}
  {subscribe : Source → List Char → Source} {src : Source}

theorem loop_nil : loop set subscribe src [] = .ok src := by
  rw [loop]
  rfl

theorem loop_option {key after : List Char} (hkey : '=' ∉ key)
    (hsubscribe : trim key ≠ "subscribe".toList) :
    loop set subscribe src (key ++ ['='] ++ after) =
      (set src (trim key) (valueOf after).1).bind fun src =>
        loop set subscribe src (valueOf after).2 := by
  have hne : (key ++ ['='] ++ after).isEmpty = false := by simp
  rw [loop, hne, if_neg Bool.false_ne_true]
  split
  next hnone =>
    rw [splitOnce_append hkey] at hnone
    cases hnone
  next key' after' hsplit =>
    rw [splitOnce_append hkey] at hsplit
    cases hsplit
    rw [if_neg hsubscribe]
    cases set src (trim key) (valueOf after).1 with
    | error e => rfl
    | ok src' => rfl

theorem loop_subscribe (text : List Char) :
    loop set subscribe src ("subscribe=".toList ++ text) = .ok (subscribe src text) := by
  have hkey : '=' ∉ "subscribe".toList := by decide
  have htext : "subscribe=".toList ++ text = "subscribe".toList ++ ['='] ++ text := rfl
  rw [loop, htext, if_neg (by simp)]
  split
  next hnone =>
    rw [splitOnce_append hkey] at hnone
    cases hnone
  next key' after' hsplit =>
    rw [splitOnce_append hkey] at hsplit
    cases hsplit
    exact if_pos (by decide)

end Loop

theorem render_cons (item : Item) (items : List Item) (subscribe : Option (List Char))
    (hvalue : ',' ∉ item.value) :
    ∃ after, render (item :: items) subscribe = item.key ++ ['='] ++ after ∧
      valueOf after = (item.value, render items subscribe) := by
  unfold render
  rw [List.map_cons, List.cons_append]
  generalize items.map Item.text ++ subscribe.toList.map ("subscribe=".toList ++ ·) = texts
  cases texts with
  | nil => exact ⟨item.value, List.intercalate_singleton, valueOf_last hvalue⟩
  | cons text texts =>
      refine ⟨item.value ++ [','] ++ List.intercalate [','] (text :: texts), ?_,
        valueOf_more _ hvalue⟩
      rw [List.intercalate_cons_cons]
      simp only [Item.text, List.append_assoc]

/-! ## What the options say -/

structure Fields where
  name : List Char
  url : List Char
  path : List Char
  headers : List (List Char × List Char)
  subscribe : Option (List Char)

def Item.apply (f : Fields) : Item → Fields
  | .shorthand n u => { f with name := n, url := u }
  | .name n => { f with name := n }
  | .url u => { f with url := u }
  | .path p => { f with path := p }
  | .header pair => { f with headers := f.headers ++ [pair] }

def Item.names : Item → Option (List Char)
  | .shorthand n _ | .name n => some n
  | _ => none

def Item.urls : Item → Option (List Char)
  | .shorthand _ u | .url u => some u
  | _ => none

def Item.paths : Item → Option (List Char)
  | .path p => some p
  | _ => none

def Item.headers : Item → Option (List Char × List Char)
  | .header pair => some pair
  | _ => none

theorem foldl_apply (items : List Item) (f : Fields) : items.foldl Item.apply f =
    { name := latest Item.names f.name items
      url := latest Item.urls f.url items
      path := latest Item.paths f.path items
      headers := f.headers ++ items.filterMap Item.headers
      subscribe := f.subscribe } := by
  induction items generalizing f with
  | nil =>
      rw [List.filterMap_nil, List.append_nil]
      rfl
  | cons item items ih =>
      rw [List.foldl_cons, ih]
      cases item with
      | header pair =>
          have hpair : (Item.header pair).headers = some pair := rfl
          rw [List.filterMap_cons_some hpair, List.append_cons]
          rfl
      | shorthand | name | url | path =>
          rw [List.filterMap_cons_none rfl]
          rfl

/-! ## The loop over a spec -/

theorem IsName.ne_key {name : List Char} (h : IsName name) {key : String}
    (hkey : key ∈ ["name", "url", "path", "header", "subscribe"]) : name ≠ key.toList := by
  rintro rfl
  exact h.not_key (List.mem_map_of_mem hkey)

theorem Item.Valid.key {item : Item} (h : item.Valid) :
    '=' ∉ item.key ∧ trim item.key = item.key ∧ item.key ≠ "subscribe".toList := by
  cases item with
  | shorthand n u => exact ⟨h.1.no_equals, h.1.trimmed, h.1.ne_key (by decide)⟩
  | name | url | path | header =>
      dsimp only [Item.key]
      decide

theorem Item.Valid.value {item : Item} (h : item.Valid) : ',' ∉ item.value := by
  cases item with
  | shorthand n u => exact h.2.no_comma
  | name | url | path => exact h.no_comma
  | header pair =>
      intro hmem
      have hsplit : ',' ∈ pair.1 ++ [':'] ++ pair.2 := hmem
      simp only [List.mem_append, List.mem_singleton] at hsplit
      rcases hsplit with (hk | hcolon) | hv
      · exact h.key_no_comma hk
      · exact absurd hcolon (by decide)
      · exact h.value_no_comma hv

theorem headerOf_value {pair : List Char × List Char} (h : IsHeader pair) :
    headerOf (pair.1 ++ [':'] ++ pair.2) = .ok pair := by
  unfold headerOf
  rw [splitOnce_append h.key_no_colon]
  dsimp only
  rw [h.key_trimmed, h.value_trimmed]

/-- A parser reads the options that it takes as they are meant.  A shorthand is only read where no
name has been. -/
structure Reads {Source : Type} (set : Source → List Char → List Char → Except Error Source)
    (subscribe : Source → List Char → Source) (embed : Fields → Source) (Takes : Item → Prop) :
    Prop where
  set_item : ∀ f item, Takes item → item.Valid →
    (∀ n u, item = .shorthand n u → f.name = []) →
    set (embed f) item.key item.value = .ok (embed (item.apply f))
  subscribe_text : ∀ f text,
    subscribe (embed f) text = embed { f with subscribe := some text }

def Fields.finish (f : Fields) : Option (List Char) → Fields
  | none => f
  | some text => { f with subscribe := some text }

section Loop

variable {Source : Type} {set : Source → List Char → List Char → Except Error Source}
  {subscribe : Source → List Char → Source} {embed : Fields → Source} {Takes : Item → Prop}

theorem loop_render (h : Reads set subscribe embed Takes) (text : Option (List Char))
    {items : List Item} (hitems : ∀ item ∈ items, Takes item ∧ item.Valid) {f : Fields}
    (hname : f.name = [] ∧ (items.filterMap Item.names).length ≤ 1 ∨
      items.filterMap Item.names = []) :
    loop set subscribe (embed f) (render items text) =
      .ok (embed ((items.foldl Item.apply f).finish text)) := by
  induction items generalizing f with
  | nil =>
      cases text with
      | none => exact loop_nil
      | some text =>
          have hrender : render [] (some text) = "subscribe=".toList ++ text :=
            List.intercalate_singleton
          rw [hrender, loop_subscribe, h.subscribe_text]
          rfl
  | cons item items ih =>
      obtain ⟨⟨htakes, hvalid⟩, hrest⟩ := List.forall_mem_cons.mp hitems
      obtain ⟨hequals, htrim, hsubscribe⟩ := hvalid.key
      obtain ⟨after, hrender, hafter⟩ := render_cons item items text hvalid.value
      have hshort : ∀ n u, item = .shorthand n u → f.name = [] := by
        rintro n u rfl
        rcases hname with hname | hname
        · exact hname.1
        · cases hname
      have hname' : (item.apply f).name = [] ∧ (items.filterMap Item.names).length ≤ 1 ∨
          items.filterMap Item.names = [] := by
        cases hn : item.names with
        | none =>
            rw [List.filterMap_cons_none hn] at hname
            have hkeep : (item.apply f).name = f.name := by
              cases item with
              | shorthand | name => cases hn
              | url | path | header => rfl
            rwa [hkeep]
        | some n =>
            right
            rw [List.filterMap_cons_some hn] at hname
            rcases hname with ⟨-, hone⟩ | hnone
            · exact List.eq_nil_of_length_eq_zero (Nat.le_zero.mp (Nat.le_of_succ_le_succ hone))
            · cases hnone
      rw [hrender, loop_option hequals (by rwa [htrim]), htrim, hafter,
        h.set_item f item htakes hvalid hshort]
      exact ih hrest hname'

end Loop

/-! ## The two parsers -/

def Fields.json (f : Fields) : WsJson.WsJsonSource :=
  ⟨f.name, f.url, f.path, f.headers, f.subscribe⟩

def Fields.raw (f : Fields) : WsRaw.WsRawSource := ⟨f.name, f.url, f.headers, f.subscribe⟩

theorem json_reads : Reads WsJson.WsJsonSource.set
    (fun src text => { src with subscribe := some text }) Fields.json fun _ => True where
  set_item := by
    intro f item _ hvalid hshort
    cases item with
    | name | url | path => rfl
    | header pair =>
        have hset : WsJson.WsJsonSource.set f.json "header".toList (pair.1 ++ [':'] ++ pair.2) =
            (headerOf (pair.1 ++ [':'] ++ pair.2)).bind fun header =>
              .ok { f.json with headers := f.json.headers ++ [header] } := rfl
        exact hset.trans (by rw [headerOf_value hvalid]; rfl)
    | shorthand n u =>
        obtain ⟨hn, hu⟩ := hvalid
        have hempty : n.isEmpty = false := List.isEmpty_eq_false_iff.mpr hn.ne_nil
        have hfirst : f.json.name.isEmpty = true := List.isEmpty_iff.mpr (hshort n u rfl)
        dsimp only [Item.key, Item.value]
        unfold WsJson.WsJsonSource.set
        rw [if_neg (hn.ne_key (by decide)), if_neg (hn.ne_key (by decide)),
          if_neg (hn.ne_key (by decide)), if_neg (hn.ne_key (by decide)), hn.no_scheme, hempty,
          hu.scheme, hfirst]
        rfl
  subscribe_text _ _ := rfl

theorem raw_reads : Reads WsRaw.WsRawSource.set
    (fun src text => { src with subscribe := some text }) Fields.raw
    fun item => item.paths = none where
  set_item := by
    intro f item htakes hvalid hshort
    cases item with
    | name | url => rfl
    | path => cases htakes
    | header pair =>
        have hset : WsRaw.WsRawSource.set f.raw "header".toList (pair.1 ++ [':'] ++ pair.2) =
            (headerOf (pair.1 ++ [':'] ++ pair.2)).bind fun header =>
              .ok { f.raw with headers := f.raw.headers ++ [header] } := rfl
        exact hset.trans (by rw [headerOf_value hvalid]; rfl)
    | shorthand n u =>
        obtain ⟨hn, hu⟩ := hvalid
        have hfirst : f.raw.name.isEmpty = true := List.isEmpty_iff.mpr (hshort n u rfl)
        dsimp only [Item.key, Item.value]
        unfold WsRaw.WsRawSource.set
        rw [if_neg (hn.ne_key (by decide)), if_neg (hn.ne_key (by decide)),
          if_neg (hn.ne_key (by decide)), hu.scheme, hfirst]
        rfl
  subscribe_text _ _ := rfl

/-! ## The options in any order -/

/-- What a spec is made from. -/
structure Content where
  name : List Char
  url : List Char
  headers : List (List Char × List Char)
  subscribe : Option (List Char)
  isName : IsName name
  isUrl : IsUrl url
  isHeaders : ∀ header ∈ headers, IsHeader header

structure Path where
  text : List Char
  isPath : IsPath text

def Content.named (c : Content) (short : Bool) : List Item :=
  bif short then [.shorthand c.name c.url] else [.name c.name, .url c.url]

def Content.options (c : Content) (short : Bool) (path : Option Path) : List Item :=
  c.named short ++ path.toList.map (fun p => .path p.text) ++ c.headers.map .header

/-- The options in some order, the headers in theirs. -/
structure Arrangement (c : Content) (short : Bool) (path : Option Path) where
  items : List Item
  perm : items.Perm (c.options short path)
  ordered : items.filterMap Item.headers = c.headers

namespace Arrangement

variable {c : Content} {short : Bool} {path : Option Path} (a : Arrangement c short path)

def text : List Char := render a.items c.subscribe

theorem valid : ∀ item ∈ a.items, item.Valid := by
  intro item hmem
  have hoption := a.perm.mem_iff.mp hmem
  simp only [Content.options, List.mem_append, List.mem_map, Option.mem_toList] at hoption
  rcases hoption with (hnamed | ⟨p, -, rfl⟩) | ⟨pair, hpair, rfl⟩
  · cases short with
    | true =>
        cases List.mem_singleton.mp hnamed
        exact ⟨c.isName, c.isUrl⟩
    | false =>
        rcases List.mem_cons.mp hnamed with rfl | hurl
        · exact c.isName
        · cases List.mem_singleton.mp hurl
          exact c.isUrl
  · exact p.isPath
  · exact c.isHeaders pair hpair

theorem given {get : Item → Option (List Char)} (hheader : ∀ pair, get (.header pair) = none)
    {texts : List (List Char)} (htexts : texts.length ≤ 1)
    (hgiven : (c.named short ++ path.toList.map fun p => Item.path p.text).filterMap get = texts) :
    a.items.filterMap get = texts := by
  have hnone : (c.headers.map Item.header).filterMap get = [] := by
    apply List.filterMap_eq_nil_iff.mpr
    intro item hmem
    obtain ⟨pair, -, rfl⟩ := List.mem_map.mp hmem
    exact hheader pair
  have hperm := a.perm.filterMap get
  rw [Content.options, List.filterMap_append, hgiven, hnone, List.append_nil] at hperm
  cases texts with
  | nil => exact List.perm_nil.mp hperm
  | cons text texts =>
      cases texts with
      | nil => exact List.perm_singleton.mp hperm
      | cons => exact absurd htexts (by simp)

theorem names : a.items.filterMap Item.names = [c.name] := by
  apply a.given
  · exact fun _ => rfl
  · exact Nat.le_refl 1
  cases short <;> cases path <;> rfl

theorem urls : a.items.filterMap Item.urls = [c.url] := by
  apply a.given
  · exact fun _ => rfl
  · exact Nat.le_refl 1
  cases short <;> cases path <;> rfl

theorem paths : a.items.filterMap Item.paths = path.toList.map Path.text := by
  apply a.given
  · exact fun _ => rfl
  · cases path <;> simp
  · cases short <;> cases path <;> rfl

/-- What the options of an arrangement say. -/
theorem fields (path : Option Path) (a : Arrangement c short path) :
    a.items.foldl Item.apply ⟨[], [], [], [], none⟩ =
      ⟨c.name, c.url, (path.map Path.text).getD [], c.headers, none⟩ := by
  rw [foldl_apply, a.ordered, latest_eq_getLast, latest_eq_getLast, latest_eq_getLast, a.names,
    a.urls, a.paths]
  cases path with
  | none => rfl
  | some p => rfl

theorem loop_text {Source : Type} {set : Source → List Char → List Char → Except Error Source}
    {subscribe : Source → List Char → Source} {embed : Fields → Source} {Takes : Item → Prop}
    (h : Reads set subscribe embed Takes) (htakes : ∀ item ∈ a.items, Takes item) :
    loop set subscribe (embed ⟨[], [], [], [], none⟩) a.text =
      .ok (embed ⟨c.name, c.url, (path.map Path.text).getD [], c.headers, c.subscribe⟩) := by
  have hname : a.items.filterMap Item.names = [c.name] := a.names
  have hloop := loop_render h c.subscribe (fun item hmem => ⟨htakes item hmem, a.valid item hmem⟩)
    (f := ⟨[], [], [], [], none⟩) (.inl ⟨rfl, by rw [hname]; exact Nat.le_refl 1⟩)
  rw [fields path a] at hloop
  rw [text, hloop]
  cases c.subscribe with
  | none => rfl
  | some text => rfl

end Arrangement

theorem IsUrl.ne_nil {url : List Char} (h : IsUrl url) : url ≠ [] := by
  rintro rfl
  exact absurd h.scheme (by decide)

/-- **Specs.** In whatever order its options stand, a spec is parsed into exactly its fields, the
headers in their order and the subscription whole. -/
theorem specs_roundTrip (c : Content) (short : Bool) (path : Path)
    (json : Arrangement c short (some path)) (raw : Arrangement c short none) :
    WsJson.WsJsonSource.parse json.text =
        .ok ⟨c.name, c.url, path.text, c.headers, c.subscribe⟩ ∧
      WsRaw.WsRawSource.parse raw.text = .ok ⟨c.name, c.url, c.headers, c.subscribe⟩ := by
  have hname : c.name.isEmpty = false := List.isEmpty_eq_false_iff.mpr c.isName.ne_nil
  have hurl : c.url.isEmpty = false := List.isEmpty_eq_false_iff.mpr c.isUrl.ne_nil
  have hpath : path.text.isEmpty = false := List.isEmpty_eq_false_iff.mpr path.isPath.ne_nil
  constructor
  · have hloop := json.loop_text json_reads fun _ _ => trivial
    have hparse : WsJson.WsJsonSource.parse json.text =
        (loop WsJson.WsJsonSource.set (fun src text => { src with subscribe := some text })
          (Fields.json ⟨[], [], [], [], none⟩) json.text).bind fun src =>
            if src.name.isEmpty || src.url.isEmpty then .error (.needsUrl "wsjson")
            else if src.path.isEmpty then .error .needsPath
            else .ok src := rfl
    rw [hparse, hloop]
    dsimp only [Except.bind, Fields.json, Option.map_some, Option.getD_some]
    rw [hname, hurl, hpath]
    rfl
  · have htakes : ∀ item ∈ raw.items, item.paths = none := by
      intro item hmem
      exact List.filterMap_eq_nil_iff.mp raw.paths item hmem
    have hloop := raw.loop_text raw_reads htakes
    have hparse : WsRaw.WsRawSource.parse raw.text =
        (loop WsRaw.WsRawSource.set (fun src text => { src with subscribe := some text })
          (Fields.raw ⟨[], [], [], [], none⟩) raw.text).bind fun src =>
            if src.name.isEmpty || src.url.isEmpty then .error (.needsUrl "wsraw")
            else .ok src := rfl
    rw [hparse, hloop]
    dsimp only [Except.bind, Fields.raw]
    rw [hname, hurl]
    rfl

/-! ### One spec -/

def sample : Content where
  name := "other".toList
  url := "wss://h/v1?a=b:c".toList
  headers := [("Authorization".toList, "Bearer x:y=z".toList)]
  subscribe := some "[\"sub\",\"name=x\"]".toList
  isName := ⟨by decide, by decide, by decide, by decide, by decide, by decide⟩
  isUrl := ⟨by decide, by decide⟩
  isHeaders := by
    intro header hmem
    cases List.mem_singleton.mp hmem
    exact ⟨by decide, by decide, by decide, by decide, by decide⟩

def samplePath : Path := ⟨"params.result[].hash".toList, by decide, by decide⟩

def sampleJson : Arrangement sample true (some samplePath) where
  items := [.header ("Authorization".toList, "Bearer x:y=z".toList), .path samplePath.text,
    .shorthand sample.name sample.url]
  perm := by decide
  ordered := rfl

def sampleRaw : Arrangement sample true none where
  items := [.shorthand sample.name sample.url,
    .header ("Authorization".toList, "Bearer x:y=z".toList)]
  perm := by decide
  ordered := rfl

theorem specs_roundTrip_sample :
    WsJson.WsJsonSource.parse ("header=Authorization:Bearer x:y=z,path=params.result[].hash," ++
        "other=wss://h/v1?a=b:c,subscribe=[\"sub\",\"name=x\"]").toList =
      .ok ⟨sample.name, sample.url, samplePath.text, sample.headers, sample.subscribe⟩ ∧
    WsRaw.WsRawSource.parse ("other=wss://h/v1?a=b:c,header=Authorization:Bearer x:y=z," ++
        "subscribe=[\"sub\",\"name=x\"]").toList =
      .ok ⟨sample.name, sample.url, sample.headers, sample.subscribe⟩ :=
  specs_roundTrip sample true samplePath sampleJson sampleRaw

end FeedBench.Spec
