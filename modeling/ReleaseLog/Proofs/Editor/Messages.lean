import ReleaseLog.Editor.Session
import ReleaseLog.Proofs.Failure
import Mathlib.Data.List.Forall2

/-!
# What messages say

A message is read exactly if its parameters are records with the right values. The rules for this
are given here on their own, for every way to read an address.
-/

namespace ReleaseLog.Editor

/-! ## Values -/

/-- A record has a value for each name. It is an object, or the list of all its values. -/
inductive Record (names : List String) : Json → List (Option Json) → Prop
  | object (fields : List (Text × Json)) :
    Record names (.obj fields) (names.map (Json.obj fields).field?)
  | list (items : List Json) (length : items.length = names.length) :
    Record names (.arr items) (items.map some)

/-- A value that is missing, null or as it has to be. -/
def Optional (p : Json → Prop) (value : Option Json) : Prop :=
  ∀ v, value = some v → v ≠ .null → p v

inductive IsText : Json → Prop
  | text (s : Text) : IsText (.str s)

inductive IsObject : Json → Prop
  | object (fields : List (Text × Json)) : IsObject (.obj fields)

def IsSigned (n : Int) : Prop :=
  -0x80000000 ≤ n ∧ n < 0x80000000

inductive IsUnsigned : Json → Prop
  | int (n : Int) (low : 0 ≤ n) (high : n < 0x100000000) : IsUnsigned (.int n)

inductive IsToken : Json → Prop
  | text (s : Text) : IsToken (.str s)
  | int (n : Int) (signed : IsSigned n) : IsToken (.int n)

inductive IsPosition : Json → Prop
  | record {value line character : Json}
    (fields : Record ["line", "character"] value [some line, some character])
    (isLine : IsUnsigned line) (isCharacter : IsUnsigned character) : IsPosition value

inductive IsRange : Json → Prop
  | record {value start stop : Json}
    (fields : Record ["start", "end"] value [some start, some stop])
    (isStart : IsPosition start) (isStop : IsPosition stop) : IsRange value

/-- The text after a change. Its range and the length of that mean nothing. -/
inductive Becomes : Json → Text → Prop
  | change {value : Json} {range length : Option Json} {text : Text}
    (fields : Record ["range", "rangeLength", "text"] value [range, length, some (.str text)])
    (isRange : Optional IsRange range) (isLength : Optional IsUnsigned length) :
    Becomes value text

/-! ## Messages -/

/-- The record has the address of a document. -/
inductive Names (read? : Text → Option Uri) : Json → Uri → Prop
  | record {value : Json} {address : Text} {uri : Uri}
    (fields : Record ["uri"] value [some (.str address)]) (reads : read? address = some uri) :
    Names read? value uri

/-- The notifications that are read. -/
inductive Topic
  | ready
  | opened
  | changed
  | closed

def Topic.method : Topic → String
  | .ready => "initialized"
  | .opened => "textDocument/didOpen"
  | .changed => "textDocument/didChange"
  | .closed => "textDocument/didClose"

/-- What the parameters of a notification say. -/
inductive Tells (read? : Text → Option Uri) : Topic → Json → Event → Prop
  | ready {params : Json} (fields : Record [] params []) : Tells read? .ready params .ready
  | opened {params item : Json} {address language text : Text} {version : Int} {uri : Uri}
    (outer : Record ["textDocument"] params [some item])
    (fields : Record ["uri", "languageId", "version", "text"] item
      [some (.str address), some (.str language), some (.int version), some (.str text)])
    (reads : read? address = some uri) (signed : IsSigned version) :
    Tells read? .opened params (.opened uri text version)
  | changed {params item : Json} {changes : List Json} {address : Text} {version : Int} {uri : Uri}
    {texts : List Text}
    (outer : Record ["textDocument", "contentChanges"] params [some item, some (.arr changes)])
    (fields : Record ["uri", "version"] item [some (.str address), some (.int version)])
    (reads : read? address = some uri) (signed : IsSigned version)
    (becomes : List.Forall₂ Becomes changes texts) :
    Tells read? .changed params (.changed uri version texts)
  | closed {params item : Json} {uri : Uri} (outer : Record ["textDocument"] params [some item])
    (names : Names read? item uri) : Tells read? .closed params (.closed uri)

/-- A message says something if it is a notification with the right parameters. -/
def Says (read? : Text → Option Uri) (m : Message) (e : Event) : Prop :=
  m.id = none ∧ ∃ topic params, m.method = (Topic.method topic).toList ∧
    m.params = some params ∧ Tells read? topic params e

/-- The parameters ask for the outline of a document. -/
structure Asks (read? : Text → Option Uri) (params : Json) (uri : Uri) : Prop where
  isObject : IsObject params
  work : Optional IsToken (params.field? "workDoneToken")
  partialResult : Optional IsToken (params.field? "partialResultToken")
  document : ∃ item, params.field? "textDocument" = some item ∧ Names read? item uri

inductive IsFolder (read? : Text → Option Uri) : Json → Prop
  | record {value : Json} {address name : Text} {uri : Uri}
    (fields : Record ["uri", "name"] value [some (.str address), some (.str name)])
    (reads : read? address = some uri) : IsFolder read? value

inductive IsClient : Json → Prop
  | record {value : Json} {name : Text} {version : Option Json}
    (fields : Record ["name", "version"] value [some (.str name), version])
    (isVersion : Optional IsText version) : IsClient value

/-- The parameters of the first message tell the capabilities of the client. -/
structure Starts (read? : Text → Option Uri) (params : Json) : Prop where
  isObject : IsObject params
  capabilities : ∃ value, params.field? "capabilities" = some value ∧ IsObject value
  process : Optional IsUnsigned (params.field? "processId")
  rootPath : Optional IsText (params.field? "rootPath")
  root : Optional (fun v => ∃ address, v = .str address ∧ (read? address).isSome)
    (params.field? "rootUri")
  trace : Optional (fun v => ∃ level ∈ ["off", "messages", "verbose"], v = .str level.toList)
    (params.field? "trace")
  folders : Optional (fun v => ∃ items, v = .arr items ∧ ∀ item ∈ items, IsFolder read? item)
    (params.field? "workspaceFolders")
  client : Optional IsClient (params.field? "clientInfo")
  locale : Optional IsText (params.field? "locale")

/-- A request to start, with the right parameters. -/
def Opens (read? : Text → Option Uri) (m : Message) : Prop :=
  m.method = "initialize".toList ∧ m.id.isSome ∧
    ∃ params, m.params = some params ∧ Starts read? params

namespace Params

theorem record?_eq_some_iff {names : List String} {value : Json} {values : List (Option Json)} :
    record? names value = some values ↔ Record names value values := by
  constructor
  · intro h
    cases value with
    | obj fields =>
        obtain rfl := Option.some.inj h
        exact .object fields
    | arr items =>
        simp only [record?, Option.ite_none_right_eq_some] at h
        obtain ⟨hlength, hvalues⟩ := h
        obtain rfl := Option.some.inj hvalues
        exact .list items hlength
    | _ => cases h
  · rintro (fields | ⟨items, hlength⟩)
    · rfl
    · simp [record?, hlength]

theorem mayBe_iff {kind : Json → Bool} {p : Json → Prop} (h : ∀ v, kind v = true ↔ p v)
    {value : Option Json} : mayBe kind value = true ↔ Optional p value := by
  rcases value with _ | v
  · simp [mayBe, Optional]
  · cases v <;> simp [mayBe, Optional, h]

theorem text?_eq_some_iff {value : Json} {s : Text} : text? value = some s ↔ value = .str s := by
  cases value <;> simp [text?]

theorem isObject_iff {value : Json} : isObject value = true ↔ IsObject value := by
  constructor
  · intro h
    cases value with
    | obj fields => exact .object fields
    | _ => cases h
  · rintro ⟨fields⟩
    rfl

theorem isSome_text?_iff {value : Json} : (text? value).isSome = true ↔ IsText value := by
  constructor
  · intro h
    cases value with
    | str s => exact .text s
    | _ => cases h
  · rintro ⟨s⟩
    rfl

theorem signed?_eq_some_iff {value : Json} {n : Int} :
    signed? value = some n ↔ value = .int n ∧ IsSigned n := by
  cases value with
  | int m =>
      simp only [signed?, Option.ite_none_right_eq_some, Option.some.injEq, Json.int.injEq]
      constructor
      · rintro ⟨hm, rfl⟩
        exact ⟨rfl, hm⟩
      · rintro ⟨rfl, hm⟩
        exact ⟨hm, rfl⟩
  | _ => simp [signed?]

theorem isSome_unsigned?_iff {value : Json} :
    (unsigned? value).isSome = true ↔ IsUnsigned value := by
  constructor
  · intro h
    cases value with
    | int n =>
        by_cases hn : 0 ≤ n ∧ n < 0x100000000
        · exact .int n hn.1 hn.2
        · simp [unsigned?, hn] at h
    | _ => cases h
  · rintro ⟨n, hlow, hhigh⟩
    rw [unsigned?, if_pos ⟨hlow, hhigh⟩]
    rfl

theorem mayBe_text_iff {value : Option Json} :
    mayBe (text? · |>.isSome) value = true ↔ Optional IsText value :=
  mayBe_iff fun _ => isSome_text?_iff

theorem mayBe_unsigned_iff {value : Option Json} :
    mayBe (unsigned? · |>.isSome) value = true ↔ Optional IsUnsigned value :=
  mayBe_iff fun _ => isSome_unsigned?_iff

theorem isToken_iff {value : Json} : isToken value = true ↔ IsToken value := by
  rw [isToken, Bool.or_eq_true, Option.isSome_iff_exists, Option.isSome_iff_exists]
  simp only [text?_eq_some_iff, signed?_eq_some_iff]
  constructor
  · rintro (⟨s, rfl⟩ | ⟨n, rfl, hn⟩)
    · exact .text s
    · exact .int n hn
  · rintro (s | ⟨n, hn⟩)
    · exact .inl ⟨s, rfl⟩
    · exact .inr ⟨n, rfl, hn⟩

/-- A record of two values of one kind is read if both of them are. -/
theorem isSome_pair_iff {α β : Type} {names : List String} {read? : Json → Option α}
    {make : α → α → β} {p : Json → Prop} (h : ∀ v, (read? v).isSome = true ↔ p v) {value : Json} :
    (do
      let [some first, some second] ← record? names value | none
      return make (← read? first) (← read? second) : Option β).isSome = true ↔
      ∃ first second, Record names value [some first, some second] ∧ p first ∧ p second := by
  constructor
  · intro hsome
    obtain ⟨made, hmade⟩ := Option.isSome_iff_exists.mp hsome
    obtain ⟨values, hvalues, hmade⟩ := Option.bind_eq_some_iff.mp hmade
    split at hmade
    · obtain ⟨a, hfirst, hmade⟩ := Option.bind_eq_some_iff.mp hmade
      obtain ⟨b, hsecond, -⟩ := Option.bind_eq_some_iff.mp hmade
      exact ⟨_, _, record?_eq_some_iff.mp hvalues, (h _).mp (Option.isSome_of_eq_some hfirst),
        (h _).mp (Option.isSome_of_eq_some hsecond)⟩
    · cases hmade
  · rintro ⟨first, second, fields, hfirst, hsecond⟩
    obtain ⟨a, hfirst⟩ := Option.isSome_iff_exists.mp ((h _).mpr hfirst)
    obtain ⟨b, hsecond⟩ := Option.isSome_iff_exists.mp ((h _).mpr hsecond)
    simp [record?_eq_some_iff.mpr fields, hfirst, hsecond]

theorem isSome_position?_iff {value : Json} :
    (position? value).isSome = true ↔ IsPosition value := by
  refine (isSome_pair_iff fun _ => isSome_unsigned?_iff).trans ?_
  constructor
  · rintro ⟨line, character, fields, hline, hcharacter⟩
    exact .record fields hline hcharacter
  · rintro ⟨fields, hline, hcharacter⟩
    exact ⟨_, _, fields, hline, hcharacter⟩

theorem isSome_range?_iff {value : Json} : (range? value).isSome = true ↔ IsRange value := by
  refine (isSome_pair_iff fun _ => isSome_position?_iff).trans ?_
  constructor
  · rintro ⟨start, stop, fields, hstart, hstop⟩
    exact .record fields hstart hstop
  · rintro ⟨fields, hstart, hstop⟩
    exact ⟨_, _, fields, hstart, hstop⟩

theorem change?_eq_some_iff {value : Json} {text : Text} :
    change? value = some text ↔ Becomes value text := by
  have hrange : ∀ {range}, mayBe (range? · |>.isSome) range = true ↔ Optional IsRange range :=
    mayBe_iff fun _ => isSome_range?_iff
  constructor
  · intro h
    obtain ⟨values, hvalues, h⟩ := Option.bind_eq_some_iff.mp h
    split at h
    · obtain ⟨hboth, htext⟩ := guard_bind_eq_some_iff.mp h
      obtain ⟨hrange', hlength'⟩ := Bool.and_eq_true_iff.mp hboth
      obtain rfl := text?_eq_some_iff.mp htext
      exact .change (record?_eq_some_iff.mp hvalues) (hrange.mp hrange')
        (mayBe_unsigned_iff.mp hlength')
    · cases h
  · rintro ⟨fields, hrange', hlength'⟩
    refine Option.bind_eq_some_iff.mpr ⟨_, record?_eq_some_iff.mpr fields, ?_⟩
    refine guard_bind_eq_some_iff.mpr ⟨?_, rfl⟩
    rw [hrange.mpr hrange', mayBe_unsigned_iff.mpr hlength', Bool.and_self]

variable {read? : Text → Option Uri} {value params : Json} {uri : Uri} {e : Event}

theorem uri?_eq_some_iff : uri? read? value = some uri ↔
    ∃ address, value = .str address ∧ read? address = some uri := by
  simp only [uri?, Option.bind_eq_some_iff, text?_eq_some_iff]

theorem list?_eq_some_iff {items : List Json} : list? value = some items ↔ value = .arr items := by
  cases value <;> simp [list?]

theorem document?_eq_some_iff : document? read? value = some uri ↔ Names read? value uri := by
  constructor
  · intro h
    obtain ⟨values, hvalues, h⟩ := Option.bind_eq_some_iff.mp h
    split at h
    · obtain ⟨address, rfl, hreads⟩ := uri?_eq_some_iff.mp h
      exact .record (record?_eq_some_iff.mp hvalues) hreads
    · cases h
  · rintro ⟨fields, hreads⟩
    exact Option.bind_eq_some_iff.mpr
      ⟨_, record?_eq_some_iff.mpr fields, uri?_eq_some_iff.mpr ⟨_, rfl, hreads⟩⟩

theorem ready?_eq_some_iff : ready? params = some e ↔ Tells read? .ready params e := by
  constructor
  · intro h
    cases params with
    | obj fields =>
        obtain rfl := Option.some.inj h
        exact .ready (.object fields)
    | arr items =>
        cases items with
        | nil =>
            obtain rfl := Option.some.inj h
            exact .ready (.list [] rfl)
        | cons => cases h
    | _ => cases h
  · rintro ⟨fields⟩
    have hvalues := record?_eq_some_iff.mpr fields
    cases params with
    | obj fields => rfl
    | arr items =>
        cases items with
        | nil => rfl
        | cons => simp [record?] at hvalues
    | _ => cases hvalues

theorem opened?_eq_some_iff : opened? read? params = some e ↔ Tells read? .opened params e := by
  constructor
  · intro h
    obtain ⟨values, houter, h⟩ := Option.bind_eq_some_iff.mp h
    split at h
    · obtain ⟨values, hfields, h⟩ := Option.bind_eq_some_iff.mp h
      split at h
      · obtain ⟨hlanguage, h⟩ := guard_bind_eq_some_iff.mp h
        obtain ⟨uri, huri, h⟩ := Option.bind_eq_some_iff.mp h
        obtain ⟨text, htext, h⟩ := Option.bind_eq_some_iff.mp h
        obtain ⟨version, hversion, h⟩ := Option.bind_eq_some_iff.mp h
        cases h
        obtain ⟨language⟩ := isSome_text?_iff.mp hlanguage
        obtain ⟨address, rfl, hreads⟩ := uri?_eq_some_iff.mp huri
        obtain rfl := text?_eq_some_iff.mp htext
        obtain ⟨rfl, hsigned⟩ := signed?_eq_some_iff.mp hversion
        exact .opened (record?_eq_some_iff.mp houter) (record?_eq_some_iff.mp hfields) hreads
          hsigned
      · cases h
    · cases h
  · intro h
    cases h with
    | opened outer fields reads signed =>
        simp [opened?, record?_eq_some_iff.mpr outer, record?_eq_some_iff.mpr fields, text?,
          uri?_eq_some_iff.mpr ⟨_, rfl, reads⟩, signed?_eq_some_iff.mpr ⟨rfl, signed⟩]

theorem changed?_eq_some_iff : changed? read? params = some e ↔ Tells read? .changed params e := by
  constructor
  · intro h
    obtain ⟨values, houter, h⟩ := Option.bind_eq_some_iff.mp h
    split at h
    · obtain ⟨values, hfields, h⟩ := Option.bind_eq_some_iff.mp h
      split at h
      · obtain ⟨uri, huri, h⟩ := Option.bind_eq_some_iff.mp h
        obtain ⟨version, hversion, h⟩ := Option.bind_eq_some_iff.mp h
        obtain ⟨changes, hchanges, h⟩ := Option.bind_eq_some_iff.mp h
        obtain ⟨texts, htexts, h⟩ := Option.bind_eq_some_iff.mp h
        cases h
        obtain ⟨address, rfl, hreads⟩ := uri?_eq_some_iff.mp huri
        obtain ⟨rfl, hsigned⟩ := signed?_eq_some_iff.mp hversion
        obtain rfl := list?_eq_some_iff.mp hchanges
        simp only [mapM_eq_some_iff, change?_eq_some_iff] at htexts
        exact .changed (record?_eq_some_iff.mp houter) (record?_eq_some_iff.mp hfields) hreads
          hsigned htexts
      · cases h
    · cases h
  · intro h
    cases h with
    | changed outer fields reads signed becomes =>
        have htexts : List.mapM change? _ = some _ :=
          mapM_eq_some_iff.mpr (becomes.imp fun _ _ => change?_eq_some_iff.mpr)
        simp [changed?, record?_eq_some_iff.mpr outer, record?_eq_some_iff.mpr fields, list?,
          uri?_eq_some_iff.mpr ⟨_, rfl, reads⟩, signed?_eq_some_iff.mpr ⟨rfl, signed⟩, htexts]

theorem closed?_eq_some_iff : closed? read? params = some e ↔ Tells read? .closed params e := by
  constructor
  · intro h
    obtain ⟨values, houter, h⟩ := Option.bind_eq_some_iff.mp h
    split at h
    · obtain ⟨uri, huri, h⟩ := Option.bind_eq_some_iff.mp h
      cases h
      exact .closed (record?_eq_some_iff.mp houter) (document?_eq_some_iff.mp huri)
    · cases h
  · intro h
    cases h with
    | closed outer names =>
        simp [closed?, record?_eq_some_iff.mpr outer, document?_eq_some_iff.mpr names]

theorem outline?_eq_some_iff : outline? read? params = some uri ↔ Asks read? params uri := by
  have htoken : ∀ {token}, mayBe isToken token = true ↔ Optional IsToken token :=
    mayBe_iff fun _ => isToken_iff
  constructor
  · intro h
    unfold outline? at h
    split at h
    · rename_i fields
      obtain ⟨hwork, h⟩ := guard_bind_eq_some_iff.mp h
      obtain ⟨hpartial, h⟩ := guard_bind_eq_some_iff.mp h
      obtain ⟨item, hitem, h⟩ := Option.bind_eq_some_iff.mp h
      exact ⟨.object fields, htoken.mp hwork, htoken.mp hpartial, item, hitem,
        document?_eq_some_iff.mp h⟩
    · cases h
  · rintro ⟨⟨fields⟩, hwork, hpartial, item, hitem, names⟩
    refine guard_bind_eq_some_iff.mpr ⟨htoken.mpr hwork, ?_⟩
    refine guard_bind_eq_some_iff.mpr ⟨htoken.mpr hpartial, ?_⟩
    exact Option.bind_eq_some_iff.mpr ⟨item, hitem, document?_eq_some_iff.mpr names⟩

theorem isFolder_iff : isFolder read? value = true ↔ IsFolder read? value := by
  constructor
  · intro h
    unfold isFolder at h
    split at h
    · rename_i hvalues
      obtain ⟨huri, hname⟩ := Bool.and_eq_true_iff.mp h
      obtain ⟨uri, huri⟩ := Option.isSome_iff_exists.mp huri
      obtain ⟨name, hname⟩ := Option.isSome_iff_exists.mp hname
      obtain ⟨address, rfl, hreads⟩ := uri?_eq_some_iff.mp huri
      obtain rfl := text?_eq_some_iff.mp hname
      exact .record (record?_eq_some_iff.mp hvalues) hreads
    · cases h
  · rintro ⟨fields, hreads⟩
    simp [isFolder, record?_eq_some_iff.mpr fields, text?, uri?_eq_some_iff.mpr ⟨_, rfl, hreads⟩]

theorem isClientInfo_iff : isClientInfo value = true ↔ IsClient value := by
  constructor
  · intro h
    unfold isClientInfo at h
    split at h
    · rename_i hvalues
      obtain ⟨hname, hversion⟩ := Bool.and_eq_true_iff.mp h
      obtain ⟨name, hname⟩ := Option.isSome_iff_exists.mp hname
      obtain rfl := text?_eq_some_iff.mp hname
      exact .record (record?_eq_some_iff.mp hvalues) (mayBe_text_iff.mp hversion)
    · cases h
  · rintro ⟨fields, hversion⟩
    simp only [isClientInfo, record?_eq_some_iff.mpr fields, mayBe_text_iff.mpr hversion]
    rfl

theorem isTrace_iff : isTrace value = true ↔
    ∃ level ∈ ["off", "messages", "verbose"], value = .str level.toList := by
  cases value <;> simp [isTrace, text?]

theorem isStart_iff : isStart read? params = true ↔ Starts read? params := by
  have hroot : ∀ {v}, mayBe (uri? read? · |>.isSome) v = true ↔
      Optional (fun v => ∃ address, v = .str address ∧ (read? address).isSome) v := by
    refine mayBe_iff fun v => ?_
    cases v <;> simp [uri?, text?]
  have htrace : ∀ {v}, mayBe isTrace v = true ↔ Optional _ v := mayBe_iff fun _ => isTrace_iff
  have hfolders : ∀ {v}, mayBe (fun value => (list? value).any (·.all (isFolder read?))) v = true ↔
      Optional (fun v => ∃ items, v = .arr items ∧ ∀ item ∈ items, IsFolder read? item) v := by
    refine mayBe_iff fun v => ?_
    cases v <;> simp [list?, isFolder_iff]
  have hclient : ∀ {v}, mayBe isClientInfo v = true ↔ Optional IsClient v :=
    mayBe_iff fun _ => isClientInfo_iff
  have hcapabilities : ∀ {v : Option Json}, v.any isObject = true ↔
      ∃ value, v = some value ∧ IsObject value := by
    intro v
    cases v <;> simp [isObject_iff]
  simp only [isStart, Bool.and_eq_true, isObject_iff, hcapabilities, mayBe_unsigned_iff,
    mayBe_text_iff, hroot, htrace, hfolders, hclient]
  constructor
  · rintro ⟨⟨⟨⟨⟨⟨⟨⟨h₁, h₂⟩, h₃⟩, h₄⟩, h₅⟩, h₆⟩, h₇⟩, h₈⟩, h₉⟩
    exact ⟨h₁, h₂, h₃, h₄, h₅, h₆, h₇, h₈, h₉⟩
  · rintro ⟨h₁, h₂, h₃, h₄, h₅, h₆, h₇, h₈, h₉⟩
    exact ⟨⟨⟨⟨⟨⟨⟨⟨h₁, h₂⟩, h₃⟩, h₄⟩, h₅⟩, h₆⟩, h₇⟩, h₈⟩, h₉⟩

end Params

/-! ## Reading messages -/

namespace Message

variable {read? : Text → Option Uri} {m : Message} {e : Event}

theorem opens_iff : Opens read? m ↔ m.method = "initialize".toList ∧ m.id.isSome ∧
    m.params.any (Params.isStart read?) = true := by
  simp only [Opens, Option.any_eq_true, Params.isStart_iff]

instance : Decidable (Opens read? m) :=
  decidable_of_iff _ opens_iff.symm

def exits (m : Message) : Bool :=
  m.method = "exit".toList

/-- The client leaves, or asks the server to stop. -/
def ends (m : Message) : Bool :=
  m.exits || m.method = "shutdown".toList

/-- What a notification says, if its parameters are right. -/
def event? (read? : Text → Option Uri) (m : Message) : Option Event :=
  if m.id.isSome then none
  else if m.method = "initialized".toList then m.params.bind Params.ready?
  else if m.method = "textDocument/didOpen".toList then m.params.bind (Params.opened? read?)
  else if m.method = "textDocument/didChange".toList then m.params.bind (Params.changed? read?)
  else if m.method = "textDocument/didClose".toList then m.params.bind (Params.closed? read?)
  else none

theorem event?_of_ne (h : ∀ topic, m.method ≠ (Topic.method topic).toList) :
    m.event? read? = none := by
  have hready : m.method ≠ "initialized".toList := h .ready
  have hopened : m.method ≠ "textDocument/didOpen".toList := h .opened
  have hchanged : m.method ≠ "textDocument/didChange".toList := h .changed
  have hclosed : m.method ≠ "textDocument/didClose".toList := h .closed
  rw [event?, if_neg hready, if_neg hopened, if_neg hchanged, if_neg hclosed, ite_self]

/-- The reader of the parameters that belong to a topic. -/
def reader? (read? : Text → Option Uri) : Topic → Json → Option Event
  | .ready => Params.ready?
  | .opened => Params.opened? read?
  | .changed => Params.changed? read?
  | .closed => Params.closed? read?

theorem reader?_eq_some_iff {topic : Topic} {params : Json} :
    reader? read? topic params = some e ↔ Tells read? topic params e := by
  cases topic with
  | ready => exact Params.ready?_eq_some_iff
  | opened => exact Params.opened?_eq_some_iff
  | changed => exact Params.changed?_eq_some_iff
  | closed => exact Params.closed?_eq_some_iff

theorem event?_of_method (topic : Topic) (hid : m.id = none)
    (hm : m.method = (Topic.method topic).toList) :
    m.event? read? = m.params.bind (reader? read? topic) := by
  cases topic <;> simp [event?, hid, hm, Topic.method, reader?]

theorem event?_eq_some_iff : m.event? read? = some e ↔ Says read? m e := by
  constructor
  · intro h
    have hid : m.id = none := by
      cases hid : m.id with
      | none => rfl
      | some id => simp [event?, hid] at h
    by_cases hm : ∃ topic, m.method = (Topic.method topic).toList
    · obtain ⟨topic, hm⟩ := hm
      rw [event?_of_method topic hid hm] at h
      obtain ⟨params, hparams, htells⟩ := Option.bind_eq_some_iff.mp h
      exact ⟨hid, topic, params, hm, hparams, reader?_eq_some_iff.mp htells⟩
    · rw [event?_of_ne fun topic hm' => hm ⟨topic, hm'⟩] at h
      cases h
  · rintro ⟨hid, topic, params, hm, hparams, htells⟩
    rw [event?_of_method topic hid hm, hparams]
    exact reader?_eq_some_iff.mpr htells

theorem event?_eq_none_iff : m.event? read? = none ↔ ∀ e, ¬ Says read? m e := by
  simp only [Option.eq_none_iff_forall_ne_some, ne_eq, event?_eq_some_iff]

end Message

end ReleaseLog.Editor
