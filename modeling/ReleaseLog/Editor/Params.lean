import ReleaseLog.Editor.Diagnostic
import ReleaseLog.Json.Basic
import ReleaseLog.Uri

/-!
# Parameters of messages

Records are objects, or arrays with a value for every field in order. A field that may be missing
may also be null. Fields that are not known mean nothing. How an address is read is a parameter.
-/

namespace ReleaseLog.Editor

/-- What the client tells once the server runs. -/
inductive Event
  | ready
  | opened (uri : Uri) (text : Text) (version : Int)
  /-- The texts of the document after each of some changes. -/
  | changed (uri : Uri) (version : Int) (texts : List Text)
  | closed (uri : Uri)
deriving DecidableEq, Repr

namespace Params

variable (read? : Text → Option Uri)

/-! ## Values -/

def text? : Json → Option Text
  | .str s => some s
  | _ => none

def uri? (value : Json) : Option Uri :=
  (text? value).bind read?

def signed? : Json → Option Int
  | .int n => if -0x80000000 ≤ n ∧ n < 0x80000000 then some n else none
  | _ => none

def unsigned? : Json → Option Nat
  | .int n => if 0 ≤ n ∧ n < 0x100000000 then some n.toNat else none
  | _ => none

def list? : Json → Option (List Json)
  | .arr items => some items
  | _ => none

def record? (names : List String) : Json → Option (List (Option Json))
  | .obj fields => some (names.map (Json.obj fields).field?)
  | .arr items => if items.length = names.length then some (items.map some) else none
  | _ => none

/-- A value that may be missing or null, and is of a kind otherwise. -/
def mayBe (kind : Json → Bool) : Option Json → Bool
  | none | some .null => true
  | some value => kind value

/-! ## Records -/

def position? (value : Json) : Option Position := do
  let [some line, some character] ← record? ["line", "character"] value | none
  return ⟨← unsigned? line, ← unsigned? character⟩

def range? (value : Json) : Option Range := do
  let [some start, some stop] ← record? ["start", "end"] value | none
  return ⟨← position? start, ← position? stop⟩

def document? (value : Json) : Option Uri := do
  let [some uri] ← record? ["uri"] value | none
  uri? read? uri

/-- The text after a change. Where it was changed means nothing, but has to be well-formed. -/
def change? (value : Json) : Option Text := do
  let [range, length, some text] ← record? ["range", "rangeLength", "text"] value | none
  guard (mayBe (range? · |>.isSome) range && mayBe (unsigned? · |>.isSome) length)
  text? text

/-- A token under which progress is reported. -/
def isToken (value : Json) : Bool :=
  (text? value).isSome || (signed? value).isSome

/-! ## Messages -/

def opened? (params : Json) : Option Event := do
  let [some item] ← record? ["textDocument"] params | none
  let [some uri, some language, some version, some text] ←
    record? ["uri", "languageId", "version", "text"] item | none
  guard (text? language).isSome
  return .opened (← uri? read? uri) (← text? text) (← signed? version)

def changed? (params : Json) : Option Event := do
  let [some document, some changes] ← record? ["textDocument", "contentChanges"] params | none
  let [some uri, some version] ← record? ["uri", "version"] document | none
  return .changed (← uri? read? uri) (← signed? version) (← (← list? changes).mapM change?)

def closed? (params : Json) : Option Event := do
  let [some document] ← record? ["textDocument"] params | none
  return .closed (← document? read? document)

/-- The parameters of a message without content. -/
def ready? : Json → Option Event
  | .obj _ | .arr [] => some .ready
  | _ => none

def outline? (params : Json) : Option Uri := do
  let .obj _ := params | none
  guard (mayBe isToken (params.field? "workDoneToken"))
  guard (mayBe isToken (params.field? "partialResultToken"))
  document? read? (← params.field? "textDocument")

def isClientInfo (value : Json) : Bool :=
  match record? ["name", "version"] value with
  | some [some name, version] => (text? name).isSome && mayBe (text? · |>.isSome) version
  | _ => false

def isFolder (value : Json) : Bool :=
  match record? ["uri", "name"] value with
  | some [some uri, some name] => (uri? read? uri).isSome && (text? name).isSome
  | _ => false

def isTrace (value : Json) : Bool :=
  (text? value).any (["off".toList, "messages".toList, "verbose".toList].contains ·)

def isObject : Json → Bool
  | .obj _ => true
  | _ => false

/-- The parameters of the first message: the client tells its capabilities, and perhaps more. -/
def isStart (params : Json) : Bool :=
  isObject params &&
    (params.field? "capabilities").any isObject &&
    mayBe (unsigned? · |>.isSome) (params.field? "processId") &&
    mayBe (text? · |>.isSome) (params.field? "rootPath") &&
    mayBe (uri? read? · |>.isSome) (params.field? "rootUri") &&
    mayBe isTrace (params.field? "trace") &&
    mayBe (fun value => (list? value).any (·.all (isFolder read?)))
      (params.field? "workspaceFolders") &&
    mayBe isClientInfo (params.field? "clientInfo") &&
    mayBe (text? · |>.isSome) (params.field? "locale")

/-! ## Requests that are not supported -/

/-- What a field of such a request has to hold. -/
inductive Need
  | document
  | position
  | range
  | text
  | list
  | object
deriving DecidableEq, Repr

def Need.isMet (value : Json) : Need → Bool
  | .document => (document? read? value).isSome
  | .position => (position? value).isSome
  | .range => (range? value).isSome
  | .text => (text? value).isSome
  | .list => (list? value).isSome
  | .object => isObject value

def meets (needs : List (String × Need)) (params : Json) : Bool :=
  isObject params && needs.all fun (name, need) => (params.field? name).any (need.isMet read?)

end Params

end ReleaseLog.Editor
