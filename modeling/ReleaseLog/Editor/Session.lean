import ReleaseLog.Assoc
import ReleaseLog.Editor.Diagnostic
import ReleaseLog.Editor.Method
import ReleaseLog.Editor.Outline

/-!
# Sessions with an editor

A session keeps the text of every open changelog. The editor sends messages one after another, and
the session reacts to each with at most one reply and with notices about the documents.
-/

namespace ReleaseLog.Editor

/-- A message of the editor: a request if it has an identifier, else a notification. -/
structure Message where
  method : Text
  id : Option Json := none
  params : Option Json := none
deriving Repr

structure Document where
  text : Text
  version : Int
deriving DecidableEq, Repr

/-- Where a session is in its life. -/
inductive Phase
  | fresh
  | running
  | stopped
  | exited
deriving DecidableEq, Repr

/-- A session, with the rules that it checks documents by and its way to read an address. -/
structure Session where
  rules : RuleSet
  read? : Text → Option Uri := Uri.parse?
  phase : Phase := .fresh
  documents : Assoc Uri Document := []

inductive Result
  /-- What the server can do, and its name. -/
  | abilities
  | nothing
  | outline (symbols : List ReleaseSymbol)
deriving DecidableEq, Repr

inductive Failure
  | notInitialized
  | invalidRequest
  | methodNotFound
  | invalidParams
deriving DecidableEq, Repr

/-- What the server tells on its own. -/
inductive Notice
  | ready
  /-- The findings in a document, with its version while it is open. -/
  | findings (uri : Uri) (version : Option Int) (diagnostics : List Diagnostic)
deriving DecidableEq, Repr

inductive Reply
  | silence
  | exited
  | result (id : Json) (result : Result)
  | failure (id : Json) (failure : Failure)
deriving Repr

structure Reaction where
  reply : Reply := .silence
  notices : List Notice := []
deriving Repr

namespace Reply

/-- The reply to a request, and silence for a notification. -/
def toRequest (id : Option Json) (outcome : Except Failure Result) : Reply :=
  match id, outcome with
  | none, _ => .silence
  | some id, .ok r => .result id r
  | some id, .error f => .failure id f

end Reply

namespace Session

/-! ## Documents -/

/-- Stores a document and tells what it has. -/
def store (s : Session) (uri : Uri) (doc : Document) : List Notice × Session :=
  ([.findings uri (some doc.version) (Diagnostic.ofText s.rules doc.text)],
    { s with documents := s.documents.put uri doc })

/-- Takes in an event. Of several changes the last one counts. -/
def apply (s : Session) : Event → List Notice × Session
  | .ready => ([.ready], s)
  | .opened uri text version => s.store uri ⟨text, version⟩
  | .changed uri version texts =>
    match texts.getLast? with
    | some text => s.store uri ⟨text, version⟩
    | none => ([], s)
  | .closed uri => ([.findings uri none []], { s with documents := s.documents.erase uri })

def outline (s : Session) (uri : Uri) : Result :=
  match s.documents.get? uri with
  | some doc => .outline (Outline.ofText doc.text)
  | none => .nothing

/-! ## Messages -/

/-- The refusal where the session does not run. -/
def refusal (s : Session) : Failure :=
  if s.phase = .fresh then .notInitialized else .invalidRequest

/-- A request for which the session has to run. -/
def answer (s : Session) (m : Message) (outcome : Json → Except Failure Result) : Reaction :=
  if s.phase = .running then
    ⟨.toRequest m.id (m.params.elim (.error .invalidParams) outcome), []⟩
  else ⟨.toRequest m.id (.error s.refusal), []⟩

/-- The first request. It opens the session if its parameters are right. -/
def start (s : Session) (m : Message) : Reaction × Session :=
  if s.phase = .fresh then
    if m.params.any (Params.isStart s.read?) then
      (⟨.toRequest m.id (.ok .abilities), []⟩,
        if m.id.isSome then { s with phase := .running } else s)
    else (⟨.toRequest m.id (.error .invalidParams), []⟩, s)
  else (⟨.toRequest m.id (.error .invalidRequest), []⟩, s)

/-- The request to stop, which has no parameters. -/
def shutdown (s : Session) (m : Message) : Reaction × Session :=
  if s.phase = .running then
    (⟨.toRequest m.id (if m.params.isSome then .error .invalidParams else .ok .nothing), []⟩,
      { s with phase := .stopped })
  else (⟨.toRequest m.id (.error s.refusal), []⟩, s)

/-- A notification. It means nothing with an identifier or with wrong parameters. -/
def notify (s : Session) (m : Message) (event? : Json → Option Event) : Reaction × Session :=
  if s.phase = .running then
    match m.id, m.params.bind event? with
    | none, some event =>
      let (notices, s) := s.apply event
      (⟨.silence, notices⟩, s)
    | _, _ => ({}, s)
  else (⟨.toRequest m.id (.error s.refusal), []⟩, s)

def receive (s : Session) (m : Message) : Reaction × Session :=
  if s.phase = .exited then (⟨.exited, []⟩, s)
  else
    match Method.ofName m.method with
    | .start => s.start m
    | .shutdown => s.shutdown m
    | .exit => ({}, { s with phase := .exited })
    | .outline =>
      (s.answer m fun params =>
        match Params.outline? s.read? params with
        | some uri => .ok (s.outline uri)
        | none => .error .invalidParams, s)
    | .unsupported needs =>
      (s.answer m fun params =>
        .error (if Params.meets s.read? needs params then .methodNotFound else .invalidParams), s)
    | .notification event? => s.notify m (event? s.read?)
    | .optional => ({}, s)
    | .unknown => (⟨.toRequest m.id (.error .methodNotFound), []⟩, s)

def receiveAll (s : Session) : List Message → List Reaction × Session
  | [] => ([], s)
  | m :: rest =>
    let (reaction, s) := s.receive m
    let (reactions, s) := receiveAll s rest
    (reaction :: reactions, s)

end Session

end ReleaseLog.Editor
