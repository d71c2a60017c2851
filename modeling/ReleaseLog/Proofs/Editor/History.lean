import ReleaseLog.Editor.Encoding
import ReleaseLog.Proofs.Editor.Step
import Mathlib.Data.List.Induction

/-!
# The history of a session

What a session stores and publishes is a function of the messages that it was sent. The stored
document of an address is the one that was last opened or changed there, until it is closed.
-/

namespace ReleaseLog.Editor

/-! ## The document that stands -/

namespace Message

variable (read? : Text → Option Uri)

/-- The messages after the first one that opens the session, up to the one that ends it. -/
def served : List Message → List Message
  | [] => []
  | m :: rest =>
    if m.exits then [] else if Opens read? m then rest.takeWhile (!·.ends) else served rest

/-- The session was opened, and has not ended. -/
def isOpen : List Message → Bool
  | [] => false
  | m :: rest =>
    if m.exits then false else if Opens read? m then rest.all (!·.ends) else isOpen rest

end Message

/-- The document that an event leaves behind. Of several changes the last one counts. -/
def Event.written? : Event → Option (Uri × Document)
  | .opened uri text version => some (uri, ⟨text, version⟩)
  | .changed uri version texts => texts.getLast?.map fun text => (uri, ⟨text, version⟩)
  | _ => none

section

variable (read? : Text → Option Uri)

/-- The message opens or changes a document, and leaves this one behind. -/
def Writes (m : Message) (uri : Uri) (doc : Document) : Prop :=
  ∃ e, Says read? m e ∧ e.written? = some (uri, doc)

/-- The message neither writes nor closes the document of an address. -/
def Spares (m : Message) (uri : Uri) : Prop :=
  ¬ Says read? m (.closed uri) ∧ ∀ doc, ¬ Writes read? m uri doc

/-- Some message leaves this document behind, and those after it spare its address. -/
def Stands (uri : Uri) (doc : Document) (ms : List Message) : Prop :=
  ∃ before m after, ms = before ++ m :: after ∧ Writes read? m uri doc ∧
    ∀ later ∈ after, Spares read? later uri

end

/-! ## What is published -/

/-- The message tells the findings in a document. -/
def isPublication (value : Json) : Bool :=
  match value.field? "method" with
  | some (.str method) => method == "textDocument/publishDiagnostics".toList
  | _ => false

/-- The messages of a reaction that tell the findings in a document. -/
def Reaction.publications (r : Reaction) : List Json :=
  r.messages.filter isPublication

/-! ## A whole conversation -/

section

variable {read? : Text → Option Uri} {m : Message} {e : Event} {uri : Uri} {doc : Document}

theorem Says.unique {e' : Event} (h : Says read? m e) (h' : Says read? m e') : e = e' := by
  rw [← Message.event?_eq_some_iff] at h h'
  exact Option.some.inj (h.symm.trans h')

theorem Says.writes_iff (h : Says read? m e) :
    Writes read? m uri doc ↔ e.written? = some (uri, doc) := by
  constructor
  · rintro ⟨e', h', hw⟩
    rwa [h.unique h']
  · exact fun hw => ⟨e, h, hw⟩

theorem spares_of_unheard (h : ∀ e, ¬ Says read? m e) : Spares read? m uri :=
  ⟨h _, fun _ ⟨e, he, _⟩ => h e he⟩

theorem Says.ends_eq_false (h : Says read? m e) : m.ends = false := by
  obtain ⟨-, topic, -, hm, -⟩ := h
  cases topic <;> simp [Message.ends, Message.exits, hm, Topic.method]

theorem stands_concat {ms : List Message} :
    Stands read? uri doc (ms ++ [m]) ↔
      Writes read? m uri doc ∨ Stands read? uri doc ms ∧ Spares read? m uri := by
  constructor
  · rintro ⟨before, last, after, heq, hw, hafter⟩
    rcases List.eq_nil_or_concat after with rfl | ⟨after, final, hconcat⟩
    · obtain ⟨-, hlast⟩ := List.append_inj' heq rfl
      rw [List.singleton_inj.mp hlast]
      exact .inl hw
    · rw [List.concat_eq_append] at hconcat
      subst hconcat
      rw [← List.cons_append, ← List.append_assoc] at heq
      obtain ⟨rfl, hfinal⟩ := List.append_inj' heq rfl
      rw [List.singleton_inj.mp hfinal]
      have hlater : ∀ later ∈ after, Spares read? later uri :=
        fun later hl => hafter later (List.mem_append_left _ hl)
      exact .inr ⟨⟨before, last, after, rfl, hw, hlater⟩, hafter final (by simp)⟩
  · rintro (hw | ⟨⟨before, last, after, rfl, hw, hafter⟩, hm⟩)
    · exact ⟨ms, m, [], rfl, hw, by simp⟩
    · refine ⟨before, last, after ++ [m], by simp, hw, ?_⟩
      intro later hl
      rcases List.mem_append.mp hl with hl | hl
      · exact hafter later hl
      · rw [List.mem_singleton.mp hl]
        exact hm

end

namespace Message

variable {read? : Text → Option Uri}

def isFresh (read? : Text → Option Uri) (ms : List Message) : Bool :=
  ms.all fun m => !m.exits && !decide (Opens read? m)

theorem isOpen_concat (ms : List Message) (m : Message) :
    isOpen read? (ms ++ [m]) = (isOpen read? ms && !m.ends ||
      isFresh read? ms && (!m.exits && decide (Opens read? m))) := by
  induction ms with
  | nil => by_cases hx : m.exits <;> by_cases ho : Opens read? m <;> simp [isOpen, isFresh, hx, ho]
  | cons first rest ih =>
      by_cases hx : first.exits
      · simp [isOpen, isFresh, hx]
      · by_cases ho : Opens read? first
        · simp [isOpen, isFresh, hx, ho, List.all_append]
        · simp only [isFresh] at ih
          simp [isOpen, isFresh, hx, ho, ih]

private theorem takeWhile_concat {α : Type} (p : α → Bool) (xs : List α) (x : α) :
    (xs ++ [x]).takeWhile p =
      if xs.all p && p x then xs.takeWhile p ++ [x] else xs.takeWhile p := by
  induction xs with
  | nil => cases hx : p x <;> simp [hx]
  | cons y ys ih =>
      cases hy : p y with
      | false => simp [hy]
      | true =>
          simp only [List.cons_append, List.takeWhile_cons, List.all_cons, hy, ih, if_true,
            Bool.true_and]
          split <;> rfl

theorem served_concat (ms : List Message) (m : Message) :
    served read? (ms ++ [m]) =
      if isOpen read? ms && !m.ends then served read? ms ++ [m] else served read? ms := by
  induction ms with
  | nil => simp [isOpen, served]
  | cons first rest ih =>
      by_cases hx : first.exits
      · simp [isOpen, served, hx]
      · by_cases ho : Opens read? first
        · simp [isOpen, served, hx, ho, takeWhile_concat]
        · simp [isOpen, served, hx, ho, ih]

theorem served_concat_of_heard {ms : List Message} {m : Message} {e : Event}
    (ho : isOpen read? ms = true) (h : Says read? m e) :
    served read? (ms ++ [m]) = served read? ms ++ [m] := by
  simp [served_concat, ho, h.ends_eq_false]

/-- A message that says nothing, or that comes too early or too late, changes nothing. -/
theorem stands_served_concat_of_unheard {ms : List Message} {m : Message} {uri : Uri}
    {doc : Document} (h : isOpen read? ms = true → ∀ e, ¬ Says read? m e) :
    Stands read? uri doc (served read? (ms ++ [m])) ↔ Stands read? uri doc (served read? ms) := by
  rw [served_concat]
  split
  · rename_i ho
    have hsilent := h (Bool.and_eq_true_iff.mp ho).1
    have hw : ¬ Writes read? m uri doc := fun ⟨e, he, _⟩ => hsilent e he
    rw [stands_concat, or_iff_right hw, and_iff_left (spares_of_unheard hsilent)]
  · rfl

end Message

namespace Session

theorem get?_documents_apply (s : Session) (e : Event) (uri : Uri) :
    (s.apply e).2.documents.get? uri =
      match e.written? with
      | some (other, doc) => if uri = other then some doc else s.documents.get? uri
      | none => if e = .closed uri then none else s.documents.get? uri := by
  cases e with
  | ready => rfl
  | opened other text version => exact Assoc.get?_put ..
  | changed other version texts =>
      cases ht : texts.getLast? with
      | none => simp [apply, Event.written?, ht]
      | some text =>
          simp only [apply, Event.written?, ht, Option.map_some]
          exact Assoc.get?_put ..
  | closed other =>
      have h : (s.apply (.closed other)).2.documents = s.documents.erase other := rfl
      rw [h, Assoc.get?_erase]
      simp [Event.written?, eq_comm]

end Session

/-- A session after some messages: what it stores is what their history says. -/
structure Session.Tracks (read? : Text → Option Uri) (rules : RuleSet) (ms : List Message)
    (s : Session) : Prop where
  rules : s.rules = rules
  reader : s.read? = read?
  fresh : s.phase = .fresh ↔ Message.isFresh read? ms = true
  running : s.phase = .running ↔ Message.isOpen read? ms = true
  documents : ∀ uri doc, s.documents.get? uri = some doc ↔
    Stands read? uri doc (Message.served read? ms)

namespace Session

variable {read? : Text → Option Uri} {rules : RuleSet} {past : List Message} {s : Session}

/-- What a message says changes what is stored exactly as it changes what stands. -/
theorem get?_documents_apply_iff {m : Message} {e : Event} (he : Says read? m e)
    (h : ∀ uri doc, s.documents.get? uri = some doc ↔ Stands read? uri doc past)
    (uri : Uri) (doc : Document) :
    (s.apply e).2.documents.get? uri = some doc ↔ Stands read? uri doc (past ++ [m]) := by
  have hspares : Spares read? m uri ↔
      e ≠ .closed uri ∧ ∀ other, e.written? ≠ some (uri, other) := by
    simp only [Spares, he.writes_iff]
    refine and_congr_left' (not_congr ⟨he.unique, ?_⟩)
    rintro rfl
    exact he
  rw [get?_documents_apply, stands_concat, ← h, he.writes_iff, hspares]
  cases hw : e.written? with
  | none => by_cases hc : e = .closed uri <;> simp [hc]
  | some written =>
      obtain ⟨other, new⟩ := written
      have hc : e ≠ .closed uri := by
        rintro rfl
        simp [Event.written?] at hw
      by_cases hu : uri = other
      · subst hu
        simp
      · simp [hu, hc, Ne.symm hu]

theorem Tracks.hears?_eq (h : Tracks read? rules past s) (m : Message) :
    s.hears? m = if Message.isOpen read? past then m.event? read? else none := by
  by_cases ho : Message.isOpen read? past = true
  · rw [hears?, if_pos (h.running.mpr ho), if_pos ho, h.reader]
  · rw [hears?, if_neg (mt h.running.mp ho), if_neg ho]

theorem Tracks.receive (h : Tracks read? rules past s) (m : Message) :
    Tracks read? rules (past ++ [m]) (s.receive m).2 := by
  obtain ⟨hrules, hread, hphase, -, hdocuments⟩ := s.receive_spec m
  rw [h.reader] at hphase
  refine ⟨by rw [hrules, h.rules], by rw [hread, h.reader], ?_, ?_, ?_⟩
  · rw [hphase, Phase.after_eq_fresh_iff, h.fresh]
    simp [Message.isFresh]
  · rw [hphase, Phase.after_eq_running_iff, h.fresh, h.running, Message.isOpen_concat]
    simp [or_comm]
  · intro uri doc
    rw [hdocuments, h.hears?_eq]
    by_cases ho : Message.isOpen read? past = true
    · rw [if_pos ho]
      cases he : m.event? read? with
      | none =>
          rw [Message.stands_served_concat_of_unheard
            fun _ => Message.event?_eq_none_iff.mp he]
          exact h.documents uri doc
      | some e =>
          have heard := Message.event?_eq_some_iff.mp he
          rw [Message.served_concat_of_heard ho heard]
          exact get?_documents_apply_iff heard h.documents uri doc
    · rw [if_neg ho, Message.stands_served_concat_of_unheard fun h' => absurd h' ho]
      exact h.documents uri doc

end Session

/-! ## What is told about documents -/

theorem isPublication_reply {r : Reply} {value : Json} (h : r.json? = some value) :
    isPublication value = false := by
  cases r with
  | silence => simp [Reply.json?] at h
  | exited => simp [Reply.json?] at h
  | result id result =>
      obtain rfl := Option.some.inj h
      simp [isPublication, Json.ofFields, Json.field?]
  | failure id failure =>
      obtain rfl := Option.some.inj h
      simp [isPublication, Json.ofFields, Json.field?]

@[simp] theorem isPublication_ready : isPublication Notice.ready.json = false := by
  rfl

@[simp] theorem isPublication_findings (uri : Uri) (version : Option Int)
    (diagnostics : List Diagnostic) :
    isPublication (Notice.findings uri version diagnostics).json = true := by
  rfl

/-- Replies tell nothing about documents, only notices do. -/
theorem Reaction.publications_eq (r : Reaction) :
    r.publications = (r.notices.map (·.json)).filter isPublication := by
  have hreply : r.reply.json?.toList.filter isPublication = [] := by
    apply List.filter_eq_nil_iff.mpr
    intro value hv
    simpa using isPublication_reply (Option.mem_toList.mp hv)
  rw [publications, messages, List.filter_append, hreply, List.append_nil]

namespace Session

theorem notices_apply_of_written {s : Session} {e : Event} {uri : Uri} {doc : Document}
    (h : e.written? = some (uri, doc)) :
    (s.apply e).1 =
      [.findings uri (some doc.version) (Diagnostic.ofText s.rules doc.text)] := by
  cases e with
  | opened other text version =>
      obtain ⟨rfl, rfl⟩ := Prod.mk.inj (Option.some.inj h)
      rfl
  | changed other version texts =>
      cases ht : texts.getLast? with
      | none => simp [Event.written?, ht] at h
      | some text =>
          simp only [Event.written?, ht, Option.map_some, Option.some.injEq] at h
          obtain ⟨rfl, rfl⟩ := Prod.mk.inj h
          simp only [apply, ht]
          rfl
  | ready => simp [Event.written?] at h
  | closed other => simp [Event.written?] at h

/-- An event that neither writes nor closes a document tells nothing about one. -/
theorem filter_notices_apply {s : Session} {e : Event} (hw : e.written? = none)
    (hc : ∀ uri, e ≠ .closed uri) : ((s.apply e).1.map (·.json)).filter isPublication = [] := by
  cases e with
  | ready => simp [apply]
  | opened uri text version => simp [Event.written?] at hw
  | changed uri version texts =>
      have ht : texts.getLast? = none := by simpa [Event.written?] using hw
      simp [apply, ht]
  | closed uri => exact (hc uri rfl).elim

theorem reply_receive_outline {s : Session} {m : Message} {id params : Json} {uri : Uri}
    (hr : s.phase = .running) (hm : m.method = "textDocument/documentSymbol".toList)
    (hid : m.id = some id) (hp : m.params = some params) (ha : Asks s.read? params uri) :
    (s.receive m).1.reply = .result id (s.outline uri) := by
  have hmethod : Method.ofName m.method = .outline := by
    rw [hm]
    exact Method.ofName_of_mem (by simp [Method.supported])
  have hu : Params.outline? s.read? params = some uri := Params.outline?_eq_some_iff.mpr ha
  simp [receive, hmethod, answer, hr, hid, hp, hu, Reply.toRequest]

end Session

/-- What the server answers to a message after some others: an opened or changed document is checked
and told about once, with its version; a closed one is cleared; nothing else is told about
documents; and an outline is that of the document that stands. -/
structure Answers (read? : Text → Option Uri) (rules : RuleSet) (past : List Message) (m : Message)
    (r : Reaction) : Prop where
  written : ∀ uri doc, Message.isOpen read? past = true → Writes read? m uri doc →
    r.publications = [(Notice.findings uri (some doc.version)
      ((rules.checkText doc.text).findings.map (Diagnostic.ofFinding doc.text.lines))).json]
  closed : ∀ uri, Message.isOpen read? past = true → Says read? m (.closed uri) →
    r.publications = [(Notice.findings uri none []).json]
  silent : (Message.isOpen read? past = true → ∀ uri, Spares read? m uri) → r.publications = []
  outline : ∀ id params uri, Message.isOpen read? past = true →
    m.method = "textDocument/documentSymbol".toList → m.id = some id → m.params = some params →
    Asks read? params uri →
    ∃ result, r.reply = .result id result ∧
      (∀ doc, Stands read? uri doc (Message.served read? past) →
        result = .outline (Outline.ofText doc.text)) ∧
      ((∀ doc, ¬ Stands read? uri doc (Message.served read? past)) → result = .nothing)

/-- After some messages a session stores the documents that stand, and answers the next message
accordingly, whatever comes later. -/
structure Follows (read? : Text → Option Uri) (rules : RuleSet) (past : List Message) (m : Message)
    (rest : List Message) : Prop where
  stored : ∀ uri doc, (Session.receiveAll { rules, read? } past).2.documents.get? uri = some doc ↔
    Stands read? uri doc (Message.served read? past)
  absent : ∀ uri, (Session.receiveAll { rules, read? } past).2.documents.get? uri = none ↔
    ∀ doc, ¬ Stands read? uri doc (Message.served read? past)
  answered : ∃ r, (Session.receiveAll { rules, read? } (past ++ m :: rest)).1[past.length]? =
    some r ∧ Answers read? rules past m r

namespace Session

theorem Tracks.answers {read? : Text → Option Uri} {rules : RuleSet} {past : List Message}
    {s : Session} (h : Tracks read? rules past s) (m : Message) :
    Answers read? rules past m (s.receive m).1 := by
  have hnotices := (s.receive_spec m).notices
  rw [h.hears?_eq] at hnotices
  constructor
  · rintro uri doc ho ⟨e, he, hw⟩
    rw [Reaction.publications_eq, hnotices, if_pos ho, Message.event?_eq_some_iff.mpr he,
      Option.elim_some, notices_apply_of_written hw, h.rules]
    simp [Diagnostic.ofText]
  · intro uri ho he
    rw [Reaction.publications_eq, hnotices, if_pos ho, Message.event?_eq_some_iff.mpr he]
    simp [apply]
  · intro hsilent
    rw [Reaction.publications_eq, hnotices]
    by_cases ho : Message.isOpen read? past = true
    · rw [if_pos ho]
      cases he : m.event? read? with
      | none => rfl
      | some e =>
          have heard := Message.event?_eq_some_iff.mp he
          refine filter_notices_apply ?_ ?_
          · apply Option.eq_none_iff_forall_ne_some.mpr
            rintro ⟨uri, doc⟩ hw
            exact (hsilent ho uri).2 doc ⟨e, heard, hw⟩
          · rintro uri rfl
            exact (hsilent ho uri).1 heard
    · rw [if_neg ho]
      rfl
  · intro id params uri ho hm hid hp ha
    rw [← h.reader] at ha
    refine ⟨s.outline uri, reply_receive_outline (h.running.mpr ho) hm hid hp ha, ?_, ?_⟩
    · intro doc hd
      rw [outline, (h.documents uri doc).mpr hd]
    · intro hd
      have hnone : s.documents.get? uri = none :=
        Option.eq_none_iff_forall_ne_some.mpr fun doc hdoc => hd doc ((h.documents uri doc).mp hdoc)
      rw [outline, hnone]

end Session

/-! ## A conversation -/

namespace Conversation

/-- The address of a changelog, and another spelling of it. -/
def address : String × String :=
  ("file:///work/CHANGELOG.md", "FILE:///work/drafts/../CHANGELOG.md")

def uri : Uri :=
  ⟨address.1.toList⟩

def draft : Text :=
  "<<<<<<< ours".toList

def released : Text :=
  "## [1.0.0] - 2017-06-20".toList

def start : Message where
  method := "initialize".toList
  id := some (.int 1)
  params := some (.ofFields [("capabilities", some (.obj []))])

def ready : Message where
  method := "initialized".toList
  params := some (.obj [])

def opened : Message where
  method := "textDocument/didOpen".toList
  params := some (.ofFields [("textDocument", some (.ofFields
    [ ("uri", some (.ofString address.1)), ("languageId", some (.ofString "markdown")),
      ("version", some (.int 1)), ("text", some (.str draft)) ]))])

/-- Two changes at once, the first of which leaves nothing. -/
def changed : Message where
  method := "textDocument/didChange".toList
  params := some (.ofFields
    [ ("textDocument", some (.ofFields
        [("uri", some (.ofString address.2)), ("version", some (.int 2))])),
      ("contentChanges", some (.arr
        [.ofFields [("text", some (.str []))], .ofFields [("text", some (.str released))]])) ])

def outlined : Message where
  method := "textDocument/documentSymbol".toList
  id := some (.int 2)
  params := some (.ofFields
    [("textDocument", some (.ofFields [("uri", some (.ofString address.1))]))])

def closed : Message where
  method := "textDocument/didClose".toList
  params := some (.ofFields
    [("textDocument", some (.ofFields [("uri", some (.ofString address.2))]))])

/-- A changelog is opened, changed, outlined and closed. -/
def messages : List Message :=
  [start, ready, opened, changed, outlined, closed]

end Conversation

end ReleaseLog.Editor
