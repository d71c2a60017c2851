import ReleaseLog.Editor.Session
import ReleaseLog.Json.Parser
import ReleaseLog.Json.Printer

/-!
# What editors read and write

The JSON forms of messages, replies and notices, and the header that tells the length of each.
-/

namespace ReleaseLog.Editor

/-! ## Documents -/

def Position.json (p : Position) : Json :=
  .ofFields [("line", some (.ofNat p.line)), ("character", some (.ofNat p.character))]

def Range.json (r : Range) : Json :=
  .ofFields [("start", some r.start.json), ("end", some r.stop.json)]

def Diagnostic.json (d : Diagnostic) : Json :=
  .ofFields
    [ ("range", some d.range.json),
      ("severity", some (.ofNat (severityNumber d.severity))),
      ("code", d.code.map (.str ·.name)),
      ("source", some (.str source)),
      ("message", some (.str d.message)) ]

namespace Outline

def releaseKind : Nat := 3

def groupKind : Nat := 15

end Outline

def GroupSymbol.json (g : GroupSymbol) : Json :=
  .ofFields
    [ ("name", some (.str g.name)),
      ("kind", some (.ofNat Outline.groupKind)),
      ("range", some g.range.json),
      ("selectionRange", some g.selection.json) ]

def ReleaseSymbol.json (r : ReleaseSymbol) : Json :=
  .ofFields
    [ ("name", some (.str r.name)),
      ("detail", r.date.map .str),
      ("kind", some (.ofNat Outline.releaseKind)),
      ("range", some r.range.json),
      ("selectionRange", some r.selection.json),
      ("children", some (.arr (r.groups.map (·.json)))) ]

/-! ## Messages -/

namespace Message

/-- An identifier is an integer of 64 bits, a text or null. -/
def isId : Json → Bool
  | .null | .str _ => true
  | .int n => -0x8000000000000000 ≤ n ∧ n < 0x8000000000000000
  | _ => false

def ofJson? (value : Json) : Option Message := do
  let .str method ← value.field? "method" | none
  let id := value.field? "id"
  guard (id.all isId)
  return ⟨method, id, value.field? "params"⟩

end Message

namespace Result

def serverName : Text :=
  "changelog-ls".toList

def serverVersion : Text :=
  "0.1.0".toList

/-- The whole text is sent with every change. -/
def fullSync : Nat := 1

def json : Result → Json
  | .abilities =>
    .ofFields
      [ ("capabilities", some <| .ofFields
          [ ("textDocumentSync", some (.ofNat fullSync)),
            ("documentSymbolProvider", some (.bool true)) ]),
        ("serverInfo", some <| .ofFields
          [ ("name", some (.str serverName)), ("version", some (.str serverVersion)) ]) ]
  | .nothing => .null
  | .outline symbols => .arr (symbols.map (·.json))

end Result

namespace Failure

def code : Failure → Int
  | .notInitialized => -32002
  | .invalidRequest => -32600
  | .methodNotFound => -32601
  | .invalidParams => -32602

def message : Failure → Text
  | .notInitialized => "Server not initialized".toList
  | .invalidRequest => "Invalid request".toList
  | .methodNotFound => "Method not found".toList
  | .invalidParams => "Invalid params".toList

def json (f : Failure) : Json :=
  .ofFields [("code", some (.int f.code)), ("message", some (.str f.message))]

end Failure

namespace Notice

/-- The number of the kind of log message that tells of the normal course of things. -/
def infoKind : Nat := 3

def method : Notice → Text
  | .ready => "window/logMessage".toList
  | .findings .. => "textDocument/publishDiagnostics".toList

def params : Notice → Json
  | .ready =>
    .ofFields
      [ ("type", some (.ofNat infoKind)),
        ("message", some (.str (Result.serverName ++ " initialized".toList))) ]
  | .findings uri version diagnostics =>
    .ofFields
      [ ("uri", some (.str uri.text)),
        ("diagnostics", some (.arr (diagnostics.map (·.json)))),
        ("version", version.map .int) ]

def json (n : Notice) : Json :=
  .ofFields [("method", some (.str n.method)), ("params", some n.params)]

end Notice

/-- A reply, unless it is silence or the session has exited. -/
def Reply.json? : Reply → Option Json
  | .silence | .exited => none
  | .result id r => some (.ofFields [("id", some id), ("result", some r.json)])
  | .failure id f => some (.ofFields [("id", some id), ("error", some f.json)])

def Reaction.messages (r : Reaction) : List Json :=
  r.notices.map (·.json) ++ r.reply.json?.toList

/-! ## Frames -/

namespace Frame

/-- The length of a message, if this line of its header tells it. -/
def length? (line : Text) : Option Nat := do
  let digits := Text.trim (← Text.after? (line.map Char.toLower) "content-length:".toList)
  guard (!digits.isEmpty && digits.all Char.isDigit)
  return Text.number digits

/-- A message with the version of the protocol. -/
def versioned : Json → Json
  | .obj fields => .obj (("jsonrpc".toList, .ofString "2.0") :: fields)
  | value => value

def write (value : Json) : Bytes :=
  let body := Utf8.encode (Json.compact (versioned value))
  Utf8.encode ("Content-Length: ".toList ++ Text.decimal body.length ++ "\r\n\r\n".toList) ++ body

def read? (body : Bytes) : Option Message := do
  Message.ofJson? (← Json.parse? (← Utf8.decode? body))

end Frame

end ReleaseLog.Editor
