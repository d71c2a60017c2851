import ReleaseLog.Editor.Params

/-!
# Methods

The name of a message decides how it is dealt with. Methods of the protocol that are not supported
differ from names that no one knows: they are refused where the server does not run.
-/

namespace ReleaseLog.Editor

inductive Method
  | start
  | shutdown
  | exit
  | outline
  /-- A request that is not supported, with the fields that its parameters need. -/
  | unsupported (needs : List (String × Params.Need))
  /-- A notification, which is read as an event once addresses can be read. -/
  | notification (event? : (Text → Option Uri) → Json → Option Event)
  /-- A message that any server may ignore. -/
  | optional
  | unknown

namespace Method

open Params (Need)

def document : List (String × Need) :=
  [("textDocument", .document)]

def place : List (String × Need) :=
  document ++ [("position", .position)]

def stretch : List (String × Need) :=
  document ++ [("range", .range)]

def unsupportedRequests : List (String × List (String × Need)) :=
  [ ("textDocument/willSaveWaitUntil", document),
    ("textDocument/declaration", place),
    ("textDocument/definition", place),
    ("textDocument/typeDefinition", place),
    ("textDocument/implementation", place),
    ("textDocument/references", place ++ [("context", .object)]),
    ("textDocument/prepareCallHierarchy", place),
    ("callHierarchy/incomingCalls", [("item", .object)]),
    ("callHierarchy/outgoingCalls", [("item", .object)]),
    ("textDocument/prepareTypeHierarchy", place),
    ("typeHierarchy/supertypes", [("item", .object)]),
    ("typeHierarchy/subtypes", [("item", .object)]),
    ("textDocument/documentHighlight", place),
    ("textDocument/documentLink", document),
    ("documentLink/resolve", [("range", .range)]),
    ("textDocument/hover", place),
    ("textDocument/codeLens", document),
    ("codeLens/resolve", [("range", .range)]),
    ("textDocument/foldingRange", document),
    ("textDocument/selectionRange", document ++ [("positions", .list)]),
    ("textDocument/semanticTokens/full", document),
    ("textDocument/semanticTokens/full/delta", document ++ [("previousResultId", .text)]),
    ("textDocument/semanticTokens/range", stretch),
    ("textDocument/inlineValue", stretch ++ [("context", .object)]),
    ("textDocument/inlayHint", stretch),
    ("inlayHint/resolve", [("position", .position)]),
    ("textDocument/moniker", place),
    ("textDocument/completion", place),
    ("completionItem/resolve", [("label", .text)]),
    ("textDocument/diagnostic", document),
    ("workspace/diagnostic", [("previousResultIds", .list)]),
    ("textDocument/signatureHelp", place),
    ("textDocument/codeAction", stretch ++ [("context", .object)]),
    ("codeAction/resolve", [("title", .text)]),
    ("textDocument/documentColor", document),
    ("textDocument/colorPresentation", stretch ++ [("color", .object)]),
    ("textDocument/formatting", document ++ [("options", .object)]),
    ("textDocument/rangeFormatting", stretch ++ [("options", .object)]),
    ("textDocument/onTypeFormatting", place ++ [("ch", .text), ("options", .object)]),
    ("textDocument/rename", place ++ [("newName", .text)]),
    ("textDocument/prepareRename", place),
    ("textDocument/linkedEditingRange", place),
    ("workspace/symbol", [("query", .text)]),
    ("workspaceSymbol/resolve", [("name", .text)]),
    ("workspace/willCreateFiles", [("files", .list)]),
    ("workspace/willRenameFiles", [("files", .list)]),
    ("workspace/willDeleteFiles", [("files", .list)]),
    ("workspace/executeCommand", [("command", .text)]) ]

/-- The notifications that are read and then ignored. -/
def ignoredNotifications : List String :=
  [ "textDocument/willSave",
    "textDocument/didSave",
    "workspace/didChangeWorkspaceFolders",
    "workspace/didChangeConfiguration",
    "workspace/didChangeWatchedFiles",
    "workspace/didCreateFiles",
    "workspace/didRenameFiles",
    "workspace/didDeleteFiles" ]

/-- The methods of the life cycle and of the documents. -/
def supported : List (String × Method) :=
  [ ("initialize", .start),
    ("shutdown", .shutdown),
    ("exit", .exit),
    ("textDocument/documentSymbol", .outline),
    ("initialized", .notification fun _ => Params.ready?),
    ("textDocument/didOpen", .notification Params.opened?),
    ("textDocument/didChange", .notification Params.changed?),
    ("textDocument/didClose", .notification Params.closed?) ]

def ofName (name : Text) : Method :=
  let isNamed {α : Type} (entry : String × α) : Bool := entry.1.toList == name
  match supported.find? isNamed, unsupportedRequests.find? isNamed with
  | some (_, method), _ => method
  | none, some (_, needs) => .unsupported needs
  | none, none =>
    if ignoredNotifications.any (·.toList == name) then .notification fun _ _ => none
    else if name.startsWith "$/".toList then .optional
    else .unknown

end Method

end ReleaseLog.Editor
