import ReleaseLog.Editor.Encoding
import ReleaseLog.Run

/-!
# The programs

`changelog-lint` checks changelogs. Under the name `changelog-ls` the same program is the language
server. Files are read here, and all else is decided elsewhere.
-/

namespace ReleaseLog.Program

/-! ## Files -/

/-- What was found at a path. -/
inductive Found
  | content (bytes : Bytes)
  | unreadable
  | missing
deriving DecidableEq

def look (p : Path) : IO Found := do
  match p.text? with
  | none => return .missing
  | some name =>
    if !FileSystem.isUsable p then return .missing
    try
      return .content (← IO.FS.readBinFile (String.ofList name)).toList
    catch
      | .permissionDenied .. => return .unreadable
      | _ => return .missing

/-- The state of some paths as a disk. -/
def diskOf (found : Assoc Path Found) : Disk where
  read? p :=
    match found.get? p with
    | some (.content bytes) => some bytes
    | _ => none
  isFile p :=
    match found.get? p with
    | some (.content _) | some .unreadable => true
    | _ => false

def lookAll (paths : List Path) : IO (Assoc Path Found) :=
  paths.mapM fun p => return (p, ← look p)

/-! ## Output -/

def print (s : Text) : IO Unit := do
  let out ← IO.getStdout
  out.putStr (String.ofList s)
  out.flush

/-- Prints what is left of a run, and exits. -/
def finish (run : Run) : IO UInt32 := do
  run.output.forM print
  if let some complaint := run.complaint then
    IO.eprintln (String.ofList complaint)
  return run.status.toUInt32

/-- Complains about a command line that cannot be read. -/
def explain (refusal : CommandLine.Refusal) : IO Unit := do
  unless refusal.message.isEmpty do
    IO.eprintln ("error: " ++ String.ofList refusal.message)

def fail (p : Problem) : IO UInt32 := do
  if let .usage refusal := p then
    explain refusal
  finish (Run.failed [] p)

/-! ## Settings -/

/-- A path in the environment. -/
def pathVariable (name : String) : IO (Option Path) := do
  return (← IO.getEnv name).map (Path.ofText ·.toList)

def settings (words : List Bytes) : IO (Except Problem Settings) := do
  let user :=
    Settings.userDirectory (← pathVariable "XDG_CONFIG_HOME") (← pathVariable "HOME")
  match Arguments.ofWords words with
  | .error refusal => return .error (.usage refusal)
  | .ok args =>
    let found ← lookAll (Settings.candidates ⟨[]⟩ user args)
    return (Settings.resolve (diskOf found) ⟨[]⟩ user args).mapError .settings

/-! ## The linter -/

/-- Time between two looks at the watched files, in milliseconds. -/
def pause : UInt32 := 200

/-- The path without links, if it leads anywhere. -/
def realPath? (p : Path) : IO (Option Path) := do
  match p.text? with
  | none => return none
  | some name =>
    try
      let real ← IO.FS.realPath (String.ofList name)
      return some (Path.ofText real.toString.toList)
    catch _ => return none

/-- The normal path of a file, or the directory that would have to exist. -/
def normalize (p : Path) : IO (Except Path Path) := do
  if let some real ← realPath? p then
    return .ok real
  let parent := p.parent?.getD ⟨[]⟩
  let directory := if parent.isEmpty then Path.ofString "." else parent
  match ← realPath? directory, p.fileName? with
  | some real, some name => return .ok (real.join ⟨name⟩)
  | _, _ => return .error directory

/-- Reports the files that changed since they were looked at, again and again. -/
partial def watch (s : Settings) (before : Assoc Path Found) : IO UInt32 := do
  IO.sleep pause
  let now ← lookAll (before.map (·.1))
  let changed := (before.zip now).filterMap fun (old, new) =>
    if old.2 = new.2 || new.2 = .missing then none else some new.1
  if changed.isEmpty then
    watch s now
  else
    match Run.check (diskOf now) s changed with
    | .error p => fail p
    | .ok (text, _) =>
      print text
      watch s now

def startWatch (s : Settings) : IO UInt32 := do
  let mut files : List Path := []
  for file in s.files do
    match ← normalize file with
    | .ok p => files := files ++ [p]
    | .error directory => return ← fail (.watcher (.unwatchable directory))
  watch s (← lookAll (Path.sortDistinct files))

def lint (words : List Bytes) : IO UInt32 := do
  match ← settings words with
  | .error p => fail p
  | .ok s =>
    match Run.check (diskOf (← lookAll s.files)) s s.files with
    | .error p => fail p
    | .ok (text, clean) =>
      print text
      if s.watch then startWatch s else return (Run.statusOf clean).toUInt32

/-! ## The language server -/

/-- Reads a header up to its empty line, and gives the length that it tells. Gives nothing at the
end of the input. -/
partial def readHeader (input : IO.FS.Stream) (length : Option Nat) : IO (Option Nat) := do
  let line ← input.getLine
  if line.isEmpty then
    return none
  else
    match Text.trim line.toList with
    | [] => return some (length.getD 0)
    | line => readHeader input (Editor.Frame.length? line <|> length)

/-- Reads this many octets, or fewer at the end of the input. -/
partial def readBody (input : IO.FS.Stream) (length : Nat) : IO Bytes := do
  if length = 0 then
    return []
  let chunk ← input.read length.toUSize
  if chunk.isEmpty then
    return []
  return chunk.toList ++ (← readBody input (length - chunk.size))

/-- Receives messages until the input ends or the session has exited. -/
partial def receive (input output : IO.FS.Stream) (session : Editor.Session) : IO Unit := do
  match ← readHeader input none with
  | none => return
  | some length =>
    match Editor.Frame.read? (← readBody input length) with
    | none => receive input output session
    | some message =>
      let (reaction, session) := session.receive message
      for value in reaction.messages do
        output.write ⟨(Editor.Frame.write value).toArray⟩
      output.flush
      unless session.phase = .exited do
        receive input output session

def serve (words : List Bytes) : IO UInt32 := do
  match ← settings words with
  | .error p =>
    if let .usage refusal := p then
      explain refusal
    finish ⟨p.serverStatus, p.output, p.message?.map ("Error: ".toList ++ ·)⟩
  | .ok s =>
    receive (← IO.getStdin) (← IO.getStdout) { rules := s.rules }
    return 0

end ReleaseLog.Program

/-- Runs the program that goes by the name of this one. -/
def main (args : List String) : IO UInt32 := do
  let words := args.map fun arg => ReleaseLog.Utf8.encode arg.toList
  if (← IO.appPath).fileName = some "changelog-ls" then
    ReleaseLog.Program.serve words
  else
    ReleaseLog.Program.lint words
