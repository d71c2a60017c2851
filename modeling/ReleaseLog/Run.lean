import ReleaseLog.Check
import ReleaseLog.Settings
import ReleaseLog.Watcher

/-!
# Runs of the linter

A run checks its files once. When it watches them it goes on, and checks the changed files after
every change.
-/

namespace ReleaseLog

inductive Problem
  | usage (refusal : CommandLine.Refusal)
  | settings (error : SettingsFile.Error)
  | report (error : Report.Error)
  | watcher (error : Watcher.Error)
deriving DecidableEq, Repr

namespace Problem

def helpText : Text :=
  List.flatMap String.toList
    [ "Lint Keep-a-Changelog style CHANGELOG files\n\n",
      "Usage: changelog-lint [OPTIONS] [FILES]...\n\n",
      "Arguments:\n",
      "  [FILES]...  Changelog files to check (default: CHANGELOG.md)\n\n",
      "Options:\n",
      "      --config <CONFIG>           Configuration file (default: ./.changelog-lint.toml)\n",
      "      --format <FORMAT>           Output format [possible values: text, json]\n",
      "      --watch                     Re-check files whenever they change\n",
      "      --disable <DISABLED_RULES>  Disable a rule (repeatable) [possible values: ",
      "duplicate-versions, git-conflicts, whitespace]\n",
      "      --log-level <LOG_LEVEL>     Log level (trace, debug, info, warn, error) ",
      "[default: info]\n",
      "  -h, --help                      Print help\n",
      "  -V, --version                   Print version\n" ]

def versionText : Text :=
  "changelog-lint 0.1.0\n".toList

/-- What a run prints that ends this way. -/
def output : Problem → List Text
  | .usage .help => [helpText]
  | .usage .version => [versionText]
  | _ => []

/-- What went wrong, except for the words of a command line. -/
def message? : Problem → Option Text
  | .usage _ => none
  | .settings e => some e.message
  | .report e => some e.message
  | .watcher e => some e.message

/-- The exit status of a run that ends this way. Asking for help is no failure. -/
def status : Problem → Nat
  | .usage .help | .usage .version => 0
  | _ => 2

/-- The exit status of a language server that cannot start. -/
def serverStatus : Problem → Nat
  | .usage .help | .usage .version => 0
  | .usage _ => 2
  | _ => 1

end Problem

/-- A run as seen from outside: its exit status, what it printed piece by piece, and what it
complained about. -/
structure Run where
  status : Nat
  output : List Text
  complaint : Option Text := none
deriving DecidableEq, Repr

namespace Run

def settings (disk : Disk) (user : Option Path) (words : List Bytes) :
    Except Problem Settings := do
  let args ← (Arguments.ofWords words).mapError .usage
  (Settings.resolve disk ⟨[]⟩ user args).mapError .settings

def reports (disk : Disk) (rules : RuleSet) (files : List Path) : List Report :=
  files.map fun path => ⟨path, rules.checkContent path (disk.read? path)⟩

/-- The written reports on files, and whether all of them are clean. -/
def check (disk : Disk) (s : Settings) (files : List Path) : Except Problem (Text × Bool) := do
  let reports := reports disk s.rules files
  let text ← (Report.render s.format reports).mapError .report
  return (text, Report.allClean reports)

/-- The settings for these words, and the first check. -/
def first (disk : Disk) (user : Option Path) (words : List Bytes) :
    Except Problem (Settings × Text × Bool) := do
  let s ← settings disk user words
  return (s, ← check disk s s.files)

/-- A run whose files are clean exits with zero, any other with one. -/
def statusOf (clean : Bool) : Nat :=
  if clean then 0 else 1

/-- A run that ends with a problem after it printed something. -/
def failed (printed : List Text) (p : Problem) : Run :=
  ⟨p.status, printed ++ p.output, p.message?.map ("changelog-lint: ".toList ++ ·)⟩

def once (disk : Disk) (user : Option Path) (words : List Bytes) : Run :=
  match first disk user words with
  | .error p => failed [] p
  | .ok (_, text, clean) => ⟨statusOf clean, [text], none⟩

/-- The reports after each of some changes, up to a problem. A change that fails or that no watched
file has part in brings no report. -/
def follow (s : Settings) : Watched → List Watched.Change → List Text × Option Problem
  | _, [] => ([], none)
  | st, change :: rest =>
    match st.after? change with
    | none => follow s st rest
    | some st =>
      let (files, st) := st.batch
      if files = [] then follow s st rest
      else
        match check st.fs.disk s files with
        | .error p => ([], some p)
        | .ok (text, _) =>
          let (texts, p) := follow s st rest
          (text :: texts, p)

/-- A run over a file system that changes until the run is interrupted. The first check decides the
exit status. -/
def watching (fs : FileSystem) (user : Option Path) (words : List Bytes)
    (changes : List Watched.Change) : Run :=
  match first fs.disk user words with
  | .error p => failed [] p
  | .ok (s, text, clean) =>
    if s.watch then
      match Watcher.start fs s.files with
      | .error e => failed [text] (.watcher e)
      | .ok watcher =>
        match follow s ⟨fs, watcher⟩ changes with
        | (texts, none) => ⟨statusOf clean, text :: texts, none⟩
        | (texts, some p) => failed (text :: texts) p
    else ⟨statusOf clean, [text], none⟩

end Run

end ReleaseLog
