import ReleaseLog.FileSystem.Basic
import ReleaseLog.Report
import ReleaseLog.Toml.Document

/-!
# Settings files

A settings file is a TOML document with four keys, all of them optional. An unknown key or a value
of the wrong kind makes the whole file malformed.
-/

namespace ReleaseLog

namespace RuleSet

def set (rules : RuleSet) (on : Bool) : Rule → RuleSet
  | .duplicateVersions => { rules with duplicateVersions := on }
  | .gitConflicts => { rules with gitConflicts := on }
  | .whitespace => { rules with whitespace := on }

theorem isOn_set (rules : RuleSet) (on : Bool) (r s : Rule) :
    (rules.set on r).isOn s = if s = r then on else rules.isOn s := by
  cases r <;> cases s <;> rfl

def ofEntries? (entries : Toml.Entries) : Option RuleSet :=
  entries.foldlM (fun rules (key, value) => do
    return rules.set (← value.bool?) (← Rule.ofName? key)) {}

/-- The rule set that an array writes, one item for each rule in order. Rules without an item are
on, and further items mean nothing. -/
def ofItems? (items : List Toml) : Option RuleSet :=
  (Rule.all.zip items).foldlM (fun rules (r, value) => do return rules.set (← value.bool?) r) {}

/-- The rule set that a value writes. -/
def ofToml? (value : Toml) : Option RuleSet :=
  (value.entries?.bind ofEntries?) <|> (value.items?.bind ofItems?)

end RuleSet

namespace Format

/-- The value carries nothing. -/
def isEmptyToml (value : Toml) : Bool :=
  (value.entries?.any (·.isEmpty)) || (value.items?.any (·.isEmpty))

/-- The format that a value writes: its name, or a table with the name as its only key and nothing
in it. -/
def ofToml? (value : Toml) : Option Format :=
  match value.string?, value.entries? with
  | some name, _ => ofName? name
  | none, some [(name, content)] => if isEmptyToml content then ofName? name else none
  | none, _ => none

end Format

structure SettingsFile where
  files : Option (List Path) := none
  format : Option Format := none
  logLevel : Option Text := none
  rules : Option RuleSet := none
deriving DecidableEq, Repr

namespace SettingsFile

def paths? (value : Toml) : Option (List Path) := do
  (← value.items?).mapM fun item => item.string?.map Path.ofText

/-- Takes in one entry of the document. -/
def addEntry? (file : SettingsFile) (key : Text) (value : Toml) : Option SettingsFile :=
  if key = "files".toList then (paths? value).map ({ file with files := some · })
  else if key = "format".toList then (Format.ofToml? value).map ({ file with format := some · })
  else if key = "log-level".toList then value.string?.map ({ file with logLevel := some · })
  else if key = "rules".toList then (RuleSet.ofToml? value).map ({ file with rules := some · })
  else none

def ofEntries? (entries : Toml.Entries) : Option SettingsFile :=
  entries.foldlM (fun file (key, value) => file.addEntry? key value) {}

def ofText? (s : Text) : Option SettingsFile := do
  ofEntries? (← Toml.parse? s)

inductive Error
  /-- There is no such file, or it is no text. -/
  | unreadable (path : Path)
  /-- The text is no settings file. -/
  | malformed (path : Path)
deriving DecidableEq, Repr

def Error.message : Error → Text
  | .unreadable path => "Failed to read config file: ".toList ++ path.display
  | .malformed path => "Failed to parse config file: ".toList ++ path.display

def load (disk : Disk) (path : Path) : Except Error SettingsFile :=
  match (disk.read? path).bind Utf8.decode? with
  | none => .error (.unreadable path)
  | some s =>
    match ofText? s with
    | none => .error (.malformed path)
    | some file => .ok file

end SettingsFile

end ReleaseLog
