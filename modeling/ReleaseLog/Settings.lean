import ReleaseLog.CommandLine
import ReleaseLog.Settings.File

/-!
# Settings

The command line goes before the settings file, and the settings file before the defaults.
-/

namespace ReleaseLog

/-- What a run works with. -/
structure Settings where
  files : List Path
  format : Format
  rules : RuleSet
  watch : Bool
  logLevel : Text
  /-- The settings file that was used, if there is one. -/
  source : Option Path
deriving DecidableEq, Repr

namespace Settings

def projectFile : Path :=
  .ofString ".changelog-lint.toml"

/-- The settings file of a user, below the directory of the user's settings. -/
def userFile (user : Path) : Path :=
  (user.join (.ofString "changelog-lint")).join (.ofString "config.toml")

/-- The directory of the user's settings: the one that the environment names by an absolute path,
else the usual one in the home directory. -/
def userDirectory (configured home : Option Path) : Option Path :=
  match configured.filter (·.isAbsolute) with
  | some dir => some dir
  | none => home.map (·.join (.ofString ".config"))

/-- The changelog that is checked where nothing names another one. -/
def defaultFile : Path :=
  .ofString "CHANGELOG.md"

def defaultLogLevel : Text :=
  "info".toList

/-- The settings file that applies to a directory: that of the project, else that of the user. -/
def discover (disk : Disk) (dir : Path) (user : Option Path) : Option Path :=
  if disk.isFile (dir.join projectFile) then some (dir.join projectFile)
  else
    match user with
    | none => none
    | some user => if disk.isFile (userFile user) then some (userFile user) else none

/-- The settings file that these arguments choose. One that they name need not exist. -/
def chosen (disk : Disk) (dir : Path) (user : Option Path) (args : Arguments) : Option Path :=
  match args.config with
  | some path => some (dir.join path)
  | none => discover disk dir user

/-- The settings files that these arguments may choose from. -/
def candidates (dir : Path) (user : Option Path) (args : Arguments) : List Path :=
  match args.config with
  | some path => [dir.join path]
  | none => dir.join projectFile :: (user.map userFile).toList

/-- The settings of arguments and of what the settings file says. An empty list of files in the
settings file is a list all the same. -/
def combine (dir : Path) (args : Arguments) (source : Option Path) (file : SettingsFile) :
    Settings where
  files :=
    (if args.files = [] then file.files.getD [defaultFile] else args.files).map dir.join
  format := (args.format <|> file.format).getD .text
  rules := (file.rules.getD {}).disableAll args.disabled
  watch := args.watch
  logLevel := (args.logLevel <|> file.logLevel).getD defaultLogLevel
  source := source

def resolve (disk : Disk) (dir : Path) (user : Option Path) (args : Arguments) :
    Except SettingsFile.Error Settings :=
  match chosen disk dir user args with
  | none => .ok (combine dir args none {})
  | some path =>
    match SettingsFile.load disk path with
    | .error e => .error e
    | .ok file => .ok (combine dir args (some path) file)

/-- The settings where nothing else is said. -/
def default : Settings :=
  combine ⟨[]⟩ {} none {}

end Settings

end ReleaseLog
