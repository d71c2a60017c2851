import ReleaseLog.FileSystem.Change
import ReleaseLog.Proofs.Text.Decoded
import ReleaseLog.Settings

/-!
# Where settings come from

A run consults one settings file at most. One that cannot be used ends the run, and no other file
and no default stands in for it. Each setting is taken from the command line, else from the settings
file, else it is the default.
-/

namespace ReleaseLog

/-! ## Files -/

/-- A path leads to a file, through links if there are any. -/
theorem FileSystem.isFile_iff {fs : FileSystem} {path : Path} :
    fs.isFile path = true ↔ ∃ place content,
      fs.locate? path = some place ∧ fs.node? place = some (.file content) := by
  simp only [isFile, read?]
  cases hplace : fs.locate? path with
  | none => simp
  | some place =>
      cases hnode : fs.node? place with
      | none => simp [hnode]
      | some node => cases node <;> simp [hnode]

namespace SettingsFile

/-- What reading the settings file at a path can come to. -/
inductive Reads (disk : Disk) (path : Path) : Except Error SettingsFile → Prop
  | unreadable (h : ∀ s, disk.read? path ≠ some (Utf8.encode s)) :
      Reads disk path (.error (.unreadable path))
  | malformed (s : Text) (h : disk.read? path = some (Utf8.encode s)) (hs : ofText? s = none) :
      Reads disk path (.error (.malformed path))
  | settings (s : Text) (file : SettingsFile) (h : disk.read? path = some (Utf8.encode s))
      (hs : ofText? s = some file) : Reads disk path (.ok file)

/-- A file is read as a text if it has the octets of that text. -/
theorem bind_decode?_eq_some_iff {read : Option Bytes} {s : Text} :
    read.bind Utf8.decode? = some s ↔ read = some (Utf8.encode s) := by
  simp [Option.bind_eq_some_iff, Utf8.decode?_eq_some_iff]

theorem reads_load (disk : Disk) (path : Path) : Reads disk path (load disk path) := by
  rw [load]
  cases hread : (disk.read? path).bind Utf8.decode? with
  | none =>
      refine .unreadable fun s hs => ?_
      rw [bind_decode?_eq_some_iff.mpr hs] at hread
      cases hread
  | some s =>
      have hbytes := bind_decode?_eq_some_iff.mp hread
      dsimp only
      cases hfile : ofText? s with
      | none => exact .malformed s hbytes hfile
      | some file => exact .settings s file hbytes hfile

theorem Reads.load {disk : Disk} {path : Path} {result : Except Error SettingsFile}
    (h : Reads disk path result) : SettingsFile.load disk path = result := by
  cases h with
  | unreadable h =>
      have hnone : (disk.read? path).bind Utf8.decode? = none :=
        Option.eq_none_iff_forall_ne_some.mpr fun s hs => h s (bind_decode?_eq_some_iff.mp hs)
      rw [SettingsFile.load, hnone]
  | malformed s h hs => simp only [SettingsFile.load, bind_decode?_eq_some_iff.mpr h, hs]
  | settings s file h hs => simp only [SettingsFile.load, bind_decode?_eq_some_iff.mpr h, hs]

theorem reads_iff {disk : Disk} {path : Path} {result : Except Error SettingsFile} :
    Reads disk path result ↔ load disk path = result :=
  ⟨Reads.load, fun h => h ▸ reads_load disk path⟩

end SettingsFile

namespace Settings

variable {disk : Disk} {dir : Path} {user : Option Path} {args : Arguments}

/-! ## The settings file -/

/-- The settings file to consult: the one that the command line names, else that of the project,
else that of the user. -/
inductive Consults (disk : Disk) (dir : Path) (user : Option Path) (args : Arguments) :
    Option Path → Prop
  | named (path : Path) (h : args.config = some path) :
      Consults disk dir user args (some (dir.join path))
  | project (h : args.config = none) (hproject : disk.isFile (dir.join projectFile) = true) :
      Consults disk dir user args (some (dir.join projectFile))
  | user (base : Path) (h : args.config = none)
      (hproject : disk.isFile (dir.join projectFile) = false) (hbase : user = some base)
      (huser : disk.isFile (userFile base) = true) :
      Consults disk dir user args (some (userFile base))
  | nothing (h : args.config = none) (hproject : disk.isFile (dir.join projectFile) = false)
      (huser : ∀ base, user = some base → disk.isFile (userFile base) = false) :
      Consults disk dir user args none

theorem consults_chosen (disk : Disk) (dir : Path) (user : Option Path) (args : Arguments) :
    Consults disk dir user args (chosen disk dir user args) := by
  rw [chosen]
  cases hconfig : args.config with
  | some path => exact .named path hconfig
  | none =>
      simp only [discover]
      by_cases hproject : disk.isFile (dir.join projectFile) = true
      · rw [if_pos hproject]
        exact .project hconfig hproject
      · rw [if_neg hproject]
        have hproject := Bool.eq_false_iff.mpr hproject
        cases user with
        | none => exact .nothing hconfig hproject (by simp)
        | some base =>
            by_cases huser : disk.isFile (userFile base) = true
            · simp only [if_pos huser]
              exact .user base hconfig hproject rfl huser
            · simp only [if_neg huser]
              exact .nothing hconfig hproject (by simpa using huser)

theorem Consults.chosen {source : Option Path} (h : Consults disk dir user args source) :
    Settings.chosen disk dir user args = source := by
  cases h with
  | named path h => rw [Settings.chosen, h]
  | project h hproject => simp only [Settings.chosen, h, discover, if_pos hproject]
  | user base h hproject hbase huser => simp [Settings.chosen, h, discover, hproject, hbase, huser]
  | nothing h hproject huser =>
      cases user with
      | none => simp [Settings.chosen, h, discover, hproject]
      | some base => simp [Settings.chosen, h, discover, hproject, huser base rfl]

theorem consults_iff {source : Option Path} :
    Consults disk dir user args source ↔ chosen disk dir user args = source :=
  ⟨Consults.chosen, fun h => h ▸ consults_chosen disk dir user args⟩

/-! ## One setting after the other -/

/-- A value comes from the command line, else from the settings file, else it is the default. -/
inductive Prefers {α : Type} (usual : α) : (given written : Option α) → α → Prop
  | given (a : α) (written : Option α) : Prefers usual (some a) written a
  | written (a : α) : Prefers usual none (some a) a
  | usual : Prefers usual none none usual

theorem prefers_getD_orElse {α : Type} (usual : α) (given written : Option α) :
    Prefers usual given written ((given <|> written).getD usual) := by
  cases given with
  | some a => exact .given a written
  | none =>
      cases written with
      | some a => exact .written a
      | none => exact .usual

/-- What settings owe to the command line and to the settings file. -/
structure Combines (dir : Path) (args : Arguments) (source : Option Path) (file : SettingsFile)
    (s : Settings) : Prop where
  source : s.source = source
  format : Prefers .text args.format file.format s.format
  logLevel : Prefers defaultLogLevel args.logLevel file.logLevel s.logLevel
  rules : ∀ r, s.rules.isOn r = true ↔
    (∀ rules, file.rules = some rules → rules.isOn r = true) ∧ r ∉ args.disabled
  watch : s.watch = args.watch
  named : args.files ≠ [] → s.files = args.files.map dir.join
  listed : args.files = [] → ∀ files, file.files = some files → files ≠ [] →
    s.files = files.map dir.join
  usual : args.files = [] → file.files = none → s.files = [dir.join defaultFile]

theorem combines_combine (dir : Path) (args : Arguments) (source : Option Path)
    (file : SettingsFile) : Combines dir args source file (combine dir args source file) where
  source := rfl
  format := prefers_getD_orElse ..
  logLevel := prefers_getD_orElse ..
  rules := fun r => by
    have hrules : (file.rules.getD {}).isOn r = true ↔
        ∀ rules, file.rules = some rules → rules.isOn r = true := by
      cases file.rules <;> simp
    rw [combine, RuleSet.isOn_disableAll, Bool.and_eq_true, hrules, decide_eq_true_iff]
  watch := rfl
  named := fun h => by simp [combine, h]
  listed := fun h files hfiles _ => by simp [combine, h, hfiles]
  usual := fun h hfiles => by simp [combine, h, hfiles]

/-! ## Settings -/

/-- The settings, or the reason why there are none, that the consulted file leads to. -/
inductive Resolves (disk : Disk) (dir : Path) (user : Option Path) (args : Arguments) :
    Except SettingsFile.Error Settings → Prop
  | plain (s : Settings) (h : Consults disk dir user args none) (hs : Combines dir args none {} s) :
      Resolves disk dir user args (.ok s)
  | refused (path : Path) (e : SettingsFile.Error) (h : Consults disk dir user args (some path))
      (he : SettingsFile.Reads disk path (.error e)) : Resolves disk dir user args (.error e)
  | loaded (path : Path) (file : SettingsFile) (s : Settings)
      (h : Consults disk dir user args (some path))
      (hfile : SettingsFile.Reads disk path (.ok file))
      (hs : Combines dir args (some path) file s) : Resolves disk dir user args (.ok s)

/-- Without a settings file the command line decides alone. Else the file can be used or not. -/
theorem resolve_cases (disk : Disk) (dir : Path) (user : Option Path) (args : Arguments) :
    (Consults disk dir user args none ∧
      resolve disk dir user args = .ok (combine dir args none {})) ∨
    ∃ path result, Consults disk dir user args (some path) ∧
      SettingsFile.Reads disk path result ∧
      resolve disk dir user args = result.map (combine dir args (some path)) := by
  have hconsults := consults_chosen disk dir user args
  rw [resolve]
  cases hchosen : chosen disk dir user args with
  | none => exact .inl ⟨hchosen ▸ hconsults, rfl⟩
  | some path =>
      refine .inr ⟨path, _, hchosen ▸ hconsults, SettingsFile.reads_load disk path, ?_⟩
      dsimp only
      cases SettingsFile.load disk path <;> rfl

theorem resolves_resolve (disk : Disk) (dir : Path) (user : Option Path) (args : Arguments) :
    Resolves disk dir user args (resolve disk dir user args) := by
  obtain ⟨hnothing, h⟩ | ⟨path, result, hconsults, hreads, h⟩ := resolve_cases disk dir user args
  · rw [h]
    exact .plain _ hnothing (combines_combine ..)
  · rw [h]
    cases result with
    | error e => exact .refused path e hconsults hreads
    | ok file => exact .loaded path file _ hconsults hreads (combines_combine ..)

theorem resolve_eq_error_iff {e : SettingsFile.Error} :
    resolve disk dir user args = .error e ↔
      ∃ path, Consults disk dir user args (some path) ∧
        SettingsFile.Reads disk path (.error e) := by
  simp only [consults_iff, SettingsFile.reads_iff]
  rw [resolve]
  cases chosen disk dir user args with
  | none => simp
  | some path => cases hload : SettingsFile.load disk path <;> simp [hload]

/-- Nothing but the choice of the settings file and its content matters. -/
theorem resolve_congr {other : Disk} {source : Option Path}
    (h : Consults disk dir user args source) (hother : Consults other dir user args source)
    (hread : ∀ path, source = some path → other.read? path = disk.read? path) :
    resolve other dir user args = resolve disk dir user args := by
  rw [resolve, resolve, h.chosen, hother.chosen]
  cases source with
  | none => rfl
  | some path => simp only [SettingsFile.load, hread path rfl]

/-- How settings are found. One settings file is consulted or none, and each setting is taken from
where it should be. This fails exactly if the file cannot be used, whatever else there is. Other
files do not matter, apart from whether they are there to be chosen. -/
structure Precedence (disk : Disk) (dir : Path) (user : Option Path) (args : Arguments) : Prop where
  consults : ∃ source, ∀ other, Consults disk dir user args other ↔ other = source
  resolves : Resolves disk dir user args (resolve disk dir user args)
  refused : ∀ e, resolve disk dir user args = .error e ↔
    ∃ path, Consults disk dir user args (some path) ∧ SettingsFile.Reads disk path (.error e)
  same : ∀ (other : Disk) source, Consults disk dir user args source →
    Consults other dir user args source →
    (∀ path, source = some path → other.read? path = disk.read? path) →
    resolve other dir user args = resolve disk dir user args
  isFile : ∀ (fs : FileSystem) path, fs.disk.isFile path = true ↔ ∃ place content,
    fs.locate? path = some place ∧ fs.node? place = some (.file content)

theorem resolve_precedence (disk : Disk) (dir : Path) (user : Option Path) (args : Arguments) :
    Precedence disk dir user args where
  consults := ⟨chosen disk dir user args, fun _ => consults_iff.trans eq_comm⟩
  resolves := resolves_resolve ..
  refused := fun _ => resolve_eq_error_iff
  same := fun _ _ h hother hread => resolve_congr h hother hread
  isFile := fun _ _ => FileSystem.isFile_iff

/-! ## A project and a user -/

def work : Path :=
  .ofString "/work"

def home : Path :=
  .ofString "/home/.config"

def written : Text :=
  "files = [\"a.md\", \"/b.md\"]\nformat = \"json\"\nrules = [true, false]\n".toList

/-- A project with a link to its settings. -/
def project : FileSystem :=
  (({} : FileSystem).make (.ofString "/work/lint.toml") (.file (Utf8.encode written))).make
    (work.join projectFile) (.link (.ofString "lint.toml"))

/-- The same project, and a user whose settings are malformed. -/
def shared : FileSystem :=
  project.make (userFile home) (.file (Utf8.encode "format = 1\n".toList))

/-- Arguments that override the settings of the project in part. -/
def narrowed : Arguments :=
  { disabled := [.whitespace], logLevel := some "debug".toList }

theorem shared_precedence :
    Consults project.disk work (some home) narrowed (some (work.join projectFile)) ∧
    Consults shared.disk work (some home) narrowed (some (work.join projectFile)) ∧
    resolve shared.disk work (some home) narrowed = .ok
      { files := [.ofString "/work/a.md", .ofString "/b.md"]
        format := .json
        rules := ⟨true, false, false⟩
        watch := false
        logLevel := "debug".toList
        source := some (.ofString "/work/.changelog-lint.toml") } ∧
    resolve shared.disk work (some home) { narrowed with config := some (userFile home) } =
      .error (.malformed (userFile home)) := by
  have hproject : Consults project.disk work (some home) narrowed (some (work.join projectFile)) :=
    .project rfl (by decide +kernel)
  have hshared : Consults shared.disk work (some home) narrowed (some (work.join projectFile)) :=
    .project rfl (by decide +kernel)
  have hread : shared.disk.read? (work.join projectFile) =
      project.disk.read? (work.join projectFile) := by decide +kernel
  have hreads : SettingsFile.Reads project.disk (work.join projectFile) (.ok
      { files := some [.ofString "a.md", .ofString "/b.md"]
        format := some .json
        rules := some ⟨true, false, true⟩ }) :=
    .settings written _ (by decide +kernel) (by decide +kernel)
  have hsame := (resolve_precedence project.disk work (some home) narrowed).same
  refine ⟨hproject, hshared, ?_, ?_⟩
  · rw [hsame shared.disk _ hproject hshared (by rintro _ ⟨⟩; exact hread)]
    simp only [resolve, hproject.chosen, hreads.load]
    exact congrArg Except.ok (by decide +kernel)
  · have hrefused := (resolve_precedence shared.disk work (some home)
      { narrowed with config := some (userFile home) }).refused
    exact (hrefused _).mpr ⟨userFile home, .named (userFile home) rfl,
      .malformed "format = 1\n".toList (by decide +kernel) (by decide +kernel)⟩

end Settings

end ReleaseLog
