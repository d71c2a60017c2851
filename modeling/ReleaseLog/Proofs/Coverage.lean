import ReleaseLog.Proofs.Disabling
import ReleaseLog.Proofs.Precedence

/-!
# What a run covers

A run that passes has read a changelog and found it clean, with one exception: a settings file may
write an empty list of files, which is a list all the same. Then no changelog is read, and the run
passes.
-/

namespace ReleaseLog

namespace Settings

variable {disk : Disk} {dir : Path} {user : Option Path} {args : Arguments} {s : Settings}

/-! ## The files of settings -/

/-- The command line names no file, and the settings file writes an empty list of them. -/
def ListsNothing (disk : Disk) (dir : Path) (user : Option Path) (args : Arguments) : Prop :=
  args.files = [] ∧ ∃ path file, Consults disk dir user args (some path) ∧
    SettingsFile.Reads disk path (.ok file) ∧ file.files = some []

/-- The command line names no file, and no settings file writes a list of them. -/
def NamesNothing (disk : Disk) (dir : Path) (user : Option Path) (args : Arguments) : Prop :=
  args.files = [] ∧ ∀ path file, Consults disk dir user args (some path) →
    SettingsFile.Reads disk path (.ok file) → file.files = none

theorem files_combine_eq_nil_iff {source : Option Path} {file : SettingsFile} :
    (combine dir args source file).files = [] ↔ args.files = [] ∧ file.files = some [] := by
  by_cases hargs : args.files = []
  · cases hfiles : file.files <;> simp [combine, hargs, hfiles]
  · simp [combine, hargs]

/-- Settings come from the command line alone, or from the settings file as well. -/
theorem resolve_eq_ok (h : resolve disk dir user args = .ok s) :
    (Consults disk dir user args none ∧ s = combine dir args none {}) ∨
      ∃ path file, Consults disk dir user args (some path) ∧
        SettingsFile.Reads disk path (.ok file) ∧ s = combine dir args (some path) file := by
  obtain ⟨hnothing, hok⟩ | ⟨path, result, hconsults, hreads, hmap⟩ :=
    resolve_cases disk dir user args
  · rw [hok] at h
    exact .inl ⟨hnothing, (Except.ok.inj h).symm⟩
  · rw [hmap] at h
    cases result with
    | error e => cases h
    | ok file => exact .inr ⟨path, file, hconsults, hreads, (Except.ok.inj h).symm⟩

theorem files_eq_nil_iff (h : resolve disk dir user args = .ok s) :
    s.files = [] ↔ ListsNothing disk dir user args := by
  obtain ⟨hconsults, rfl⟩ | ⟨path, file, hconsults, hreads, rfl⟩ := resolve_eq_ok h
  · rw [files_combine_eq_nil_iff]
    refine iff_of_false (by simp) ?_
    rintro ⟨-, path, -, hother, -⟩
    cases hconsults.chosen.symm.trans hother.chosen
  · rw [files_combine_eq_nil_iff, ListsNothing]
    refine and_congr_right fun _ => ⟨fun hfiles => ⟨path, file, hconsults, hreads, hfiles⟩, ?_⟩
    rintro ⟨other, file', hother, hreads', hfiles⟩
    obtain rfl := Option.some.inj (hconsults.chosen.symm.trans hother.chosen)
    obtain rfl := Except.ok.inj (hreads.load.symm.trans hreads'.load)
    exact hfiles

theorem files_eq_default (h : resolve disk dir user args = .ok s)
    (hnames : NamesNothing disk dir user args) : s.files = [dir.join defaultFile] := by
  obtain ⟨-, rfl⟩ | ⟨path, file, hconsults, hreads, rfl⟩ := resolve_eq_ok h
  · exact (combines_combine dir args none {}).usual hnames.1 rfl
  · exact (combines_combine dir args (some path) file).usual hnames.1
      (hnames.2 path file hconsults hreads)

end Settings

/-! ## Runs that pass -/

namespace Run

open Settings (ListsNothing NamesNothing)

theorem settings_of_resolve {disk : Disk} {user : Option Path} {words : List Bytes}
    {args : Arguments} {s : Settings} (hargs : Arguments.ofWords words = .ok args)
    (h : Settings.resolve disk ⟨[]⟩ user args = .ok s) : settings disk user words = .ok s := by
  rw [settings_of_arguments hargs, h]
  rfl

/-- Which files the settings have, and what it means that a run passes. -/
structure Covers (disk : Disk) (dir : Path) (user : Option Path) (args : Arguments)
    (s : Settings) : Prop where
  nothing : s.files = [] ↔ ListsNothing disk dir user args
  usual : NamesNothing disk dir user args → s.files = [dir.join Settings.defaultFile]
  once : ∀ words, dir = ⟨[]⟩ → Arguments.ofWords words = .ok args →
    ((once disk user words).status = 0 ↔ ListsNothing disk dir user args ∨
      (s.files ≠ [] ∧ ∀ path ∈ s.files, Sound disk s.rules path))
  watching : ∀ words, dir = ⟨[]⟩ → Arguments.ofWords words = .ok args →
    ∀ fs changes, disk = fs.disk → (watching fs user words changes).status = 0 →
      ListsNothing disk dir user args ∨
        (s.files ≠ [] ∧ ∀ path ∈ s.files, Sound disk s.rules path)

/-- Where there are settings they have files, unless the settings file writes an empty list. Without
any list the usual changelog is checked. A run that passes has found a changelog clean, unless its
list is empty. -/
theorem passing_covers {disk : Disk} {dir : Path} {user : Option Path} {args : Arguments}
    {s : Settings} (h : Settings.resolve disk dir user args = .ok s) :
    Covers disk dir user args s := by
  have hnil := Settings.files_eq_nil_iff h
  have hsound : (∀ path ∈ s.files, Sound disk s.rules path) ↔ ListsNothing disk dir user args ∨
      (s.files ≠ [] ∧ ∀ path ∈ s.files, Sound disk s.rules path) := by
    rw [← hnil]
    by_cases hfiles : s.files = []
    · simp [hfiles]
    · simp [hfiles]
  refine ⟨hnil, Settings.files_eq_default h, ?_, ?_⟩
  · rintro words rfl hargs
    exact (status_once_eq_zero_iff (settings_of_resolve hargs h)).trans hsound
  · rintro words rfl hargs fs changes rfl hstatus
    exact hsound.mp ((status_watching_eq_zero_iff (settings_of_resolve hargs h)).mp hstatus).1

theorem passing_covers_tidy :
    Settings.resolve tidy.disk ⟨[]⟩ none {} = .ok Settings.default ∧
    Arguments.ofWords [] = .ok {} ∧
    NamesNothing tidy.disk ⟨[]⟩ none {} ∧
    Settings.default.files = [Settings.defaultFile] ∧
    (once tidy.disk none []).status = 0 ∧
    ∀ path ∈ Settings.default.files, Sound tidy.disk Settings.default.rules path := by
  have h : Settings.resolve tidy.disk ⟨[]⟩ none {} = .ok Settings.default := rfl
  have hnothing : Settings.Consults tidy.disk ⟨[]⟩ none {} none := .nothing rfl rfl (by simp)
  have hnames : NamesNothing tidy.disk ⟨[]⟩ none {} :=
    ⟨rfl, fun path _ hother => by cases hnothing.chosen.symm.trans hother.chosen⟩
  have hcovers := passing_covers h
  have hfiles : Settings.default.files = [Settings.defaultFile] := hcovers.usual hnames
  have hstatus : (once tidy.disk none []).status = 0 :=
    (status_once_eq_zero_iff (s := Settings.default) rfl).mpr
      (List.forall_mem_singleton.mpr sound_tidy)
  have hsound := ((hcovers.once [] rfl rfl).mp hstatus).resolve_left (by
    rw [← hcovers.nothing, hfiles]
    simp)
  exact ⟨h, rfl, hnames, hfiles, hstatus, hsound.2⟩

/-! ## An empty list of files -/

/-- A project whose settings file lists no files, and a changelog with a finding. -/
def unlisted : FileSystem :=
  (({} : FileSystem).make Settings.projectFile (.file (Utf8.encode "files = []\n".toList))).make
    Settings.defaultFile (.file (Utf8.encode "<<<<<<< ours\n".toList))

def unlistedSettings : Settings :=
  { Settings.default with files := [], source := some Settings.projectFile }

/-- A run of that project reads no changelog and passes. -/
theorem unlisted_checks_nothing :
    Settings.resolve unlisted.disk ⟨[]⟩ none {} = .ok unlistedSettings ∧
    unlistedSettings.files = [] ∧
    once unlisted.disk none [] =
      ⟨0, ["0 problem(s) in 0 file(s)\n".toList], none⟩ ∧
    ¬ Sound unlisted.disk unlistedSettings.rules Settings.defaultFile := by
  have hconsults : Settings.Consults unlisted.disk ⟨[]⟩ none {} (some Settings.projectFile) :=
    .project rfl (by decide +kernel)
  have hreads : SettingsFile.Reads unlisted.disk Settings.projectFile
      (.ok { files := some [] }) :=
    .settings "files = []\n".toList _ (by decide +kernel) (by decide +kernel)
  have h : Settings.resolve unlisted.disk ⟨[]⟩ none {} = .ok unlistedSettings := by
    simp only [Settings.resolve, hconsults.chosen, hreads.load]
    exact congrArg Except.ok (by decide +kernel)
  refine ⟨h, rfl, ?_, ?_⟩
  · rw [once_of_settings (settings_of_resolve rfl h)]
    rfl
  · rw [sound_iff]
    decide +kernel

end Run

end ReleaseLog
