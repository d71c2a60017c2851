import ReleaseLog.Proofs.Rendering
import ReleaseLog.Run

/-!
# Exit statuses

A run that gets as far as its files exits with zero if all of them are sound. Otherwise it exits
with one, unless it has to name a file in JSON that has no well-formed path. Watching adds nothing
to this but problems.
-/

namespace ReleaseLog.Run

variable {disk : Disk} {s : Settings} {rules : RuleSet} {files : List Path} {path : Path}

/-- The file can be read, and nothing is found in it. -/
def Sound (disk : Disk) (rules : RuleSet) (path : Path) : Prop :=
  ∃ content, disk.read? path = some content ∧
    (rules.checkText (Utf8.decodeLossy content)).findings = []

/-- Each file with findings has a well-formed path. -/
def Nameable (disk : Disk) (rules : RuleSet) (files : List Path) : Prop :=
  ∀ path ∈ files, path.text? = none → Sound disk rules path

theorem nameable_of_sound (h : ∀ path ∈ files, Sound disk rules path) :
    Nameable disk rules files :=
  fun path hpath _ => h path hpath

theorem sound_iff :
    Sound disk rules path ↔ (rules.checkContent path (disk.read? path)).findings = [] := by
  unfold Sound
  cases disk.read? path with
  | none => simp [RuleSet.checkContent]
  | some content => simp [RuleSet.checkContent]

theorem allClean_reports :
    Report.allClean (reports disk rules files) = true ↔ ∀ path ∈ files, Sound disk rules path := by
  simp [Report.allClean, reports, Verdict.isClean, sound_iff]

theorem mem_entries_reports {f : Finding} :
    (path, f) ∈ Report.entries (reports disk rules files) ↔
      path ∈ files ∧ f ∈ (rules.checkContent path (disk.read? path)).findings := by
  rw [Report.mem_entries]
  simp only [reports, List.mem_map, Report.mk.injEq]
  constructor
  · rintro ⟨_, ⟨_, hpath, rfl, rfl⟩, hf⟩
    exact ⟨hpath, hf⟩
  · rintro ⟨hpath, hf⟩
    exact ⟨_, ⟨path, hpath, rfl, rfl⟩, hf⟩

theorem nameable_reports :
    Report.Nameable (reports disk rules files) ↔ Nameable disk rules files := by
  simp only [Report.Nameable, Nameable, Prod.forall, mem_entries_reports, sound_iff,
    List.eq_nil_iff_forall_not_mem]
  constructor
  · intro h path hpath hname f hf
    simpa [hname] using h path f ⟨hpath, hf⟩
  · rintro h path f ⟨hpath, hf⟩
    cases hname : path.text? with
    | none => exact (h path hpath hname f hf).elim
    | some _ => rfl

/-! ## One check -/

/-- The ways in which a check of some files can end. -/
inductive Checked (disk : Disk) (s : Settings) (files : List Path) :
    Except Problem (Text × Bool) → Prop
  | sound (text : Text) (h : ∀ path ∈ files, Sound disk s.rules path) :
      Checked disk s files (.ok (text, true))
  | unsound (text : Text) (h : ¬ ∀ path ∈ files, Sound disk s.rules path)
      (hnames : s.format = .json → Nameable disk s.rules files) :
      Checked disk s files (.ok (text, false))
  | unnameable (e : Report.Error) (hformat : s.format = .json)
      (h : ¬ Nameable disk s.rules files) : Checked disk s files (.error (.report e))

theorem checked_check (disk : Disk) (s : Settings) (files : List Path) :
    Checked disk s files (check disk s files) := by
  have hrender : (∃ text, Report.render s.format (reports disk s.rules files) = .ok text) ↔
      (s.format = .json → Nameable disk s.rules files) := by
    rw [Report.exists_render_iff, nameable_reports]
  rw [check]
  cases hreports : Report.render s.format (reports disk s.rules files) with
  | error e =>
      have hnames : ¬ (s.format = .json → Nameable disk s.rules files) := by
        rw [← hrender, hreports]
        simp
      obtain ⟨hformat, hnames⟩ := Classical.not_imp.mp hnames
      exact .unnameable e hformat hnames
  | ok text =>
      have hnames := hrender.mp ⟨text, hreports⟩
      show Checked disk s files (.ok (text, Report.allClean (reports disk s.rules files)))
      cases hclean : Report.allClean (reports disk s.rules files) with
      | true => exact .sound text (allClean_reports.mp hclean)
      | false => exact .unsound text (by rw [← allClean_reports, hclean]; simp) hnames

theorem check_eq_ok {text : Text} {clean : Bool} (h : check disk s files = .ok (text, clean)) :
    (clean = true ↔ ∀ path ∈ files, Sound disk s.rules path) ∧
      (s.format = .json → Nameable disk s.rules files) := by
  have hchecked := checked_check disk s files
  rw [h] at hchecked
  cases hchecked with
  | sound _ hsound => exact ⟨iff_of_true rfl hsound, fun _ => nameable_of_sound hsound⟩
  | unsound _ hunsound hnames => exact ⟨iff_of_false Bool.false_ne_true hunsound, hnames⟩

theorem exists_check_of_nameable (h : s.format = .json → Nameable disk s.rules files) :
    ∃ text clean, check disk s files = .ok (text, clean) := by
  have hchecked := checked_check disk s files
  generalize check disk s files = result at hchecked ⊢
  cases hchecked with
  | sound text | unsound text => exact ⟨text, _, rfl⟩
  | unnameable _ hformat hnames => exact (hnames (h hformat)).elim

/-! ## One run -/

section Once

variable {user : Option Path} {words : List Bytes}

theorem first_of_settings (h : settings disk user words = .ok s) :
    first disk user words = check disk s s.files >>= fun result => .ok (s, result) := by
  rw [first, h]
  rfl

/-- Where there are no settings, that is the problem. -/
theorem once_of_problem {p : Problem} (h : settings disk user words = .error p) :
    once disk user words = failed [] p := by
  rw [once, first, h]
  rfl

theorem watching_of_problem {fs : FileSystem} {p : Problem}
    (h : settings fs.disk user words = .error p) (changes : List Watched.Change) :
    watching fs user words changes = failed [] p := by
  rw [watching, first, h]
  rfl

theorem once_of_settings (h : settings disk user words = .ok s) :
    once disk user words =
      match check disk s s.files with
      | .error p => failed [] p
      | .ok (text, clean) => ⟨statusOf clean, [text], none⟩ := by
  rw [once, first_of_settings h]
  cases check disk s s.files <;> rfl

theorem watching_of_settings {fs : FileSystem} {changes : List Watched.Change}
    (h : settings fs.disk user words = .ok s) :
    watching fs user words changes =
      match check fs.disk s s.files with
      | .error p => failed [] p
      | .ok (text, clean) =>
        if s.watch then
          match Watcher.start fs s.files with
          | .error e => failed [text] (.watcher e)
          | .ok watcher =>
            match follow s ⟨fs, watcher⟩ changes with
            | (texts, none) => ⟨statusOf clean, text :: texts, none⟩
            | (texts, some p) => failed (text :: texts) p
        else ⟨statusOf clean, [text], none⟩ := by
  rw [watching, first_of_settings h]
  cases check fs.disk s s.files <;> rfl

/-- Without watching, nothing happens after the first check. -/
theorem watching_eq_once {fs : FileSystem} (h : settings fs.disk user words = .ok s)
    (hwatch : s.watch = false) (changes : List Watched.Change) :
    watching fs user words changes = once fs.disk user words := by
  rw [once_of_settings h, watching_of_settings h]
  simp only [hwatch, Bool.false_eq_true, if_false]

/-- The ways in which a run can end that has settings. -/
theorem once_cases (h : settings disk user words = .ok s) :
    (∃ text, once disk user words = ⟨0, [text], none⟩ ∧
      ∀ path ∈ s.files, Sound disk s.rules path) ∨
    (∃ text, once disk user words = ⟨1, [text], none⟩ ∧
      (¬ ∀ path ∈ s.files, Sound disk s.rules path) ∧
      (s.format = .json → Nameable disk s.rules s.files)) ∨
    (∃ e, once disk user words = failed [] (.report e) ∧ s.format = .json ∧
      ¬ Nameable disk s.rules s.files) := by
  rw [once_of_settings h]
  have hchecked := checked_check disk s s.files
  generalize check disk s s.files = result at hchecked ⊢
  cases hchecked with
  | sound text h => exact .inl ⟨text, rfl, h⟩
  | unsound text h hnames => exact .inr (.inl ⟨text, rfl, h, hnames⟩)
  | unnameable e hformat h => exact .inr (.inr ⟨e, rfl, hformat, h⟩)

theorem status_once_eq_zero_iff (h : settings disk user words = .ok s) :
    (once disk user words).status = 0 ↔ ∀ path ∈ s.files, Sound disk s.rules path := by
  obtain ⟨text, honce, hsound⟩ | ⟨text, honce, hunsound, -⟩ | ⟨e, honce, -, hnames⟩ := once_cases h
  · exact iff_of_true (by rw [honce]) hsound
  · exact iff_of_false (by simp [honce]) hunsound
  · exact iff_of_false (by simp [honce, failed, Problem.status]) fun hsound =>
      hnames (nameable_of_sound hsound)

theorem status_once_eq_two_iff (h : settings disk user words = .ok s) :
    (once disk user words).status = 2 ↔ s.format = .json ∧ ¬ Nameable disk s.rules s.files := by
  obtain ⟨text, honce, hsound⟩ | ⟨text, honce, -, hnames⟩ | ⟨e, honce, hformat, hnames⟩ :=
    once_cases h
  · exact iff_of_false (by simp [honce]) fun h => h.2 (nameable_of_sound hsound)
  · exact iff_of_false (by simp [honce]) fun h => h.2 (hnames h.1)
  · exact iff_of_true (by rw [honce]; rfl) ⟨hformat, hnames⟩

theorem status_once_le (h : settings disk user words = .ok s) :
    (once disk user words).status ≤ 2 := by
  obtain ⟨text, honce, -⟩ | ⟨text, honce, -⟩ | ⟨e, honce, -⟩ := once_cases h <;>
    simp [honce, failed, Problem.status]

/-- Where a file cannot be named there is a complaint in place of a report. -/
theorem complaint_once (h : settings disk user words = .ok s)
    (hstatus : (once disk user words).status = 2) :
    (once disk user words).output = [] ∧ (once disk user words).complaint =
      some "changelog-lint: path contains invalid UTF-8 characters".toList := by
  obtain ⟨text, honce, -⟩ | ⟨text, honce, -⟩ | ⟨e, honce, -⟩ := once_cases h
  · simp [honce] at hstatus
  · simp [honce] at hstatus
  · rw [honce]
    exact ⟨rfl, by cases e; rfl⟩

end Once

/-! ## Watching -/

section Watching

variable {fs : FileSystem} {user : Option Path} {words : List Bytes} {changes : List Watched.Change}

/-- One more change either goes by or leads to a check of some files. Which of the two, and which
files, does not depend on the settings. -/
theorem follow_cons (st : Watched) (change : Watched.Change) :
    (∃ next : Watched, ∀ s rest, follow s st (change :: rest) = follow s next rest) ∨
    (∃ (next : Watched) (files : List Path), ∀ s rest, follow s st (change :: rest) =
      match check next.fs.disk s files with
      | .error p => ([], some p)
      | .ok (text, _) => (text :: (follow s next rest).1, (follow s next rest).2)) := by
  cases hafter : st.after? change with
  | none =>
      refine .inl ⟨st, fun s rest => ?_⟩
      rw [follow, hafter]
  | some changed =>
      by_cases hfiles : changed.batch.1 = []
      · refine .inl ⟨changed.batch.2, fun s rest => ?_⟩
        rw [follow, hafter]
        exact if_pos hfiles
      · refine .inr ⟨changed.batch.2, changed.batch.1, fun s rest => ?_⟩
        rw [follow, hafter]
        exact if_neg hfiles

/-- Problems while watching are problems of reports. -/
theorem exists_report_of_follow {st : Watched} {p : Problem}
    (h : (follow s st changes).2 = some p) : ∃ e, p = .report e := by
  induction changes generalizing st with
  | nil => cases h
  | cons change rest ih =>
      obtain ⟨next, hnext⟩ | ⟨next, files, hnext⟩ := follow_cons st change
      · rw [hnext] at h
        exact ih h
      · rw [hnext] at h
        have hchecked := checked_check next.fs.disk s files
        generalize check next.fs.disk s files = result at hchecked h
        cases hchecked with
        | sound | unsound => exact ih h
        | unnameable e => exact ⟨e, (Option.some.inj h).symm⟩

/-- After the first check a run passes if that was clean and, where the run watches its files,
nothing goes wrong with that. -/
theorem status_watching_of_check {text : Text} {clean : Bool}
    (h : settings fs.disk user words = .ok s)
    (hcheck : check fs.disk s s.files = .ok (text, clean)) :
    (watching fs user words changes).status = 0 ↔
      clean = true ∧ (s.watch = true → ∃ watcher, Watcher.start fs s.files = .ok watcher ∧
        (follow s ⟨fs, watcher⟩ changes).2 = none) := by
  rw [watching_of_settings h, hcheck]
  dsimp only
  cases s.watch with
  | false => simp [statusOf]
  | true =>
      cases Watcher.start fs s.files with
      | error e => simp [failed, Problem.status]
      | ok watcher =>
          cases hfollow : follow s ⟨fs, watcher⟩ changes with
          | mk texts problem =>
              cases problem with
              | none => simp [hfollow, statusOf]
              | some p =>
                  obtain ⟨e, rfl⟩ := exists_report_of_follow (congrArg Prod.snd hfollow)
                  simp [hfollow, failed, Problem.status]

theorem status_watching_eq_zero_iff (h : settings fs.disk user words = .ok s) :
    (watching fs user words changes).status = 0 ↔
      (∀ path ∈ s.files, Sound fs.disk s.rules path) ∧
      (s.watch = true → ∃ watcher, Watcher.start fs s.files = .ok watcher ∧
        (follow s ⟨fs, watcher⟩ changes).2 = none) := by
  have hchecked := checked_check fs.disk s s.files
  cases hcheck : check fs.disk s s.files with
  | ok result => rw [status_watching_of_check h hcheck, (check_eq_ok hcheck).1]
  | error p =>
      rw [hcheck] at hchecked
      cases hchecked with
      | unnameable e hformat hnames =>
          rw [watching_of_settings h, hcheck]
          exact iff_of_false (by simp [failed, Problem.status]) fun hsound =>
            hnames (nameable_of_sound hsound.1)

end Watching

/-! ## A tidy changelog -/

def tidy : FileSystem :=
  ({} : FileSystem).make Settings.defaultFile
    (.file (Utf8.encode "## [1.0.0] - 2017-06-20\n### Added\n- x\n".toList))

theorem sound_tidy : Sound tidy.disk {} Settings.defaultFile :=
  ⟨_, rfl, by decide +kernel⟩

/-! ## Without watching -/

/-- What the exit status of a run tells that does not watch its files. -/
structure Tells (s : Settings) (fs : FileSystem) (user : Option Path)
    (changes : List Watched.Change) (run : Run) : Prop where
  sound : run.status = 0 ↔ ∀ path ∈ s.files, Sound fs.disk s.rules path
  unnameable : run.status = 2 ↔ s.format = .json ∧ ¬ Nameable fs.disk s.rules s.files
  complaint : run.status = 2 → run.output = [] ∧ run.complaint =
    some "changelog-lint: path contains invalid UTF-8 characters".toList
  bounded : run.status ≤ 2
  anyFormat : Nameable fs.disk s.rules s.files → ∀ others format,
    settings fs.disk user others = .ok { s with format := format } →
      (watching fs user others changes).status = run.status

/-- The exit status tells whether all files are sound, in either format, as long as JSON can name
those that are not. Else it is that of a problem. -/
theorem status_tells_soundness {fs : FileSystem} {user : Option Path} {words : List Bytes}
    (h : settings fs.disk user words = .ok s) (hwatch : s.watch = false)
    (changes : List Watched.Change) :
    Tells s fs user changes (watching fs user words changes) := by
  rw [watching_eq_once h hwatch changes]
  have hzero := status_once_eq_zero_iff h
  have htwo := status_once_eq_two_iff h
  have hle := status_once_le h
  refine ⟨hzero, htwo, complaint_once h, hle, ?_⟩
  intro hnames others format hothers
  rw [watching_eq_once hothers hwatch changes]
  have hzero' := (status_once_eq_zero_iff hothers).trans hzero.symm
  have hne : (once fs.disk user words).status ≠ 2 := fun h => (htwo.mp h).2 hnames
  have hne' : (once fs.disk user others).status ≠ 2 := fun h =>
    ((status_once_eq_two_iff hothers).mp h).2 hnames
  have hle' := status_once_le hothers
  omega

def askJson : List Bytes :=
  [Utf8.encode "--format=json".toList]

theorem status_of_tidy :
    settings tidy.disk none askJson = .ok { Settings.default with format := .json } ∧
    settings tidy.disk none [] = .ok Settings.default ∧
    Nameable tidy.disk {} [Settings.defaultFile] ∧
    (watching tidy none askJson []).status = 0 ∧
    (watching tidy none [] []).status = (watching tidy none askJson []).status := by
  have hjson : settings tidy.disk none askJson =
      .ok { Settings.default with format := .json } := rfl
  have htext : settings tidy.disk none [] = .ok Settings.default := rfl
  have hnames : Nameable tidy.disk {} [Settings.defaultFile] := by
    simpa [Nameable] using fun _ => sound_tidy
  have htells := status_tells_soundness hjson rfl []
  refine ⟨hjson, htext, hnames, htells.sound.mpr ?_, htells.anyFormat hnames [] .text htext⟩
  exact List.forall_mem_singleton.mpr sound_tidy

/-! ## A malformed path -/

/-- The words that ask for a report on a missing file with a malformed path. -/
def askMalformed (format : Format) : List Bytes :=
  [Utf8.encode "--format".toList, Utf8.encode format.name, [0xFF, 0x2E, 0x6D, 0x64]]

/-- The settings for these words, where there is no settings file. -/
def malformedSettings (format : Format) : Settings :=
  { Settings.default with files := [⟨[0xFF, 0x2E, 0x6D, 0x64]⟩], format }

/-- A missing file with a malformed path is a finding in text and a problem in JSON. -/
theorem status_differs_on_malformed_path :
    settings ({} : FileSystem).disk none (askMalformed .text) = .ok (malformedSettings .text) ∧
    settings ({} : FileSystem).disk none (askMalformed .json) = .ok (malformedSettings .json) ∧
    (watching {} none (askMalformed .text) []).status = 1 ∧
    (watching {} none (askMalformed .json) []).status = 2 :=
  ⟨rfl, rfl, rfl, rfl⟩

end ReleaseLog.Run
