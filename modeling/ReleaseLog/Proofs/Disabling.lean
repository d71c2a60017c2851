import ReleaseLog.Proofs.CommandLine
import ReleaseLog.Proofs.Exit
import ReleaseLog.Proofs.Selection

/-!
# Disabling rules

To disable rules is to leave out their findings. So a run that passes goes on to pass when more
rules are disabled, watching or not.
-/

namespace ReleaseLog

variable {off : List Rule}

/-! ## Settings -/

/-- The same settings, with these rules off as well. -/
def Settings.disable (s : Settings) (off : List Rule) : Settings :=
  { s with rules := s.rules.disableAll off }

section Resolving

variable {args more : Arguments}

theorem Settings.combine_of_extends (h : args.Extends off more) (dir : Path) (source : Option Path)
    (file : SettingsFile) :
    combine dir more source file = (combine dir args source file).disable off := by
  obtain ⟨disabled, rfl, hdisabled⟩ := h
  have hrules : (file.rules.getD {}).disableAll disabled =
      ((file.rules.getD {}).disableAll args.disabled).disableAll off := by
    rw [RuleSet.disableAll_disableAll]
    exact RuleSet.disableAll_congr _ fun r => by rw [hdisabled, List.mem_append]
  rw [combine, hrules]
  rfl

theorem Settings.resolve_of_extends (h : args.Extends off more) (disk : Disk) (dir : Path)
    (user : Option Path) :
    resolve disk dir user more = (resolve disk dir user args).map (·.disable off) := by
  have hchosen : chosen disk dir user more = chosen disk dir user args := by
    obtain ⟨disabled, rfl, -⟩ := h
    rfl
  rw [resolve, resolve, hchosen]
  cases chosen disk dir user args with
  | none => exact congrArg Except.ok (combine_of_extends h ..)
  | some path =>
      cases hfile : SettingsFile.load disk path with
      | error e => simp only [hfile]; rfl
      | ok file => simp only [hfile, combine_of_extends h]; rfl

end Resolving

namespace Run

open CommandLine (Inserts)

variable {disk : Disk} {fs : FileSystem} {s : Settings} {files : List Path} {user : Option Path}
  {words more : List Bytes} {changes : List Watched.Change}

theorem settings_of_arguments {args : Arguments} (h : Arguments.ofWords words = .ok args) :
    settings disk user words = (Settings.resolve disk ⟨[]⟩ user args).mapError .settings := by
  rw [settings, h]
  rfl

theorem settings_of_refusal {e : CommandLine.Refusal} (h : Arguments.ofWords words = .error e) :
    settings disk user words = .error (.usage e) := by
  rw [settings, h]
  rfl

/-- More options give the same settings with more rules off, or the same problem, unless something
was wrong before. -/
theorem settings_of_inserts (h : Inserts off words more) (disk : Disk) (user : Option Path) :
    (∃ s, settings disk user words = .ok s ∧ settings disk user more = .ok (s.disable off)) ∨
      ∃ p, settings disk user words = .error p ∧
        (p.status = 2 ∨ settings disk user more = .error p) := by
  have hfollows := h.follows
  generalize hwords : Arguments.ofWords words = parsed at hfollows
  generalize hmore : Arguments.ofWords more = parsed' at hfollows
  cases hfollows with
  | parsed hextends =>
      rw [settings_of_arguments hwords, settings_of_arguments hmore,
        Settings.resolve_of_extends hextends]
      cases Settings.resolve disk ⟨[]⟩ user _ with
      | error e => exact .inr ⟨.settings e, rfl, .inr rfl⟩
      | ok s => exact .inl ⟨s, rfl, rfl⟩
  | same e =>
      rw [settings_of_refusal hwords, settings_of_refusal hmore]
      exact .inr ⟨.usage e, rfl, .inr rfl⟩
  | @refused e hanswer =>
      refine .inr ⟨.usage e, settings_of_refusal hwords, .inl ?_⟩
      cases e with
      | help => exact (hanswer (.inl rfl)).elim
      | version => exact (hanswer (.inr rfl)).elim
      | _ => rfl

/-! ## Checks -/

theorem Sound.disableAll {rules : RuleSet} {path : Path} (h : Sound disk rules path)
    (off : List Rule) : Sound disk (rules.disableAll off) path := by
  rw [sound_iff] at h ⊢
  rw [RuleSet.findings_checkContent_disableAll, h, List.filter_nil]

/-- A check that goes through goes through with more rules off, and stays clean. -/
theorem exists_check_disable {text : Text} {clean : Bool}
    (h : check disk s files = .ok (text, clean)) (off : List Rule) :
    ∃ text' clean', check disk (s.disable off) files = .ok (text', clean') ∧
      (clean = true → clean' = true) := by
  obtain ⟨hclean, hnames⟩ := check_eq_ok h
  obtain ⟨text', clean', h'⟩ := exists_check_of_nameable (s := s.disable off) fun hformat path hpath
    hname => (hnames hformat path hpath hname).disableAll off
  refine ⟨text', clean', h', fun htrue => (check_eq_ok h').1.mpr ?_⟩
  intro path hpath
  exact (hclean.mp htrue path hpath).disableAll off

/-! ## Watching -/

/-- What goes on without a problem goes on without one with more rules off. -/
theorem follow_disable {st : Watched} (h : (follow s st changes).2 = none) (off : List Rule) :
    (follow (s.disable off) st changes).2 = none := by
  induction changes generalizing st with
  | nil => rfl
  | cons change rest ih =>
      obtain ⟨next, hnext⟩ | ⟨next, files, hnext⟩ := follow_cons st change
      · rw [hnext] at h ⊢
        exact ih h
      · rw [hnext] at h ⊢
        cases hcheck : check next.fs.disk s files with
        | error p =>
            rw [hcheck] at h
            cases h
        | ok result =>
            obtain ⟨text', clean', hcheck', -⟩ := exists_check_disable hcheck off
            rw [hcheck] at h
            rw [hcheck']
            exact ih h

/-! ## Runs -/

/-- A run that passes goes on to pass with more options that disable rules. -/
theorem status_once_of_inserts (h : Inserts off words more)
    (hpass : (once disk user words).status = 0) : (once disk user more).status = 0 := by
  obtain ⟨s, hwords, hmore⟩ | ⟨p, hwords, hproblem⟩ := settings_of_inserts h disk user
  · rw [status_once_eq_zero_iff hwords] at hpass
    rw [status_once_eq_zero_iff hmore]
    exact fun path hpath => (hpass path hpath).disableAll off
  · rw [once_of_problem hwords] at hpass
    rcases hproblem with hp | hmore
    · exact absurd (hp.symm.trans hpass) (by decide)
    · rw [once_of_problem hmore]
      exact hpass

theorem status_watching_of_inserts (h : Inserts off words more)
    (hpass : (watching fs user words changes).status = 0) :
    (watching fs user more changes).status = 0 := by
  obtain ⟨s, hwords, hmore⟩ | ⟨p, hwords, hproblem⟩ := settings_of_inserts h fs.disk user
  · rw [status_watching_eq_zero_iff hwords] at hpass
    rw [status_watching_eq_zero_iff hmore]
    refine ⟨fun path hpath => (hpass.1 path hpath).disableAll off, ?_⟩
    intro hwatch
    obtain ⟨watcher, hstart, hfollow⟩ := hpass.2 hwatch
    exact ⟨watcher, hstart, follow_disable hfollow off⟩
  · rw [watching_of_problem hwords] at hpass
    rcases hproblem with hp | hmore
    · exact absurd (hp.symm.trans hpass) (by decide)
    · rw [watching_of_problem hmore]
      exact hpass

end Run

/-! ## What disabling does -/

namespace RuleSet

theorem any_rule?_of_mem_findings {rules : RuleSet} {texts : List Text} {f : Finding}
    (h : f ∈ (rules.checkLines texts).findings) (p : Rule → Bool) :
    f.rule?.any p = f.rule?.all p := by
  obtain ⟨r, -, hr⟩ := mem_findings_checkLines.mp h
  rw [Rule.rule?_of_mem_findings hr]
  rfl

/-- What comes of disabling rules. Their findings are left out and nothing else changes, in any
order and however often a rule is disabled. That a changelog is unreadable is no rule's finding, and
is found under all of them. A run that passes goes on to pass. -/
structure LeavesOut (rules : RuleSet) (off : List Rule) : Prop where
  findings : ∀ texts, ((rules.disableAll off).checkLines texts).findings =
    (({} : RuleSet).checkLines texts).findings.filter fun f =>
      f.rule?.any fun r => rules.isOn r && decide (r ∉ off)
  anyOrder : ∀ others, (∀ r, r ∈ others ↔ r ∈ off) → rules.disableAll others = rules.disableAll off
  inOrder : ∀ texts,
    ((rules.disableAll off).checkLines texts).findings.Pairwise Finding.InOrder
  attributed : ∀ (r : Rule) lines, ∀ f ∈ r.findings lines, f.rule? = some r
  content : ∀ (disk : Disk) path,
    ((rules.disableAll off).checkContent path (disk.read? path)).findings =
      (({} : RuleSet).checkContent path (disk.read? path)).findings.filter fun f =>
        f.rule?.all fun r => rules.isOn r && decide (r ∉ off)
  unreadable : ∀ (disk : Disk) path, disk.read? path = none →
    ((rules.disableAll off).checkContent path (disk.read? path)).findings = [.unreadable path]
  once : ∀ words more, CommandLine.Inserts off words more → ∀ disk user,
    (Run.once disk user words).status = 0 → (Run.once disk user more).status = 0
  watching : ∀ words more, CommandLine.Inserts off words more → ∀ fs user changes,
    (Run.watching fs user words changes).status = 0 →
      (Run.watching fs user more changes).status = 0

/-- Disabling rules leaves their findings out, whatever is checked. -/
theorem disableAll_filters (rules : RuleSet) (off : List Rule) : LeavesOut rules off where
  findings := by
    intro texts
    rw [findings_checkLines]
    apply List.filter_congr
    intro f hf
    rw [any_rule?_of_mem_findings hf, keeps_disableAll]
  anyOrder := fun others h => disableAll_congr rules h
  inOrder := fun texts => pairwise_findings_checkLines _ texts
  attributed := fun r lines f hf => Rule.rule?_of_mem_findings hf
  content := by
    intro disk path
    rw [findings_checkContent]
    exact List.filter_congr fun f _ => keeps_disableAll rules off f
  unreadable := by
    intro disk path hread
    rw [hread]
    rfl
  once := fun words more h disk user => Run.status_once_of_inserts h
  watching := fun words more h fs user changes => Run.status_watching_of_inserts h

/-- A release with a blank line between its entries, and below them what a merge left behind. -/
def unmerged : Text :=
  "## [1.0.0] - 2017-06-20\n### Added\n- a\n\n- b\n=======\n".toList

theorem disableAll_filters_unmerged :
    (({} : RuleSet).checkLines unmerged.lines).findings =
      [.mergeLeftover 6 "=======".toList, .strayBlank 4] ∧
    ((({} : RuleSet).disableAll [.whitespace, .whitespace]).checkLines unmerged.lines).findings =
      [.mergeLeftover 6 "=======".toList] ∧
    CommandLine.Inserts [.whitespace] [Settings.defaultFile.bytes]
      [Settings.defaultFile.bytes, Utf8.encode "--disable=whitespace".toList] ∧
    (Run.once Run.tidy.disk none [Settings.defaultFile.bytes]).status = 0 ∧
    (Run.once Run.tidy.disk none
      [Settings.defaultFile.bytes, Utf8.encode "--disable=whitespace".toList]).status = 0 := by
  have hall : (({} : RuleSet).checkLines unmerged.lines).findings =
      [.mergeLeftover 6 "=======".toList, .strayBlank 4] := by decide +kernel
  have hfront : CommandLine.MayPrecede [Settings.defaultFile.bytes] := by
    intro st hst
    cases hst
    exact ⟨by simp [CommandLine.Scan.Settled], rfl⟩
  have hinserts : CommandLine.Inserts [.whitespace] [Settings.defaultFile.bytes]
      [Settings.defaultFile.bytes, Utf8.encode "--disable=whitespace".toList] :=
    .option (.nothing [Settings.defaultFile.bytes]) hfront .attached
  have hpass : (Run.once Run.tidy.disk none [Settings.defaultFile.bytes]).status = 0 :=
    (Run.status_once_eq_zero_iff (s := Settings.default) rfl).mpr
      (List.forall_mem_singleton.mpr Run.sound_tidy)
  have hdisabled := disableAll_filters {} [.whitespace]
  refine ⟨hall, ?_, hinserts, hpass, hdisabled.once _ _ hinserts _ _ hpass⟩
  rw [hdisabled.anyOrder [.whitespace, .whitespace] (by simp), hdisabled.findings, hall]
  decide

end RuleSet

end ReleaseLog
