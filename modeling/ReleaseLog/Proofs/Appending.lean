import ReleaseLog.Proofs.Attribution
import ReleaseLog.Proofs.Occurrences
import Mathlib.Data.List.Nodup

/-!
# Appending lines

Lines at the end of a changelog take back nothing that was found before. What one rule finds in the
first lines stays in front, and a repeated version gains lines only.
-/

namespace ReleaseLog

/-- The version that a finding is about. -/
def Finding.version? : Finding → Option Text
  | .repeatedVersion version _ => some version
  | _ => none

theorem Finding.eq_of_version? {f : Finding} {v : Text} (h : f.version? = some v) :
    ∃ lines, f = .repeatedVersion v lines := by
  cases f with
  | repeatedVersion version lines =>
      obtain rfl := Option.some.inj h
      exact ⟨lines, rfl⟩
  | _ => simp [version?] at h

/-- The repeated versions, in verdict order. -/
def Verdict.repeatedVersions (v : Verdict) : List Text :=
  v.findings.filterMap Finding.version?

namespace Check

/-! ## The versions of more lines -/

/-- New versions come after those that were there. -/
theorem versions_append (xs ys : List Line) :
    ∃ fresh, versions (xs ++ ys) = versions xs ++ fresh ∧ ∀ v ∈ fresh, v ∉ versions xs := by
  refine ⟨((ys.filterMap version?).removeAll (xs.filterMap version?)).eraseDups, ?_, ?_⟩
  · rw [versions, List.filterMap_append, List.eraseDups_append]
    rfl
  · intro v hv
    simp only [List.mem_eraseDups, List.removeAll, List.mem_filter] at hv
    simpa [versions] using hv.2

theorem mem_repeatedVersions_append {v : Text} {xs : List Line} (ys : List Line)
    (h : v ∈ repeatedVersions xs) : v ∈ repeatedVersions (xs ++ ys) := by
  rw [mem_repeatedVersions] at h ⊢
  rw [linesOf_append, List.length_append]
  omega

theorem nodup_repeatedVersions (lines : List Line) : (repeatedVersions lines).Nodup :=
  (nodup_versions lines).sublist List.filter_sublist

theorem mem_versions_of_mem_repeatedVersions {v : Text} {lines : List Line}
    (h : v ∈ repeatedVersions lines) : v ∈ versions lines :=
  (List.mem_filter.mp h).1

/-- The versions that were repeated before keep their order. -/
theorem filter_repeatedVersions_append (xs ys : List Line) :
    (repeatedVersions (xs ++ ys)).filter (· ∈ repeatedVersions xs) = repeatedVersions xs := by
  obtain ⟨fresh, hversions, hfresh⟩ := versions_append xs ys
  have hboth : (repeatedVersions (xs ++ ys)).filter (· ∈ repeatedVersions xs) =
      (versions (xs ++ ys)).filter (· ∈ repeatedVersions xs) := by
    rw [show repeatedVersions (xs ++ ys) = (versions (xs ++ ys)).filter _ from rfl,
      List.filter_filter]
    apply List.filter_congr
    intro v _
    by_cases hv : v ∈ repeatedVersions xs
    · have hmore := mem_repeatedVersions.mp (mem_repeatedVersions_append ys hv)
      simp [hv, hmore]
    · simp [hv]
  have hold : (versions xs).filter (· ∈ repeatedVersions xs) = repeatedVersions xs := by
    apply List.filter_congr
    intro v _
    simp [mem_repeatedVersions]
  have hnew : fresh.filter (· ∈ repeatedVersions xs) = [] := by
    apply List.filter_eq_nil_iff.mpr
    intro v hv
    have hnot : v ∉ repeatedVersions xs :=
      fun hmem => hfresh v hv (mem_versions_of_mem_repeatedVersions hmem)
    simp [hnot]
  rw [hboth, hversions, List.filter_append, hold, hnew, List.append_nil]

/-! ## The findings of numbered lines -/

/-- A repeated version has one finding. -/
theorem filter_repeats_ofTexts {texts : List Text} {v : Text}
    (h : v ∈ repeatedVersions (Line.ofTexts texts)) :
    (repeats (Line.ofTexts texts)).filter (·.version? = some v) =
      [.repeatedVersion v (linesOf v (Line.ofTexts texts))] := by
  have honce := List.count_eq_one_of_mem (nodup_repeatedVersions (Line.ofTexts texts)) h
  have hfilter : (repeatedVersions (Line.ofTexts texts)).filter (· = v) = [v] := by
    rw [List.filter_eq, honce]
    rfl
  rw [repeats_ofTexts, List.filter_map]
  simp only [Function.comp_def, Finding.version?, Option.some.injEq, hfilter, List.map_cons,
    List.map_nil]

theorem filterMap_version?_repeats (texts : List Text) :
    (repeats (Line.ofTexts texts)).filterMap Finding.version? =
      repeatedVersions (Line.ofTexts texts) := by
  rw [repeats_ofTexts, List.filterMap_map]
  exact List.filterMap_some

/-- The lines of a version go on after the lines it had. -/
theorem linesOf_ofTexts_append (v : Text) (xs ys : List Text) :
    ∃ more, linesOf v (Line.ofTexts (xs ++ ys)) = linesOf v (Line.ofTexts xs) ++ more ∧
      ∀ n ∈ more, xs.length < n := by
  refine ⟨linesOf v (Line.numberedFrom (1 + xs.length) ys), ?_, ?_⟩
  · rw [Line.ofTexts_append, linesOf_append]
  · intro n hn
    obtain ⟨line, hline, -, rfl⟩ := mem_linesOf.mp hn
    have := (Line.le_number_of_mem_numberedFrom hline).1
    omega

end Check

/-! ## Verdicts -/

namespace Rule

theorem gitConflicts_prefix (xs ys : List Text) :
    gitConflicts.findings (Line.ofTexts xs) <+:
      gitConflicts.findings (Line.ofTexts (xs ++ ys)) := by
  rw [Line.ofTexts_append]
  exact ⟨_, (Check.leftovers_append _ _).symm⟩

theorem whitespace_prefix (xs ys : List Text) :
    whitespace.findings (Line.ofTexts xs) <+: whitespace.findings (Line.ofTexts (xs ++ ys)) := by
  rw [Line.ofTexts_append]
  exact ⟨_, (Check.Context.findings_append {} _ _).symm⟩

end Rule

namespace Verdict

theorem filter_version? (v : Verdict) (version : Text) :
    v.findings.filter (·.version? = some version) =
      (v.ofRule .duplicateVersions).filter (·.version? = some version) := by
  rw [ofRule, List.filter_filter]
  apply List.filter_congr
  intro f _
  by_cases h : f.version? = some version
  · obtain ⟨lines, rfl⟩ := Finding.eq_of_version? h
    simp [Finding.rule?]
  · simp [h]

theorem repeatedVersions_eq (v : Verdict) :
    v.repeatedVersions = (v.ofRule .duplicateVersions).filterMap Finding.version? := by
  rw [repeatedVersions, ofRule, List.filterMap_filter]
  apply List.filterMap_congr
  intro f _
  cases f <;> rfl

end Verdict

namespace RuleSet

theorem ofRule_prefix (rules : RuleSet) {r : Rule} {xs ys : List Text}
    (h : r.findings (Line.ofTexts xs) <+: r.findings (Line.ofTexts ys)) :
    (rules.checkLines xs).ofRule r <+: (rules.checkLines ys).ofRule r := by
  rw [ofRule_checkLines, ofRule_checkLines]
  split
  · exact h
  · exact List.nil_prefix

theorem repeatedVersions_checkLines (rules : RuleSet) (lines : List Text) :
    (rules.checkLines lines).repeatedVersions =
      if rules.isOn .duplicateVersions then Check.repeatedVersions (Line.ofTexts lines)
      else [] := by
  rw [Verdict.repeatedVersions_eq, ofRule_checkLines]
  split
  · exact Check.filterMap_version?_repeats lines
  · rfl

/-- A repeated version gains later lines only. -/
theorem repeatedVersion_checkLines_append {rules : RuleSet} {xs : List Text} {v : Text}
    {ns : List Nat} (h : .repeatedVersion v ns ∈ (rules.checkLines xs).findings)
    (ys : List Text) :
    ∃ more, (∀ n ∈ more, xs.length < n) ∧
      (rules.checkLines (xs ++ ys)).findings.filter (·.version? = some v) =
        [.repeatedVersion v (ns ++ more)] := by
  obtain ⟨r, hon, hmem⟩ := mem_findings_checkLines.mp h
  obtain rfl : r = .duplicateVersions := by simpa [Finding.rule?] using
    (Rule.rule?_of_mem_findings hmem).symm
  obtain ⟨hv, rfl⟩ := Check.mem_repeats_ofTexts.mp hmem
  obtain ⟨more, hlines, hmore⟩ := Check.linesOf_ofTexts_append v xs ys
  refine ⟨more, hmore, ?_⟩
  have hnew : v ∈ Check.repeatedVersions (Line.ofTexts (xs ++ ys)) := by
    rw [Line.ofTexts_append]
    exact Check.mem_repeatedVersions_append _ hv
  rw [Verdict.filter_version?, ofRule_checkLines, if_pos hon, ← hlines]
  exact Check.filter_repeats_ofTexts hnew

/-- Appending lines to a changelog retracts nothing: merge markers and misplaced blank lines stay
in front, repeated versions stay in order and gain later lines. So a clean changelog was clean all
along. -/
theorem checkLines_append_retracts_nothing (rules : RuleSet) (xs ys : List Text) :
    let before := rules.checkLines xs
    let after := rules.checkLines (xs ++ ys)
    before.ofRule .gitConflicts <+: after.ofRule .gitConflicts ∧
      before.ofRule .whitespace <+: after.ofRule .whitespace ∧
      (∀ v ns, .repeatedVersion v ns ∈ before.findings →
        ∃ more, (∀ n ∈ more, xs.length < n) ∧
          after.findings.filter (·.version? = some v) = [.repeatedVersion v (ns ++ more)]) ∧
      after.repeatedVersions.filter (· ∈ before.repeatedVersions) = before.repeatedVersions ∧
      (after.isClean = true → before.isClean = true) := by
  intro before after
  have hconflicts : before.ofRule .gitConflicts <+: after.ofRule .gitConflicts :=
    ofRule_prefix rules (Rule.gitConflicts_prefix xs ys)
  have hspacing : before.ofRule .whitespace <+: after.ofRule .whitespace :=
    ofRule_prefix rules (Rule.whitespace_prefix xs ys)
  have hrepeats : ∀ v ns, .repeatedVersion v ns ∈ before.findings →
      ∃ more, (∀ n ∈ more, xs.length < n) ∧
        after.findings.filter (·.version? = some v) = [.repeatedVersion v (ns ++ more)] :=
    fun v ns h => repeatedVersion_checkLines_append h ys
  refine ⟨hconflicts, hspacing, hrepeats, ?_, ?_⟩
  · simp only [before, after, repeatedVersions_checkLines]
    split
    · rw [Line.ofTexts_append]
      exact Check.filter_repeatedVersions_append _ _
    · rfl
  · intro hclean
    have hnone : after.findings = [] := List.isEmpty_iff.mp hclean
    apply List.isEmpty_iff.mpr
    apply List.eq_nil_iff_forall_not_mem.mpr
    intro f hf
    obtain ⟨r, -, hr⟩ := mem_findings_checkLines.mp hf
    have hrule : f ∈ before.ofRule r :=
      List.mem_filter.mpr ⟨hf, by simp [Rule.rule?_of_mem_findings hr]⟩
    have hempty : ∀ r, after.ofRule r = [] := by
      intro r
      rw [Verdict.ofRule, hnone, List.filter_nil]
    cases r with
    | duplicateVersions =>
        obtain ⟨v, hv, rfl⟩ := List.mem_map.mp hr
        obtain ⟨more, -, hone⟩ := hrepeats _ _ hf
        simp [hnone] at hone
    | gitConflicts =>
        rw [hempty] at hconflicts
        simp [List.prefix_nil.mp hconflicts] at hrule
    | whitespace =>
        rw [hempty] at hspacing
        simp [List.prefix_nil.mp hspacing] at hrule

end RuleSet

end ReleaseLog
