import ReleaseLog.Check
import ReleaseLog.Proofs.Spacing

/-!
# Findings by rule

Each rule makes findings of its own only, so that a verdict falls apart into the findings of the
rules that are on.
-/

namespace ReleaseLog

def Verdict.ofRule (v : Verdict) (r : Rule) : List Finding :=
  v.findings.filter (·.rule? = some r)

namespace Rule

theorem exists_flaw_of_mem_findings {lines : List Text} {f : Finding}
    (h : f ∈ whitespace.findings (Line.ofTexts lines)) :
    ∃ front text back, lines = front ++ text :: back ∧
      (Check.Context.after {} (Line.ofTexts front)).flaw?
        (.ofText (1 + front.length) text) = some f :=
  Check.Context.mem_findings.mp h

theorem rule?_of_mem_findings {r : Rule} {lines : List Line} {f : Finding}
    (h : f ∈ r.findings lines) : f.rule? = some r := by
  cases r with
  | duplicateVersions =>
      obtain ⟨found, -, rfl⟩ := List.mem_map.mp h
      rfl
  | gitConflicts =>
      obtain ⟨line, -, rfl⟩ := List.mem_map.mp h
      rfl
  | whitespace =>
      have hscan : f ∈ Check.Context.findings {} lines := h
      obtain ⟨c, line, hflaw⟩ := Check.Context.exists_flaw?_of_mem_findings hscan
      cases (Check.Context.flaw?_eq_some_iff.mp hflaw).2 <;> rfl

end Rule

namespace RuleSet

theorem mem_enabled {rules : RuleSet} {r : Rule} : r ∈ rules.enabled ↔ rules.isOn r = true := by
  simp [enabled, Rule.mem_all]

theorem mem_findings_checkLines {rules : RuleSet} {lines : List Text} {f : Finding} :
    f ∈ (rules.checkLines lines).findings ↔
      ∃ r, rules.isOn r = true ∧ f ∈ r.findings (Line.ofTexts lines) := by
  simp [checkLines, mem_enabled]

private theorem filter_findings (r s : Rule) (lines : List Text) :
    (s.findings (Line.ofTexts lines)).filter (·.rule? = some r) =
      if s = r then s.findings (Line.ofTexts lines) else [] := by
  split
  · rename_i heq
    apply List.filter_eq_self.mpr
    intro f hf
    simp [Rule.rule?_of_mem_findings hf, heq]
  · rename_i hne
    apply List.filter_eq_nil_iff.mpr
    intro f hf
    simp [Rule.rule?_of_mem_findings hf, hne]

theorem flatMap_filter {α β : Type} (p : α → Bool) (f : α → List β) (xs : List α) :
    (xs.filter p).flatMap f = xs.flatMap fun x => if p x then f x else [] := by
  induction xs with
  | nil => rfl
  | cons x xs ih =>
      by_cases h : p x = true
      · simp [h, ih]
      · simp [h, ih]

/-- A rule that is on gives its own findings to the verdict, a rule that is off none. -/
theorem ofRule_checkLines (rules : RuleSet) (r : Rule) (lines : List Text) :
    (rules.checkLines lines).ofRule r =
      if rules.isOn r then r.findings (Line.ofTexts lines) else [] := by
  have hparts : (rules.checkLines lines).ofRule r = Rule.all.flatMap fun s =>
      if rules.isOn s then if s = r then s.findings (Line.ofTexts lines) else [] else [] := by
    rw [Verdict.ofRule, checkLines, List.filter_flatMap, enabled, flatMap_filter]
    simp only [filter_findings]
  rw [hparts]
  cases r <;> simp [Rule.all]

end RuleSet

end ReleaseLog
