import ReleaseLog.Proofs.Attribution

/-!
# Selecting rules

A verdict under some rules is the verdict under all rules, without the findings of the rules that
are off. It does not matter in which order rules are switched off, or how often.
-/

namespace ReleaseLog

namespace RuleSet

/-! ## Rules switched off -/

theorem eq_of_isOn {rules others : RuleSet} (h : ∀ r, rules.isOn r = others.isOn r) :
    rules = others := by
  obtain ⟨versions, conflicts, spacing⟩ := rules
  obtain ⟨versions', conflicts', spacing'⟩ := others
  obtain rfl : versions = versions' := h .duplicateVersions
  obtain rfl : conflicts = conflicts' := h .gitConflicts
  obtain rfl : spacing = spacing' := h .whitespace
  rfl

/-- Neither order nor repetition matters. -/
theorem disableAll_congr {off others : List Rule} (rules : RuleSet)
    (h : ∀ r, r ∈ off ↔ r ∈ others) : rules.disableAll off = rules.disableAll others := by
  apply eq_of_isOn
  intro r
  rw [isOn_disableAll, isOn_disableAll, decide_eq_decide.mpr (not_congr (h r))]

theorem disableAll_disableAll (rules : RuleSet) (off others : List Rule) :
    (rules.disableAll off).disableAll others = rules.disableAll (off ++ others) :=
  List.foldl_append.symm

/-! ## Findings left out -/

/-- The finding comes from no rule, or from one that is on. -/
def keeps (rules : RuleSet) (f : Finding) : Bool :=
  f.rule?.all rules.isOn

theorem keeps_disableAll (rules : RuleSet) (off : List Rule) (f : Finding) :
    (rules.disableAll off).keeps f = f.rule?.all fun r => rules.isOn r && decide (r ∉ off) := by
  rw [keeps, funext (isOn_disableAll rules off)]

theorem filter_keeps_findings (rules : RuleSet) (r : Rule) (texts : List Text) :
    (r.findings (Line.ofTexts texts)).filter rules.keeps =
      if rules.isOn r then r.findings (Line.ofTexts texts) else [] := by
  have hkeeps : ∀ f ∈ r.findings (Line.ofTexts texts), rules.keeps f = rules.isOn r := by
    intro f hf
    simp [keeps, Rule.rule?_of_mem_findings hf]
  cases hon : rules.isOn r with
  | true => exact List.filter_eq_self.mpr fun f hf => (hkeeps f hf).trans hon
  | false => exact List.filter_eq_nil_iff.mpr fun f hf => by simp [hkeeps f hf, hon]

/-- Under some rules just the findings of the other rules are left out. -/
theorem findings_checkLines (rules : RuleSet) (texts : List Text) :
    (rules.checkLines texts).findings =
      (({} : RuleSet).checkLines texts).findings.filter rules.keeps := by
  have hall : ({} : RuleSet).enabled = Rule.all := rfl
  simp only [checkLines, hall, List.filter_flatMap, filter_keeps_findings]
  rw [enabled, flatMap_filter]

/-- An unreadable changelog is found under all rules. -/
theorem findings_checkContent (rules : RuleSet) (path : Path) (content : Option Bytes) :
    (rules.checkContent path content).findings =
      (({} : RuleSet).checkContent path content).findings.filter rules.keeps := by
  cases content with
  | some bytes => exact findings_checkLines rules _
  | none => rfl

theorem findings_checkContent_disableAll (rules : RuleSet) (off : List Rule) (path : Path)
    (content : Option Bytes) :
    ((rules.disableAll off).checkContent path content).findings =
      (rules.checkContent path content).findings.filter fun f => f.rule?.all (· ∉ off) := by
  rw [findings_checkContent, findings_checkContent rules, List.filter_filter]
  apply List.filter_congr
  intro f _
  rw [keeps_disableAll, keeps]
  cases f.rule? with
  | none => rfl
  | some r => exact Bool.and_comm _ _

end RuleSet

/-! ## The order of the findings -/

namespace Finding

/-- The rules of two findings, if they come from any, are in the order of all rules. -/
def InOrder (f g : Finding) : Prop :=
  ∀ r s, f.rule? = some r → g.rule? = some s → Rule.all.idxOf r ≤ Rule.all.idxOf s

theorem inOrder_of_mem_findings {r s : Rule} (hle : Rule.all.idxOf r ≤ Rule.all.idxOf s)
    {texts : List Text} {f g : Finding} (hf : f ∈ r.findings (Line.ofTexts texts))
    (hg : g ∈ s.findings (Line.ofTexts texts)) : InOrder f g := by
  intro r' s' hr hs
  obtain rfl := Option.some.inj ((Rule.rule?_of_mem_findings hf).symm.trans hr)
  obtain rfl := Option.some.inj ((Rule.rule?_of_mem_findings hg).symm.trans hs)
  exact hle

end Finding

theorem RuleSet.pairwise_findings_checkLines (rules : RuleSet) (texts : List Text) :
    (rules.checkLines texts).findings.Pairwise Finding.InOrder := by
  have hrules : rules.enabled.Pairwise fun r s => Rule.all.idxOf r ≤ Rule.all.idxOf s :=
    List.Pairwise.sublist List.filter_sublist (by decide)
  rw [checkLines, List.pairwise_flatMap]
  constructor
  · intro r _
    exact List.pairwise_of_forall_mem_list fun f hf g hg =>
      Finding.inOrder_of_mem_findings (Nat.le_refl _) hf hg
  · exact hrules.imp fun hle f hf g hg => Finding.inOrder_of_mem_findings hle hf hg

end ReleaseLog
