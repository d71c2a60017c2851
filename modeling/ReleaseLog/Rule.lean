import ReleaseLog.Text.Basic

/-!
# Rules and their selection
-/

namespace ReleaseLog

/-- The independent checks of a changelog. -/
inductive Rule
  /-- A version heads at most one dated release. -/
  | duplicateVersions
  /-- No merge is left unresolved. -/
  | gitConflicts
  /-- Blank lines stand where they should and nowhere else. -/
  | whitespace
deriving DecidableEq, Repr

namespace Rule

/-- All rules, in the order of their findings. -/
def all : List Rule :=
  [.duplicateVersions, .gitConflicts, .whitespace]

/-- The name under which a rule is selected and reported. -/
def name : Rule → Text
  | .duplicateVersions => "duplicate-versions".toList
  | .gitConflicts => "git-conflicts".toList
  | .whitespace => "whitespace".toList

def ofName? (s : Text) : Option Rule :=
  all.find? (·.name == s)

theorem mem_all (r : Rule) : r ∈ all := by
  cases r <;> simp [all]

@[simp] theorem ofName?_name (r : Rule) : ofName? r.name = some r := by
  cases r <;> rfl

theorem name_injective {r s : Rule} (h : r.name = s.name) : r = s := by
  have := congrArg ofName? h
  simpa using this

end Rule

/-- Which rules are on. All are, unless switched off. -/
structure RuleSet where
  duplicateVersions : Bool := true
  gitConflicts : Bool := true
  whitespace : Bool := true
deriving DecidableEq, Repr

namespace RuleSet

def isOn (rules : RuleSet) : Rule → Bool
  | .duplicateVersions => rules.duplicateVersions
  | .gitConflicts => rules.gitConflicts
  | .whitespace => rules.whitespace

def disable (rules : RuleSet) : Rule → RuleSet
  | .duplicateVersions => { rules with duplicateVersions := false }
  | .gitConflicts => { rules with gitConflicts := false }
  | .whitespace => { rules with whitespace := false }

def disableAll (rules : RuleSet) (off : List Rule) : RuleSet :=
  off.foldl disable rules

/-- The rules that are on, in the order of their findings. -/
def enabled (rules : RuleSet) : List Rule :=
  Rule.all.filter rules.isOn

@[simp] theorem isOn_default (r : Rule) : ({} : RuleSet).isOn r = true := by
  cases r <;> rfl

theorem isOn_disable (rules : RuleSet) (r s : Rule) :
    (rules.disable r).isOn s = (rules.isOn s && decide (s ≠ r)) := by
  cases r <;> cases s <;> simp [disable, isOn]

theorem isOn_disableAll (rules : RuleSet) (off : List Rule) (s : Rule) :
    (rules.disableAll off).isOn s = (rules.isOn s && decide (s ∉ off)) := by
  induction off generalizing rules with
  | nil => simp [disableAll]
  | cons r off ih =>
    have step : rules.disableAll (r :: off) = (rules.disable r).disableAll off := rfl
    rw [step, ih, isOn_disable]
    by_cases h : s = r <;> simp [h]

end RuleSet

end ReleaseLog
