import ReleaseLog.Check

/-!
# Diagnostics

A diagnostic shows a finding on the whole line it points at. In a position lines and characters
count from zero, characters in UTF-16 code units, both in 32 bits.
-/

namespace ReleaseLog.Editor

/-! ## Positions -/

structure Position where
  line : Nat
  character : Nat
deriving DecidableEq, Repr

/-- A stretch of a document, its end excluded. -/
structure Range where
  start : Position
  stop : Position
deriving DecidableEq, Repr

/-- A position with both numbers cut to 32 bits. -/
def Position.cut (line character : Nat) : Position :=
  ⟨line % 0x100000000, character % 0x100000000⟩

theorem Position.cut_of_lt {line character : Nat} (hl : line < 0x100000000)
    (hc : character < 0x100000000) : Position.cut line character = ⟨line, character⟩ := by
  rw [Position.cut, Nat.mod_eq_of_lt hl, Nat.mod_eq_of_lt hc]

/-- From the start of one line to the end of another, which has this text. -/
def Range.lines (first last : Nat) (lastText : Text) : Range :=
  ⟨.cut first 0, .cut last lastText.units⟩

/-! ## Findings on their lines -/

structure Diagnostic where
  range : Range
  severity : Severity
  code : Option Rule
  message : Text
deriving DecidableEq, Repr

namespace Diagnostic

/-- The name under which every diagnostic is published. -/
def source : Text :=
  "changelog-lint".toList

/-- Severities are numbered from the gravest. -/
def severityNumber : Severity → Nat
  | .error => 1
  | .warning => 2

/-- A finding on its line of the document. A finding without a line is shown on the first one, and a
line that the document does not have counts as empty. -/
def ofFinding (lines : List Text) (f : Finding) : Diagnostic :=
  let index := (f.line?.getD 0) - 1
  { range := .lines index index (lines[index]?.getD [])
    severity := f.severity
    code := f.rule?
    message := f.message }

def ofText (rules : RuleSet) (text : Text) : List Diagnostic :=
  (rules.checkText text).findings.map (ofFinding text.lines)

end Diagnostic

end ReleaseLog.Editor
