import ReleaseLog.Path
import ReleaseLog.Rule

/-!
# Findings

A finding is one problem of a changelog. Its wording, line, severity and rule are functions of it.
-/

namespace ReleaseLog

/-- How much a finding weighs. -/
inductive Severity
  | error
  | warning
deriving DecidableEq, Repr

def Severity.name : Severity → Text
  | .error => "error".toList
  | .warning => "warning".toList

/-- A problem of a changelog. Lines are numbered from one. -/
inductive Finding
  /-- The version heads dated releases at all these lines. -/
  | repeatedVersion (version : Text) (lines : List Nat)
  /-- The line was left behind by an unresolved merge. -/
  | mergeLeftover (line : Nat) (content : Text)
  /-- The line is blank and should not be there. -/
  | strayBlank (line : Nat)
  /-- The line should follow a blank one. -/
  | missingBlank (line : Nat)
  /-- The changelog could not be read. -/
  | unreadable (path : Path)
deriving DecidableEq, Repr

namespace Finding

def message : Finding → Text
  | .repeatedVersion version lines =>
    "Version ".toList ++ version ++ " appeared multiple lines @ line ".toList ++
      Text.joinWith ", ".toList (lines.map Text.decimal)
  | .mergeLeftover line content =>
    "Found git merge leftover at line ".toList ++ Text.decimal line ++ ": '".toList ++ content ++
      "'".toList
  | .strayBlank line => "Unexpected whitespace @ line ".toList ++ Text.decimal line
  | .missingBlank line =>
    "Line ".toList ++ Text.decimal line ++ " should be preceded by white line".toList
  | .unreadable path => "File does not exist: ".toList ++ path.display

/-- The line a finding points at: for a version, its first repetition. -/
def line? : Finding → Option Nat
  | .repeatedVersion _ lines => lines[1]?.or lines[0]?
  | .mergeLeftover line _ | .strayBlank line | .missingBlank line => some line
  | .unreadable _ => none

def severity : Finding → Severity
  | .strayBlank _ | .missingBlank _ => .warning
  | _ => .error

/-- The rule a finding comes from. An unreadable file breaks none. -/
def rule? : Finding → Option Rule
  | .repeatedVersion _ _ => some .duplicateVersions
  | .mergeLeftover _ _ => some .gitConflicts
  | .strayBlank _ | .missingBlank _ => some .whitespace
  | .unreadable _ => none

end Finding

/-- The findings of one changelog, in the order in which they were made. -/
structure Verdict where
  findings : List Finding := []
deriving DecidableEq, Repr

namespace Verdict

def push (v : Verdict) (f : Finding) : Verdict :=
  ⟨v.findings ++ [f]⟩

def append (v : Verdict) (fs : List Finding) : Verdict :=
  ⟨v.findings ++ fs⟩

def size (v : Verdict) : Nat :=
  v.findings.length

/-- A changelog passes only if nothing at all was found, warnings included. -/
def isClean (v : Verdict) : Bool :=
  v.findings.isEmpty

def count (v : Verdict) (s : Severity) : Nat :=
  v.findings.countP (·.severity = s)

theorem isClean_iff (v : Verdict) : v.isClean = true ↔ v.size = 0 := by
  simp [isClean, size]

end Verdict

end ReleaseLog
