import ReleaseLog.Finding
import ReleaseLog.Line
import ReleaseLog.ReleaseHeading
import ReleaseLog.Text.Lines

/-!
# Checking a changelog

There are three checks, and each reads the same numbered lines. The rules that are on run one after
another.
-/

namespace ReleaseLog

namespace Check

/-! ## Repeated versions

The lines of each version are collected in one pass. A version with two lines or more is a finding,
and the findings are in the order of their first lines.
-/

/-- The version that a line heads with a date. -/
def version? (line : Line) : Option Text := do
  guard line.opensBody
  let heading ← ReleaseHeading.parse? line.text
  return heading.version

/-- Adds a line number to a version, which is new if it was not there. -/
def addOccurrence (version : Text) (number : Nat) :
    List (Text × List Nat) → List (Text × List Nat)
  | [] => [(version, [number])]
  | (v, numbers) :: rest =>
    if v = version then (v, numbers ++ [number]) :: rest
    else (v, numbers) :: addOccurrence version number rest

/-- The versions with their lines, in the order of their first occurrence. -/
def occurrences (lines : List Line) : List (Text × List Nat) :=
  lines.foldl (fun found line =>
    match version? line with
    | some version => addOccurrence version line.number found
    | none => found) []

/-- The versions on two lines or more, by the number of their first line. -/
def repeated (found : List (Text × List Nat)) : List (Text × List Nat) :=
  (found.filter (·.2.length > 1)).mergeSort fun a b => a.2.headD 0 ≤ b.2.headD 0

/-- One finding for each version that heads two dated releases or more. -/
def repeats (lines : List Line) : List Finding :=
  (repeated (occurrences lines)).map fun (version, numbers) => .repeatedVersion version numbers

/-! ## Merge leftovers -/

/-- One finding for each merge marker, in line order. -/
def leftovers (lines : List Line) : List Finding :=
  (lines.filter (·.kind = .marker)).map fun line => .mergeLeftover line.number line.text

theorem leftovers_append (xs ys : List Line) :
    leftovers (xs ++ ys) = leftovers xs ++ leftovers ys := by
  simp [leftovers]

/-! ## Spacing

From the first line that opens with two hashes on, blank lines separate releases and groups, and
stand nowhere else. Each line is judged by its kind and the kinds of the two lines before it.
-/

open Line (Kind)

/-- What is wrong with a line, given the kinds of the line before it and of the one before that. -/
def spacingOf (line : Line) (previous twoBack : Option Kind) : Option Finding :=
  match line.kind, previous with
  | .entry, some .blank => some (.strayBlank (line.number - 1))
  | .blank, some .blank => some (.strayBlank line.number)
  | .release, some kind => if kind = .blank then none else some (.missingBlank line.number)
  | .group, some .blank =>
    if twoBack = some .release then some (.strayBlank (line.number - 1)) else none
  | .group, some kind =>
    if kind = .release ∨ kind = .marker then none else some (.missingBlank line.number)
  | _, _ => none

/-- The findings of the lines after these two, inside the body or still before it. -/
def spacingFrom (inBody : Bool) (previous twoBack : Option Kind) : List Line → List Finding
  | [] => []
  | line :: rest =>
    let inBody := inBody || line.opensBody
    let found := if inBody then (spacingOf line previous twoBack).toList else []
    found ++ spacingFrom inBody (some line.kind) previous rest

/-- The misplaced and missing blank lines, in line order. -/
def spacing (lines : List Line) : List Finding :=
  spacingFrom false none none lines

end Check

/-! ## Rules -/

def Rule.findings : Rule → List Line → List Finding
  | .duplicateVersions => Check.repeats
  | .gitConflicts => Check.leftovers
  | .whitespace => Check.spacing

namespace RuleSet

/-- The verdict on a changelog that is given as lines without terminators. -/
def checkLines (rules : RuleSet) (texts : List Text) : Verdict :=
  ⟨rules.enabled.flatMap (·.findings (Line.ofTexts texts))⟩

def checkText (rules : RuleSet) (text : Text) : Verdict :=
  rules.checkLines text.lines

/-- The verdict on a changelog that was read from a path. Malformed octets are no failure, and a
changelog without content could not be read. -/
def checkContent (rules : RuleSet) (path : Path) : Option Bytes → Verdict
  | some bytes => rules.checkText (Utf8.decodeLossy bytes)
  | none => ⟨[.unreadable path]⟩

end RuleSet

end ReleaseLog
