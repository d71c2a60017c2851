import ReleaseLog.Text.Basic

/-!
# Dated release headings

A dated heading reads `## [version] - YYYY-MM-DD`, with any ASCII white space between its parts. It
is read from both ends, so that the version may itself have brackets and dashes.
-/

namespace ReleaseLog

/-- The version and the date of a heading. The date is not checked against a calendar. -/
structure ReleaseHeading where
  version : Text
  date : Text
deriving DecidableEq, Repr

namespace ReleaseHeading

/-- Four, two and two ASCII digits, joined by dashes. -/
def isDate : Text → Bool
  | [y₁, y₂, y₃, y₄, s₁, m₁, m₂, s₂, d₁, d₂] =>
    [y₁, y₂, y₃, y₄, m₁, m₂, d₁, d₂].all Char.isDigit && s₁ == '-' && s₂ == '-'
  | _ => false

/-- What follows `## [` in a heading, with any non-empty run of white space for the blank. -/
def afterOpening? (line : Text) : Option Text := do
  let rest ← line.after? "##".toList
  let rest ← rest.afterSpaces?
  rest.after? "[".toList

/-- Reads a reversed text as `version] - YYYY-MM-DD`, from its end. -/
def ofReversed? (back : Text) : Option ReleaseHeading := do
  let date := (back.take 10).reverse
  guard (isDate date)
  let back ← Text.afterSpaces? (back.drop 10)
  let back ← back.after? "-".toList
  let back ← back.afterSpaces?
  let back ← back.after? "]".toList
  guard (!back.contains '\n')
  return ⟨back.reverse, date⟩

/-- The version and the date of a line that is a dated heading. -/
def parse? (line : Text) : Option ReleaseHeading := do
  let rest ← afterOpening? line
  ofReversed? rest.reverse

end ReleaseHeading

end ReleaseLog
