import ReleaseLog.Editor.Diagnostic

/-!
# The outline of a changelog

A block is a heading with the lines up to the next heading of its kind. The outline has a symbol for
each release block, and inside it one for each block of a group.
-/

namespace ReleaseLog

/-- A heading line with the lines below it that it governs. -/
structure Block where
  heading : Line
  body : List Line
deriving DecidableEq, Repr

namespace Block

/-- The blocks that start at the lines of a kind. Lines before the first of them are in none. -/
def ofKind (kind : Line.Kind) : List Line → List Block
  | [] => []
  | line :: rest =>
    if line.kind = kind then
      ⟨line, rest.takeWhile (·.kind ≠ kind)⟩ :: ofKind kind rest
    else ofKind kind rest

def last (b : Block) : Line :=
  b.body.getLastD b.heading

end Block

namespace Editor

structure GroupSymbol where
  name : Text
  range : Range
  selection : Range
deriving DecidableEq, Repr

/-- A release in an outline, with its date if it has one. -/
structure ReleaseSymbol where
  name : Text
  date : Option Text
  range : Range
  selection : Range
  groups : List GroupSymbol
deriving DecidableEq, Repr

namespace Outline

/-- The title of a heading: its text after the hashes, or all of it if that is blank. -/
def title (hashes heading : Text) : Text :=
  let s := Text.trim (heading.withoutLead hashes)
  if s.isEmpty then heading.trim else s

def range (b : Block) : Range :=
  .lines (b.heading.number - 1) (b.last.number - 1) b.last.text

def selection (b : Block) : Range :=
  .lines (b.heading.number - 1) (b.heading.number - 1) b.heading.text

def group (b : Block) : GroupSymbol :=
  ⟨title "###".toList b.heading.text, range b, selection b⟩

/-- The symbol of a release, which is named by its version if the heading is dated. -/
def release (b : Block) : ReleaseSymbol :=
  let heading := ReleaseHeading.parse? b.heading.text
  { name := (heading.map (·.version)).getD (title "##".toList b.heading.text)
    date := heading.map (·.date)
    range := range b
    selection := selection b
    groups := (Block.ofKind .group b.body).map group }

def ofLines (lines : List Line) : List ReleaseSymbol :=
  (Block.ofKind .release lines).map release

def ofText (text : Text) : List ReleaseSymbol :=
  ofLines (Line.ofTexts text.lines)

end Outline

end Editor

end ReleaseLog
