import ReleaseLog.Text.Basic

/-!
# Lines of a changelog

Each line has exactly one kind, read off its text alone.
-/

namespace ReleaseLog

namespace Line

/-- What a line of a changelog is. -/
inductive Kind
  /-- Heads a release, as in `## [1.0.0] - 2019-02-15`. -/
  | release
  /-- Heads a group of changes, as in `### Added`. -/
  | group
  /-- Was left behind by an unresolved merge. -/
  | marker
  /-- Has nothing but blanks. -/
  | blank
  /-- Describes a change. -/
  | entry
  /-- Titles, reference links and whatever else starts with `#` or `[`. -/
  | other
deriving DecidableEq, Repr

/-- The text starts with `lead`, and goes on with at least one character and no line feed. -/
def isTagged (lead : Text) (s : Text) : Bool :=
  match s.after? lead with
  | some rest => !rest.isEmpty && !rest.contains '\n'
  | none => false

/-- One of the three lines that an unresolved merge leaves behind. -/
def isMarker (s : Text) : Bool :=
  isTagged "<<<<<<< ".toList s || s == "=======".toList || isTagged ">>>>>>> ".toList s

def Kind.ofText (s : Text) : Kind :=
  if isMarker s then .marker
  else if s.startsWith "## ".toList then .release
  else if s.startsWith "### ".toList then .group
  else if s.isBlank then .blank
  else if s.head? ≠ some '#' ∧ s.head? ≠ some '[' then .entry
  else .other

end Line

structure Line where
  number : Nat
  text : Text
  kind : Line.Kind
deriving DecidableEq, Repr

namespace Line

def ofText (number : Nat) (text : Text) : Line :=
  ⟨number, text, .ofText text⟩

/-- The lines of these texts, numbered upwards from `first`. -/
def numberedFrom (first : Nat) : List Text → List Line
  | [] => []
  | text :: rest => ofText first text :: numberedFrom (first + 1) rest

def ofTexts (texts : List Text) : List Line :=
  numberedFrom 1 texts

/-- The body of a changelog starts at the first line that opens with two hashes. -/
def opensBody (line : Line) : Bool :=
  line.text.startsWith "##".toList

@[simp] theorem numberedFrom_nil (first : Nat) : numberedFrom first [] = [] := rfl

@[simp] theorem numberedFrom_cons (first : Nat) (text : Text) (rest : List Text) :
    numberedFrom first (text :: rest) = ofText first text :: numberedFrom (first + 1) rest := rfl

@[simp] theorem length_numberedFrom (first : Nat) (texts : List Text) :
    (numberedFrom first texts).length = texts.length := by
  induction texts generalizing first with
  | nil => rfl
  | cons text rest ih => simp [ih]

theorem numberedFrom_append (first : Nat) (xs ys : List Text) :
    numberedFrom first (xs ++ ys) =
      numberedFrom first xs ++ numberedFrom (first + xs.length) ys := by
  induction xs generalizing first with
  | nil => simp
  | cons x xs ih => simp [ih, Nat.add_assoc, Nat.add_comm 1]

@[simp] theorem kind_ofText (number : Nat) (text : Text) :
    (ofText number text).kind = .ofText text := rfl

@[simp] theorem text_ofText (number : Nat) (text : Text) : (ofText number text).text = text := rfl

@[simp] theorem number_ofText (number : Nat) (text : Text) :
    (ofText number text).number = number := rfl

end Line

end ReleaseLog
