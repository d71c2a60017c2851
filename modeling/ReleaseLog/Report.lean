import ReleaseLog.Finding
import ReleaseLog.Json.Printer

/-!
# Reports

A report pairs the path of a changelog with its verdict. Several reports are written as one text, or
as one JSON array with an object for each finding.
-/

namespace ReleaseLog

inductive Format
  | text
  | json
deriving DecidableEq, Repr

namespace Format

def name : Format → Text
  | .text => "text".toList
  | .json => "json".toList

def ofName? (s : Text) : Option Format :=
  [Format.text, Format.json].find? (·.name == s)

@[simp] theorem ofName?_name (f : Format) : ofName? f.name = some f := by
  cases f <;> rfl

end Format

structure Report where
  path : Path
  verdict : Verdict
deriving DecidableEq, Repr

namespace Report

def allClean (reports : List Report) : Bool :=
  reports.all (·.verdict.isClean)

/-- The findings of all reports with the path of their changelog, in report order. -/
def entries (reports : List Report) : List (Path × Finding) :=
  reports.flatMap fun report => report.verdict.findings.map (report.path, ·)

/-! ## Text -/

def entryText (path : Path) (f : Finding) : Text :=
  let place :=
    match f.line? with
    | some line => ':' :: Text.decimal line
    | none => []
  path.display ++ place ++ ": ".toList ++ f.severity.name ++ ": ".toList ++ f.message ++ ['\n']

def summary (findings files : Nat) : Text :=
  Text.decimal findings ++ " problem(s) in ".toList ++ Text.decimal files ++ " file(s)\n".toList

/-- A line for each finding, then the summary. -/
def text (reports : List Report) : Text :=
  (entries reports).flatMap (fun (path, f) => entryText path f) ++
    summary (entries reports).length reports.length

/-! ## JSON -/

/-- Why reports cannot be written. -/
inductive Error
  /-- JSON text has to name each file, and this path is malformed. -/
  | malformedPath (path : Path)
deriving DecidableEq, Repr

def Error.message : Error → Text
  | .malformedPath _ => "path contains invalid UTF-8 characters".toList

def entryJson (path : Path) (f : Finding) : Except Error Json :=
  match path.text? with
  | none => .error (.malformedPath path)
  | some file =>
    .ok <| .obj
      [("file".toList, .str file),
        ("line".toList, (f.line?.map Json.ofNat).getD .null),
        ("severity".toList, .str f.severity.name),
        ("rule".toList, (f.rule?.map (.str ·.name)).getD .null),
        ("message".toList, .str f.message)]

/-- The array of all findings. -/
def json (reports : List Report) : Except Error Json := do
  let items ← (entries reports).mapM fun (path, f) => entryJson path f
  return .arr items

/-- The reports in a format. -/
def render (format : Format) (reports : List Report) : Except Error Text :=
  match format with
  | .text => .ok (text reports)
  | .json => (json reports).map (Json.pretty 0)

theorem render_text (reports : List Report) : render .text reports = .ok (text reports) := rfl

end Report

end ReleaseLog
