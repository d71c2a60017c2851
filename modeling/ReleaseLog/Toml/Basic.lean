import ReleaseLog.Assoc
import ReleaseLog.Text.Basic

/-!
# TOML documents as trees

Tables remember how they came about, because that decides which of them a later header or dotted key
may extend.
-/

namespace ReleaseLog

namespace Toml

/-- How a table came about. -/
inductive Origin
  /-- From the header of a table below it. -/
  | implied
  /-- From a dotted key. -/
  | dotted
  /-- From a header of its own. -/
  | header
  /-- Written between braces. -/
  | inline
deriving DecidableEq, Repr

end Toml

/-- A TOML value. Numbers and dates are kept as they are written. -/
inductive Toml
  | bool (b : Bool)
  | string (s : Text)
  | plain (written : Text)
  | array (items : List Toml)
  /-- An array that headers in double brackets write, one table each. -/
  | tables (items : List (List (Text × Toml)))
  | table (origin : Toml.Origin) (entries : List (Text × Toml))
deriving Inhabited, Repr

namespace Toml

abbrev Entries := Assoc Text Toml

/-! ## Building tables -/

/-- Edits the table at the end of a path of keys, and makes the missing tables on the way. Inline
tables are closed, and a dotted key does not reach into a table that has a header of its own. -/
def editAt (dotted : Bool) (edit : Origin → Entries → Option Entries) :
    (path : List Text) → Origin → Entries → Option Entries
  | [], origin, entries => edit origin entries
  | key :: rest, _, entries =>
    match entries.get? key with
    | none => do
      let origin := if dotted then Origin.dotted else Origin.implied
      let inner ← editAt dotted edit rest origin []
      return entries.put key (.table origin inner)
    | some (.table origin inner) =>
      if origin = .inline ∨ (dotted ∧ origin = .header) then none
      else do
        let inner ← editAt dotted edit rest origin inner
        return entries.put key (.table origin inner)
    | some (.tables items) => do
      let inner ← editAt dotted edit rest .header (items.getLastD [])
      return entries.put key (.tables (items.dropLast ++ [inner]))
    | some _ => none

/-- Gives a new key its value. A dotted key may end only in a table that dotted keys made. -/
def assign (path : List Text) (key : Text) (value : Toml) : Origin → Entries → Option Entries :=
  editAt true (fun origin entries =>
    if decide (origin = .dotted) = path.isEmpty then none
    else if (entries.get? key).isSome then none
    else some (entries.put key value)) path

def openTable (path : List Text) (key : Text) : Entries → Option Entries :=
  editAt false (fun _ entries =>
    match entries.get? key with
    | none => some (entries.put key (.table .header []))
    | some (.table .implied inner) => some (entries.put key (.table .header inner))
    | some _ => none) path .header

def openNext (path : List Text) (key : Text) : Entries → Option Entries :=
  editAt false (fun _ entries =>
    match entries.get? key with
    | none => some (entries.put key (.tables [[]]))
    | some (.tables items) => some (entries.put key (.tables (items ++ [[]])))
    | some _ => none) path .header

/-! ## Views -/

def string? : Toml → Option Text
  | .string s => some s
  | _ => none

def bool? : Toml → Option Bool
  | .bool b => some b
  | _ => none

/-- The items of an array of either form. -/
def items? : Toml → Option (List Toml)
  | .array items => some items
  | .tables items => some (items.map (.table .header))
  | _ => none

def entries? : Toml → Option Entries
  | .table _ entries => some entries
  | _ => none

end Toml

end ReleaseLog
