import ReleaseLog.Text.Basic

/-!
# JSON values

Objects keep the order of their fields. A number written with a point or an exponent is kept apart
from an integer, also where both have the same value.
-/

namespace ReleaseLog

inductive Json
  | null
  | bool (b : Bool)
  | int (n : Int)
  /-- The number `digits * 10 ^ exponent`, written with a point or an exponent. -/
  | real (digits : Int) (exponent : Int)
  | str (s : Text)
  | arr (items : List Json)
  | obj (fields : List (Text × Json))
deriving Inhabited, Repr

namespace Json

def ofString (s : String) : Json :=
  .str s.toList

def ofNat (n : Nat) : Json :=
  .int n

/-- An object from fields that may be missing. -/
def ofFields (fields : List (String × Option Json)) : Json :=
  .obj (fields.filterMap fun (name, value) => value.map (name.toList, ·))

/-- The field of an object, the last one if the name is repeated. -/
def field? (name : String) : Json → Option Json
  | .obj fields => (fields.reverse.find? (·.1 == name.toList)).map (·.2)
  | _ => none

end Json

end ReleaseLog
