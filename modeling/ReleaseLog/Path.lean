import ReleaseLog.Text.Utf8

/-!
# Paths

A path is a sequence of octets with `/` between its parts. Paths are compared by their parts, which
leave out repeated separators and every `.` but a leading one.
-/

namespace ReleaseLog

/-- A path as it was written. -/
structure Path where
  bytes : Bytes
deriving DecidableEq, Repr

namespace Path

def slash : UInt8 := 0x2F

def ofText (s : Text) : Path :=
  ⟨Utf8.encode s⟩

def ofString (s : String) : Path :=
  ofText s.toList

/-- The path as text, with U+FFFD for each malformed part. -/
def display (p : Path) : Text :=
  Utf8.decodeLossy p.bytes

/-- The path as text, if it is well-formed. -/
def text? (p : Path) : Option Text :=
  Utf8.decode? p.bytes

def isEmpty (p : Path) : Bool :=
  p.bytes.isEmpty

def isAbsolute (p : Path) : Bool :=
  p.bytes.head? = some slash

/-- A path below a directory. An absolute path stands for itself. -/
def join (dir p : Path) : Path :=
  if p.isAbsolute then p
  else if dir.bytes.isEmpty || dir.bytes.getLast? = some slash then ⟨dir.bytes ++ p.bytes⟩
  else ⟨dir.bytes ++ slash :: p.bytes⟩

/-! ## Parts -/

inductive Part
  | root
  | here
  | parent
  | name (bytes : Bytes)
deriving DecidableEq, Repr

/-- What stands between separators, empty pieces included. -/
def pieces : Bytes → List Bytes
  | [] => [[]]
  | b :: rest =>
    if b = slash then [] :: pieces rest
    else
      match pieces rest with
      | [] => [[b]]
      | piece :: more => (b :: piece) :: more

def Part.ofPiece? (piece : Bytes) : Option Part :=
  if piece = [] ∨ piece = [0x2E] then none
  else if piece = [0x2E, 0x2E] then some .parent
  else some (.name piece)

def parts (p : Path) : List Part :=
  let lead :=
    if p.isAbsolute then [Part.root]
    else if (pieces p.bytes).head? = some [0x2E] then [Part.here]
    else []
  lead ++ (pieces p.bytes).filterMap Part.ofPiece?

def Part.bytes : Part → Bytes
  | .root => []
  | .here => [0x2E]
  | .parent => [0x2E, 0x2E]
  | .name bytes => bytes

/-- The shortest path with these parts. -/
def ofParts : List Part → Path
  | [] => ⟨[]⟩
  | [.root] => ⟨[slash]⟩
  | [part] => ⟨part.bytes⟩
  | part :: rest => ⟨part.bytes ++ slash :: (ofParts rest).bytes⟩

/-- The path without its last part, which has to be something other than the root. -/
def parent? (p : Path) : Option Path :=
  match p.parts.getLast? with
  | none | some .root => none
  | some _ => some (ofParts p.parts.dropLast)

/-- The last part, if it is a name. -/
def fileName? (p : Path) : Option Bytes :=
  match p.parts.getLast? with
  | some (.name bytes) => some bytes
  | _ => none

/-! ## Order -/

/-- Octet sequences in dictionary order. -/
def bytesLE : Bytes → Bytes → Bool
  | [], _ => true
  | _ :: _, [] => false
  | a :: as, b :: bs => a < b || (a == b && bytesLE as bs)

/-- The order of parts: root, here, parent, then the names in dictionary order. -/
def Part.rank : Part → Nat
  | .root => 0
  | .here => 1
  | .parent => 2
  | .name _ => 3

def Part.le (a b : Part) : Bool :=
  match a, b with
  | .name x, .name y => bytesLE x y
  | _, _ => a.rank ≤ b.rank

/-- Lists of parts in dictionary order. -/
def partsLE : List Part → List Part → Bool
  | [], _ => true
  | _ :: _, [] => false
  | a :: as, b :: bs => if a = b then partsLE as bs else a.le b

def le (p q : Path) : Bool :=
  partsLE p.parts q.parts

/-- Two spellings of one path: the parts agree. -/
def same (p q : Path) : Bool :=
  p.parts = q.parts

/-- The paths in order, one spelling of each. -/
def sortDistinct (ps : List Path) : List Path :=
  (ps.mergeSort le).foldr (fun p sorted =>
    match sorted with
    | [] => [p]
    | q :: rest => if p.same q then q :: rest else p :: q :: rest) []

end Path

end ReleaseLog
