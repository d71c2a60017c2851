import ReleaseLog.Assoc
import ReleaseLog.Path

/-!
# File systems

A file system maps canonical locations to nodes. A path is resolved one step at a time and follows
symbolic links.
-/

namespace ReleaseLog

/-- A canonical place: the names that lead to it from the root. -/
abbrev Location := List Bytes

inductive Node
  | file (content : Bytes)
  | directory
  | link (target : Path)
deriving DecidableEq, Repr

/-- One step of a resolution. Redundant pieces of a path stay where they are, which has to be a
directory all the same. -/
inductive Step
  | stay
  | up
  | into (name : Bytes)
deriving DecidableEq, Repr

def Step.ofPiece (piece : Bytes) : Step :=
  if piece = [] ∨ piece = [0x2E] then .stay
  else if piece = [0x2E, 0x2E] then .up
  else .into piece

def Path.steps (p : Path) : List Step :=
  (Path.pieces p.bytes).map .ofPiece

def Location.toPath (place : Location) : Path :=
  Path.ofParts (.root :: place.map .name)

/-- Files, directories and links, and the directory where relative paths start. -/
structure FileSystem where
  nodes : Assoc Location Node := []
  current : Location := []
deriving Repr

namespace FileSystem

/-- The node at a location. The root is always a directory. -/
def node? (fs : FileSystem) (place : Location) : Option Node :=
  if place = [] then some .directory else fs.nodes.get? place

def isDirectoryAt (fs : FileSystem) (place : Location) : Bool :=
  fs.node? place = some .directory

/-! ## Resolution -/

/-- Where a resolution ends: at a node that is no link, or at a name that its directory lacks. -/
inductive Reached
  | existing (place : Location)
  | missing (parent : Location) (name : Bytes)
deriving DecidableEq, Repr

/-- Where the steps lead before the next link. -/
inductive Stop
  | done (reached : Option Reached)
  | link (parent : Location) (target : Path) (rest : List Step)
deriving DecidableEq, Repr

/-- Takes steps up to the first link. Every step but the last has to find a directory. -/
def advance (fs : FileSystem) (place : Location) : List Step → Stop
  | [] => .done (some (.existing place))
  | step :: rest =>
    if fs.isDirectoryAt place then
      match step with
      | .stay => advance fs place rest
      | .up => advance fs place.dropLast rest
      | .into name =>
        match fs.node? (place ++ [name]) with
        | some (.link target) => .link place target rest
        | some _ => advance fs (place ++ [name]) rest
        | none => .done (if rest = [] then some (.missing place name) else none)
    else .done none

/-- Takes steps, and those of the links on the way, of which no more than `links` are followed. -/
def walk (fs : FileSystem) : (links : Nat) → Location → List Step → Option Reached
  | links, place, steps =>
    match fs.advance place steps with
    | .done reached => reached
    | .link parent target rest =>
      match links with
      | 0 => none
      | links + 1 =>
        walk fs links (if target.isAbsolute then [] else parent) (target.steps ++ rest)

/-- A resolution follows at most forty links. -/
def maxLinks : Nat := 40

def origin (fs : FileSystem) (p : Path) : Location :=
  if p.isAbsolute then [] else fs.current

/-- An empty path and a path with a zero octet name nothing. -/
def isUsable (p : Path) : Bool :=
  !p.isEmpty && !p.bytes.contains 0

/-- Where a path leads. -/
def reach (fs : FileSystem) (p : Path) : Option Reached :=
  if isUsable p then fs.walk maxLinks (fs.origin p) p.steps else none

/-- The location of the existing node that a path leads to. -/
def locate? (fs : FileSystem) (p : Path) : Option Location :=
  match fs.reach p with
  | some (.existing place) => some place
  | _ => none

/-! ## Reading -/

def read? (fs : FileSystem) (p : Path) : Option Bytes := do
  let place ← fs.locate? p
  let .file content ← fs.node? place | none
  return content

def isFile (fs : FileSystem) (p : Path) : Bool :=
  (fs.read? p).isSome

end FileSystem

/-! ## Disks -/

/-- Files as they can be read at one moment. -/
structure Disk where
  /-- The content of a file, if it can be read. -/
  read? : Path → Option Bytes
  /-- A path leads to a file, readable or not. -/
  isFile : Path → Bool

def FileSystem.disk (fs : FileSystem) : Disk :=
  ⟨fs.read?, fs.isFile⟩

end ReleaseLog
