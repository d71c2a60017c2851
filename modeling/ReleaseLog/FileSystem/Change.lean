import ReleaseLog.FileSystem.Basic

/-!
# Changing a file system

Each operation returns nothing where it fails, and otherwise also the locations it touched.
-/

namespace ReleaseLog.FileSystem

def set (fs : FileSystem) (place : Location) (node : Node) : FileSystem :=
  { fs with nodes := fs.nodes.put place node }

/-- No name is longer than 255 octets. -/
def isName (name : Bytes) : Bool :=
  name.length ≤ 255

/-- Writes a file, which is created in an existing directory if need be. A link is followed. -/
def write? (fs : FileSystem) (p : Path) (content : Bytes) : Option (FileSystem × Location) := do
  match ← fs.reach p with
  | .existing place =>
    let .file _ ← fs.node? place | none
    return (fs.set place (.file content), place)
  | .missing parent name =>
    guard (isName name)
    return (fs.set (parent ++ [name]) (.file content), parent ++ [name])

structure Entry where
  place : Location
  /-- The path ends in a slash, as only that of a directory may. -/
  slashed : Bool
deriving DecidableEq, Repr

/-- The directory entry that a path names, whether it exists or not. A link is not followed. -/
def entry? (fs : FileSystem) (p : Path) : Option Entry := do
  guard (isUsable p)
  let slashed := p.bytes.getLast? = some Path.slash
  let steps := ((Path.pieces p.bytes).reverse.dropWhile (·.isEmpty)).reverse.map Step.ofPiece
  let .into name ← steps.getLast? | none
  let .existing parent ← fs.walk maxLinks (fs.origin p) steps.dropLast | none
  guard (fs.isDirectoryAt parent && isName name)
  return ⟨parent ++ [name], slashed⟩

/-- Removes a file or a link. -/
def remove? (fs : FileSystem) (p : Path) : Option (FileSystem × Location) := do
  let ⟨place, slashed⟩ ← fs.entry? p
  let node ← fs.node? place
  guard (node ≠ .directory ∧ !slashed)
  return ({ fs with nodes := fs.nodes.erase place }, place)

/-- The location after the entry at `source` has become `target`. -/
def moved (source target place : Location) : Location :=
  if source.isPrefixOf place then target ++ place.drop source.length else place

def hasChildren (fs : FileSystem) (place : Location) : Bool :=
  fs.nodes.any fun (other, _) => place.isPrefixOf other && other ≠ place

/-- An entry may take the place of another one: a directory that of an empty directory, anything
else that of anything but a directory. -/
def mayReplace (fs : FileSystem) (source target : Location) : Bool :=
  if fs.isDirectoryAt source then
    !source.isPrefixOf target && (fs.node? target = none ||
      (fs.isDirectoryAt target && !fs.hasChildren target))
  else !fs.isDirectoryAt target

/-- Gives an entry another location, with all that is below it. -/
def rename? (fs : FileSystem) (source target : Path) :
    Option (FileSystem × Location × Location) := do
  let ⟨source, slashedSource⟩ ← fs.entry? source
  let ⟨target, slashedTarget⟩ ← fs.entry? target
  guard (fs.node? source).isSome
  guard (fs.isDirectoryAt source || !(slashedSource || slashedTarget))
  if source = target then
    return (fs, source, target)
  guard (fs.mayReplace source target)
  let nodes := (fs.nodes.erase target).map fun (place, node) => (moved source target place, node)
  return ({ fs with nodes }, source, target)

/-! ## Building -/

/-- Makes the missing directories on the way to a path and the one it names. -/
def makeDirectories (fs : FileSystem) (p : Path) : FileSystem :=
  (List.range (p.parts.length + 1)).foldl (fun fs n =>
    match fs.reach (Path.ofParts (p.parts.take n)) with
    | some (.missing parent name) => fs.set (parent ++ [name]) .directory
    | _ => fs) fs

/-- Makes a node at a path and the directories above it. What is there already stays, but for the
content of a file. -/
def make (fs : FileSystem) (p : Path) (node : Node) : FileSystem :=
  match node with
  | .directory => fs.makeDirectories p
  | .file content =>
    let fs := fs.makeDirectories (p.parent?.getD ⟨[]⟩)
    ((fs.write? p content).map (·.1)).getD fs
  | .link target =>
    let fs := fs.makeDirectories (p.parent?.getD ⟨[]⟩)
    match fs.entry? p with
    | some ⟨place, false⟩ => if (fs.node? place).isNone then fs.set place (.link target) else fs
    | some _ => fs
    | none => fs

end ReleaseLog.FileSystem
