import ReleaseLog.FileSystem.Change

/-!
# Watching files

A watcher knows its files by normal paths: absolute, and with every link resolved that can be. It
watches their directories, so that a file is noticed also when it is replaced.
-/

namespace ReleaseLog

namespace FileSystem

/-- The absolute form of a path, which drops redundant parts and keeps every `..`. -/
def absolute? (fs : FileSystem) (p : Path) : Option Path :=
  if p.isEmpty then none
  else
    let parts := if p.isAbsolute then p.parts
      else (Location.toPath fs.current).parts ++ p.parts.filter (· ≠ .here)
    let path := Path.ofParts parts
    some (if p.bytes.getLast? = some Path.slash then path.join ⟨[]⟩ else path)

/-- The normal form of a path: where it leads; for a file that does not exist, its name in the
directory where it would be; else its absolute form. -/
def normalize (fs : FileSystem) (p : Path) : Path :=
  match fs.locate? p with
  | some place => place.toPath
  | none =>
    let absolute := (fs.absolute? p).getD p
    match absolute.parent?.bind fs.locate?, absolute.fileName? with
    | some parent, some name => (parent ++ [name]).toPath
    | _, _ => absolute

end FileSystem

/-- A watched directory: where it is, and the path under which its events are reported. -/
structure Watch where
  place : Location
  path : Path
deriving DecidableEq, Repr

/-- The watched files by their normal paths, the watched directories, and the paths of the events
that were not looked at yet. -/
structure Watcher where
  files : List Path
  watches : List Watch
  events : List Path := []
deriving DecidableEq, Repr

namespace Watcher

inductive Error
  | unwatchable (directory : Path)
deriving DecidableEq, Repr

def Error.message : Error → Text
  | .unwatchable directory => "Failed to watch ".toList ++ directory.display

def watch (fs : FileSystem) (directory : Path) : Except Error Watch :=
  match fs.locate? directory with
  | some place => .ok ⟨place, directory⟩
  | none => .error (.unwatchable directory)

def start (fs : FileSystem) (files : List Path) : Except Error Watcher := do
  let files := files.map fs.normalize
  let directories := Path.sortDistinct (files.filterMap (·.parent?))
  let watches ← directories.mapM (watch fs)
  return { files, watches }

def isWatched (w : Watcher) (fs : FileSystem) (p : Path) : Bool :=
  w.files.any (·.same (fs.normalize p))

/-- Records an event for an entry of a watched directory. -/
def touch (w : Watcher) (place : Location) : Watcher :=
  let reports := w.watches.filterMap fun watch =>
    if watch.place = place.dropLast ∧ place ≠ [] then
      some (watch.path.join ⟨place.getLastD []⟩)
    else none
  { w with events := w.events ++ reports }

/-- Records that an entry was renamed. Watches follow a renamed directory, and their paths stay. -/
def relocate (w : Watcher) (source target : Location) : Watcher :=
  let w := (w.touch source).touch target
  { w with
    watches := w.watches.map fun watch =>
      { watch with place := FileSystem.moved source target watch.place } }

/-- The watched files with an event since the last batch, in order, and the watcher without them. -/
def changed (w : Watcher) (fs : FileSystem) : List Path × Watcher :=
  let batch := (w.events.filter (w.isWatched fs)).map fs.normalize
  (Path.sortDistinct batch, { w with events := [] })

end Watcher

structure Watched where
  fs : FileSystem
  watcher : Watcher
deriving Repr

namespace Watched

inductive Change
  | write (path : Path) (content : Bytes)
  | remove (path : Path)
  | rename (source target : Path)
deriving DecidableEq, Repr

/-- The state after a change, or nothing if the change fails. A removal is no event. -/
def after? (s : Watched) : Change → Option Watched
  | .write path content => do
    let (fs, place) ← s.fs.write? path content
    return ⟨fs, s.watcher.touch place⟩
  | .remove path => do
    let (fs, _) ← s.fs.remove? path
    return ⟨fs, s.watcher⟩
  | .rename source target => do
    let (fs, source, target) ← s.fs.rename? source target
    return ⟨fs, if source = target then s.watcher else s.watcher.relocate source target⟩

/-- The next batch of changed files. -/
def batch (s : Watched) : List Path × Watched :=
  let (paths, watcher) := s.watcher.changed s.fs
  (paths, { s with watcher })

end Watched

end ReleaseLog
