import ReleaseLog.Proofs.FileSystem.Changes
import ReleaseLog.Proofs.Path.Order

/-!
# Runs of a watched file system

A run is any order of changes and batches. Directories stay through it, so the watches on them do,
and a touched entry is reported under its own path.
-/

namespace ReleaseLog

open FileSystem

namespace Watcher

variable {fs : FileSystem} {files : List Path} {w : Watcher} {place dir : Location} {name : Bytes}

/-! ## Starting -/

theorem watch_eq_ok_iff {path : Path} {watched : Watch} :
    watch fs path = .ok watched ↔ fs.locate? path = some watched.place ∧ watched.path = path := by
  obtain ⟨place, other⟩ := watched
  unfold watch
  cases fs.locate? path with
  | none => simp
  | some found => simp [eq_comm]

def directories (fs : FileSystem) (files : List Path) : List Path :=
  Path.sortDistinct ((files.map fs.normalize).filterMap (·.parent?))

theorem start_eq (fs : FileSystem) (files : List Path) :
    start fs files = ((directories fs files).mapM (watch fs)).map fun watches =>
      { files := files.map fs.normalize, watches } := by
  rw [start, directories]
  cases (Path.sortDistinct ((files.map fs.normalize).filterMap (·.parent?))).mapM (watch fs) <;> rfl

/-- A watcher starts with the normal paths and a watch on each directory. -/
theorem start_eq_ok_iff : start fs files = .ok w ↔
    (directories fs files).mapM (watch fs) = .ok w.watches ∧ w.files = files.map fs.normalize ∧
      w.events = [] := by
  obtain ⟨normal, watches, events⟩ := w
  rw [start_eq]
  cases (directories fs files).mapM (watch fs) <;> simp [Except.map, eq_comm, and_comm, and_assoc]

theorem mem_directories_iff (hfs : fs.WellFormed) {path : Path} : path ∈ directories fs files ↔
    ∃ f ∈ files, (fs.normalize f).parent? = some path := by
  constructor
  · intro h
    simpa using Path.mem_of_mem_sortDistinct h
  · rintro ⟨f, hf, hparent⟩
    have hmem : path ∈ (files.map fs.normalize).filterMap (·.parent?) :=
      List.mem_filterMap.mpr ⟨_, List.mem_map_of_mem hf, hparent⟩
    obtain ⟨other, hother, hsame⟩ := Path.exists_same_sortDistinct hmem
    obtain ⟨normal, hnormal, hfrom⟩ := List.mem_filterMap.mp (Path.mem_of_mem_sortDistinct hother)
    obtain ⟨g, -, rfl⟩ := List.mem_map.mp hnormal
    obtain rfl : path = other := by
      rw [← ofParts_parts_of_parent?_normalize hfs hparent,
        ← ofParts_parts_of_parent?_normalize hfs hfrom, of_decide_eq_true hsame]
    exact hother

/-- The directory of each file is watched where it is. -/
theorem mem_watches_iff (hfs : fs.WellFormed) (hstart : start fs files = .ok w) {watched : Watch} :
    watched ∈ w.watches ↔ fs.locate? watched.path = some watched.place ∧
      ∃ f ∈ files, (fs.normalize f).parent? = some watched.path := by
  obtain ⟨hleft, hright⟩ := mem_of_mapM (start_eq_ok_iff.mp hstart).1
  rw [← mem_directories_iff hfs]
  constructor
  · intro h
    obtain ⟨path, hpath, hwatch⟩ := hright watched h
    obtain ⟨hplace, rfl⟩ := watch_eq_ok_iff.mp hwatch
    exact ⟨hplace, hpath⟩
  · rintro ⟨hplace, hpath⟩
    obtain ⟨other, hother, hwatch⟩ := hleft _ hpath
    obtain ⟨hfound, hsame⟩ := watch_eq_ok_iff.mp hwatch
    obtain rfl : watched = other := by
      cases watched
      cases other
      simp_all
    exact hother

/-! ## Events -/

/-- An entry is reported by the watches on its directory. -/
theorem mem_events_touch {e : Path} : e ∈ (w.touch (dir ++ [name])).events ↔
    e ∈ w.events ∨ ∃ watched ∈ w.watches, watched.place = dir ∧ e = watched.path.join ⟨name⟩ := by
  rw [touch, List.mem_append, List.mem_filterMap]
  simp [eq_comm (a := e)]

/-- On a directory that is watched under its own path, an entry is reported under its own. -/
theorem mem_events_touch_toPath (hfs : fs.WellFormed) (hslot : fs.IsSlot dir name)
    (hwatch : ⟨dir, dir.toPath⟩ ∈ w.watches) :
    Location.toPath (dir ++ [name]) ∈ (w.touch (dir ++ [name])).events :=
  mem_events_touch.mpr (.inr ⟨_, hwatch, rfl, (hslot.join_toPath hfs).symm⟩)

end Watcher

namespace Watched

variable {s s' start : Watched} {c : Change} {recent : List Change} {allowed : Node → Prop}

/-! ## Changes -/

/-- What becomes of a watched file system by a change. -/
inductive After (s : Watched) : Change → Watched → Prop
  | write {p : Path} {content : Bytes} {fs : FileSystem} {place : Location}
    (writes : s.fs.Writes p content fs place) :
    After s (.write p content) ⟨fs, s.watcher.touch place⟩
  | remove {p : Path} {fs : FileSystem} {place : Location} (removes : s.fs.Removes p fs place) :
    After s (.remove p) ⟨fs, s.watcher⟩
  | stay {p q : Path} {place : Location} (renames : s.fs.Renames p q s.fs place place) :
    After s (.rename p q) s
  | rename {p q : Path} {fs : FileSystem} {source target : Location}
    (renames : s.fs.Renames p q fs source target) (ne : source ≠ target) :
    After s (.rename p q) ⟨fs, s.watcher.relocate source target⟩

theorem after_of_after? (hfs : s.fs.WellFormed) (h : s.after? c = some s') : After s c s' := by
  cases c with
  | write p content =>
      obtain ⟨⟨fs, place⟩, hwrite, h⟩ := Option.bind_eq_some_iff.mp h
      obtain rfl := Option.some.inj h
      exact .write (writes_of_write? hfs hwrite)
  | remove p =>
      obtain ⟨⟨fs, place⟩, hremove, h⟩ := Option.bind_eq_some_iff.mp h
      obtain rfl := Option.some.inj h
      exact .remove (removes_of_remove? hremove)
  | rename p q =>
      obtain ⟨⟨fs, source, target⟩, hrename, h⟩ := Option.bind_eq_some_iff.mp h
      obtain rfl := Option.some.inj h
      have hrenames := renames_of_rename? hrename
      by_cases hne : source = target
      · subst hne
        obtain rfl := hrenames.eq_of_eq rfl
        simpa using After.stay hrenames
      · simpa [hne] using After.rename hrenames hne

/-- The nodes that a change takes from where they are. A write takes none, for it goes to a file or
to a free slot. -/
def Change.affected (fs : FileSystem) : Change → List Node
  | .write _ _ => []
  | .remove p => (fs.entryNode? p).toList
  | .rename p q => (fs.entryNode? p).toList ++ (fs.entryNode? q).toList

/-- A change that succeeds and takes allowed nodes only. -/
structure Step (allowed : Node → Prop) (s : Watched) (c : Change) (s' : Watched) : Prop where
  after : s.after? c = some s'
  allowed : ∀ node ∈ c.affected s.fs, allowed node

/-- A run of changes and batches, with the changes since the last batch. -/
inductive Run (allowed : Node → Prop) (start : Watched) : Watched → List Change → Prop
  | refl : Run allowed start start []
  | change {s s' : Watched} {recent : List Change} {c : Change} (run : Run allowed start s recent)
    (step : Step allowed s c s') : Run allowed start s' (recent ++ [c])
  | batch {s : Watched} {recent : List Change} (run : Run allowed start s recent) :
    Run allowed start s.batch.2 []

theorem Run.mono {allowed' : Node → Prop} (h : ∀ node, allowed node → allowed' node)
    (hrun : Run allowed start s recent) : Run allowed' start s recent := by
  induction hrun with
  | refl => exact .refl
  | change _ hstep ih =>
      exact .change ih ⟨hstep.after, fun node hnode => h node (hstep.allowed node hnode)⟩
  | batch _ ih => exact .batch ih

/-! ## What a run keeps -/

/-- Files may be taken, and directories are spared. -/
structure Sparing (allowed : Node → Prop) : Prop where
  file : ∀ node, node.IsFile → allowed node
  directory : ¬ allowed .directory

theorem sparing_isFile : Sparing Node.IsFile :=
  ⟨fun _ => id, id⟩

theorem sparing_ne_directory : Sparing (· ≠ .directory) :=
  ⟨fun _ => Node.IsFile.ne_directory, fun h => h rfl⟩

/-- Nodes that may not be taken stay, and so do the watches on directories. -/
structure Keeps (allowed : Node → Prop) (s s' : Watched) : Prop where
  sameBut : s.fs.SameBut allowed s'.fs
  wellFormed : s'.fs.WellFormed
  files : s'.watcher.files = s.watcher.files
  watches : ∀ watched ∈ s.watcher.watches, s.fs.isDirectoryAt watched.place = true →
    watched ∈ s'.watcher.watches

namespace Keeps

theorem refl (hfs : s.fs.WellFormed) : Keeps allowed s s :=
  ⟨.refl _ _, hfs, rfl, fun _ h _ => h⟩

theorem trans (hallowed : Sparing allowed) {s'' : Watched} (h : Keeps allowed s s')
    (h' : Keeps allowed s' s'') : Keeps allowed s s'' where
  sameBut := h.sameBut.trans h'.sameBut
  wellFormed := h'.wellFormed
  files := h'.files.trans h.files
  watches := fun watched hwatched hdir => h'.watches watched (h.watches watched hwatched hdir)
    (by rw [h.sameBut.isDirectoryAt hallowed.directory, hdir])

end Keeps

/-- A directory does not move with an entry that is none. -/
theorem moved_of_directory {fs : FileSystem} {source target place : Location} (hfs : fs.WellFormed)
    (hsource : fs.isDirectoryAt source = false) (hplace : fs.isDirectoryAt place = true) :
    moved source target place = place := by
  rw [moved, if_neg]
  intro hprefix
  obtain ⟨rest, rfl⟩ := List.isPrefixOf_iff_prefix.mp hprefix
  rw [hfs.isDirectoryAt_of_append hplace] at hsource
  cases hsource

theorem Step.keeps (hallowed : Sparing allowed) (hfs : s.fs.WellFormed) (h : Step allowed s c s') :
    Keeps allowed s s' := by
  have hnodes := h.allowed
  cases after_of_after? hfs h.after with
  | write hwrites =>
      obtain ⟨hsame, hfs'⟩ :=
        hwrites.sameBut_and_wellFormed hfs hallowed.directory hallowed.file
      exact ⟨hsame, hfs', rfl, fun _ hwatched _ => hwatched⟩
  | remove hremoves =>
      obtain ⟨hsame, hfs'⟩ := hremoves.sameBut_and_wellFormed hfs hallowed.directory
        fun node hnode => hnodes node (by simp [Change.affected, hnode])
      exact ⟨hsame, hfs', rfl, fun _ hwatched _ => hwatched⟩
  | stay _ => exact .refl hfs
  | @rename p q fs source target hrenames hne =>
      have hp : ∀ node, s.fs.entryNode? p = some node → allowed node :=
        fun node hnode => hnodes node (by simp [Change.affected, hnode])
      have hq : ∀ node, s.fs.entryNode? q = some node → allowed node :=
        fun node hnode => hnodes node (by simp [Change.affected, hnode])
      obtain ⟨hsame, hfs'⟩ := hrenames.sameBut_and_wellFormed hfs hallowed.directory hp hq
      refine ⟨hsame, hfs', rfl, fun watched hwatched hdir => ?_⟩
      have hsource := hrenames.source_not_directory hallowed.directory hp
      exact List.mem_map.mpr ⟨watched, hwatched, by rw [moved_of_directory hfs hsource hdir]⟩

theorem Keeps.write (hallowed : Sparing allowed) (hkeeps : Keeps allowed start s) {p : Path}
    {content : Bytes} (h : s.after? (.write p content) = some s') : Keeps allowed start s' :=
  hkeeps.trans hallowed
    (Step.keeps hallowed hkeeps.wellFormed ⟨h, fun _ => by simp [Change.affected]⟩)

theorem Run.keeps (hallowed : Sparing allowed) (hfs : start.fs.WellFormed)
    (hrun : Run allowed start s recent) : Keeps allowed start s := by
  induction hrun with
  | refl => exact .refl hfs
  | change _ hstep ih => exact ih.trans hallowed (hstep.keeps hallowed ih.wellFormed)
  | batch _ ih => exact ⟨ih.sameBut, ih.wellFormed, ih.files, ih.watches⟩

/-! ## Batches -/

theorem mem_of_mem_batch {q : Path} (h : q ∈ s.batch.1) :
    ∃ e ∈ s.watcher.events, s.watcher.isWatched s.fs e = true ∧ s.fs.normalize e = q := by
  obtain ⟨e, he, rfl⟩ := List.mem_map.mp (Path.mem_of_mem_sortDistinct h)
  obtain ⟨hmem, hwatched⟩ := List.mem_filter.mp he
  exact ⟨e, hmem, hwatched, rfl⟩

theorem exists_same_batch {e : Path} (he : e ∈ s.watcher.events)
    (hwatched : s.watcher.isWatched s.fs e = true) :
    ∃ q ∈ s.batch.1, (s.fs.normalize e).same q = true :=
  Path.exists_same_sortDistinct (List.mem_map_of_mem (List.mem_filter.mpr ⟨he, hwatched⟩))

end Watched

end ReleaseLog
