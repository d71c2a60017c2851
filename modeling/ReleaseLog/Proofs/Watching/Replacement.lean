import ReleaseLog.Proofs.Watching.Runs

/-!
# Replaced files

A file is still watched when it was replaced, and writing to it is still reported, as long as its
path leads to where it led when the watcher started. It does so while no link is taken away.
-/

namespace ReleaseLog

open FileSystem

namespace FileSystem

variable {fs fs' : FileSystem} {f : Path}

/-- The path names an entry that is no link. -/
def NamesEntry (fs : FileSystem) (f : Path) : Prop :=
  ∃ dir name, fs.Names f dir name ∧ ∀ target, fs.node? (dir ++ [name]) ≠ some (.link target)

theorem SameBut.normalize_of_namesEntry (h : fs.SameBut Node.IsFile fs') (hfs : fs.WellFormed)
    (hfs' : fs'.WellFormed) (hf : fs.NamesEntry f) : fs'.normalize f = fs.normalize f := by
  obtain ⟨dir, name, hnames, hlink⟩ := hf
  have hlink' : ∀ target, fs'.node? (dir ++ [name]) ≠ some (.link target) :=
    fun target hnode => hlink target ((h.node? _ _ id).mp hnode)
  rw [hnames.normalize hfs hlink, (h.names hfs hfs' hnames).normalize hfs' hlink']

theorem SameBut.normalize_of_locate? (h : fs.SameBut Node.IsFile fs') (hf : (fs.locate? f).isSome)
    (hf' : (fs'.locate? f).isSome) : fs'.normalize f = fs.normalize f := by
  obtain ⟨place, hplace⟩ := Option.isSome_iff_exists.mp hf
  obtain ⟨place', hplace'⟩ := Option.isSome_iff_exists.mp hf'
  obtain ⟨r, hr, hsame⟩ := h.exists_reach (locate?_eq_some_iff.mp hplace)
  obtain rfl : .existing place' = r :=
    Option.some.inj ((locate?_eq_some_iff.mp hplace').symm.trans hr)
  obtain rfl : place' = place := hsame
  rw [FileSystem.normalize_of_locate? hplace, FileSystem.normalize_of_locate? hplace']

end FileSystem

theorem Path.same_symm {p q : Path} (h : p.same q = true) : q.same p = true :=
  decide_eq_true (of_decide_eq_true h).symm

theorem Watcher.isWatched_iff {w : Watcher} {fs : FileSystem} {p : Path} :
    w.isWatched fs p = true ↔ ∃ q ∈ w.files, q.same (fs.normalize p) = true :=
  List.any_eq_true

namespace Watched

variable {fs : FileSystem} {files : List Path} {w : Watcher} {s s' : Watched} {recent : List Change}
  {p : Path} {content : Bytes} {dir : Location} {name : Bytes}

/-! ## Writing to a watched file -/

/-- The directory of an entry with a watched path is watched under its own path. -/
theorem mem_watches_of_same (hfs : fs.WellFormed) (hstart : Watcher.start fs files = .ok w)
    (hslot : fs.IsSlot dir name) {q : Path} (hq : q ∈ w.files)
    (hsame : q.same (Location.toPath (dir ++ [name])) = true) : ⟨dir, dir.toPath⟩ ∈ w.watches := by
  obtain ⟨-, hfiles, -⟩ := Watcher.start_eq_ok_iff.mp hstart
  obtain ⟨f, hf, rfl⟩ := List.mem_map.mp (hfiles ▸ hq)
  exact (Watcher.mem_watches_iff hfs hstart).mpr
    ⟨locate?_toPath_directory hfs hslot.directory, f, hf,
      Location.parent?_of_same (hfs.isName_of_mem hslot.directory) hslot.isName hsame⟩

/-- A write is reported exactly if its path is a watched one afterwards. -/
theorem isWatched_iff_reported (hfs : fs.WellFormed) (hstart : Watcher.start fs files = .ok w)
    {allowed : Node → Prop} (hallowed : Sparing allowed) (hkeeps : Keeps allowed ⟨fs, w⟩ s)
    (hwrite : s.after? (.write p content) = some s') :
    s'.watcher.isWatched s'.fs p = true ↔
      ∃ q ∈ s'.batch.1, q.same (s'.fs.normalize p) = true := by
  have hfs' := hkeeps.wellFormed
  constructor
  · intro hwatched
    cases after_of_after? hfs' hwrite with
    | @write _ _ fs'' place hwrites =>
        obtain ⟨hsame, hfs''⟩ :=
          hwrites.sameBut_and_wellFormed hfs' hallowed.directory hallowed.file
        obtain ⟨dir, name, rfl, hslot⟩ := hwrites.slot
        have hslot₀ := hkeeps.sameBut.symm.isSlot hallowed.directory hslot
        have hslot'' := hsame.isSlot hallowed.directory hslot
        have hnormal : fs''.normalize p = Location.toPath (dir ++ [name]) :=
          normalize_of_locate? (hwrites.locate?_eq hfs')
        have hself : fs''.normalize (Location.toPath (dir ++ [name])) = fs''.normalize p := by
          have hlink : ∀ target, fs''.node? (dir ++ [name]) ≠ some (.link target) := by
            intro target
            rw [hwrites.node?_eq, if_pos rfl]
            simp
          rw [hslot''.normalize_toPath hfs'' hlink, hnormal]
        obtain ⟨q, hq, hqsame⟩ := Watcher.isWatched_iff.mp hwatched
        have hwatch := mem_watches_of_same hfs hstart hslot₀ (hkeeps.files ▸ hq) (hnormal ▸ hqsame)
        have hevent := Watcher.mem_events_touch_toPath hfs' hslot
          (hkeeps.watches _ hwatch hslot₀.directory)
        obtain ⟨r, hr, hrsame⟩ := exists_same_batch (s := ⟨fs'', _⟩) hevent
          (Watcher.isWatched_iff.mpr ⟨q, hq, hself ▸ hqsame⟩)
        exact ⟨r, hr, hself ▸ Path.same_symm hrsame⟩
  · rintro ⟨q, hq, hqsame⟩
    obtain ⟨e, -, hwatched, rfl⟩ := mem_of_mem_batch hq
    obtain ⟨f, hf, hfsame⟩ := Watcher.isWatched_iff.mp hwatched
    exact Watcher.isWatched_iff.mpr
      ⟨f, hf, decide_eq_true ((of_decide_eq_true hfsame).trans (of_decide_eq_true hqsame))⟩

/-! ## Replacing a watched file -/

/-- A path that leads to where it led at the start is watched. -/
theorem isWatched_of_normalize_eq (hstart : Watcher.start fs files = .ok w)
    (hfiles : s.watcher.files = w.files) {f : Path} (hf : f ∈ files)
    (h : s.fs.normalize f = fs.normalize f) : s.watcher.isWatched s.fs f = true := by
  obtain ⟨-, hnormal, -⟩ := Watcher.start_eq_ok_iff.mp hstart
  refine Watcher.isWatched_iff.mpr ⟨fs.normalize f, ?_, decide_eq_true (by rw [h])⟩
  rw [hfiles, hnormal]
  exact List.mem_map_of_mem hf

theorem reported_of_normalize_eq (hfs : fs.WellFormed) (hstart : Watcher.start fs files = .ok w)
    {allowed : Node → Prop} (hallowed : Sparing allowed) (hkeeps : Keeps allowed ⟨fs, w⟩ s)
    {f : Path} (hf : f ∈ files) (hwrite : s.after? (.write f content) = some s')
    (h : s'.fs.normalize f = fs.normalize f) :
    ∃ q ∈ s'.batch.1, q.same (fs.normalize f) = true := by
  rw [← h]
  exact (isWatched_iff_reported hfs hstart hallowed hkeeps hwrite).mp
    (isWatched_of_normalize_eq hstart (hkeeps.write hallowed hwrite).files hf h)

/-- Whatever happens to files and links, a watched file that leads to where it led at the start is
still watched, and a write to it is reported. While the links stay as they are, that is the case for
each file that is no link, and for a link as long as there is something at its end. -/
theorem replaced_files_stay_watched (hfs : fs.WellFormed) (hstart : Watcher.start fs files = .ok w)
    (hrun : Run (· ≠ .directory) ⟨fs, w⟩ s recent) {f : Path} (hf : f ∈ files) :
    (s.fs.normalize f = fs.normalize f → s.watcher.isWatched s.fs f = true) ∧
    (∀ content s', s.after? (.write f content) = some s' → s'.fs.normalize f = fs.normalize f →
      ∃ q ∈ s'.batch.1, q.same (fs.normalize f) = true) ∧
    (Run Node.IsFile ⟨fs, w⟩ s recent →
      (fs.NamesEntry f ∨ (fs.locate? f).isSome ∧ (s.fs.locate? f).isSome →
        s.watcher.isWatched s.fs f = true) ∧
      (fs.NamesEntry f ∨ (fs.locate? f).isSome →
        ∀ content s', s.after? (.write f content) = some s' →
          ∃ q ∈ s'.batch.1, q.same (fs.normalize f) = true)) := by
  have hkeeps := hrun.keeps sparing_ne_directory hfs
  refine ⟨isWatched_of_normalize_eq hstart hkeeps.files hf, fun content s' hwrite =>
    reported_of_normalize_eq hfs hstart sparing_ne_directory hkeeps hf hwrite, fun hfiles => ?_⟩
  have hspared := hfiles.keeps sparing_isFile hfs
  refine ⟨fun h => isWatched_of_normalize_eq hstart hkeeps.files hf ?_,
    fun h content s' hwrite =>
      reported_of_normalize_eq hfs hstart sparing_isFile hspared hf hwrite ?_⟩
  · rcases h with hnames | ⟨hthen, hnow⟩
    · exact hspared.sameBut.normalize_of_namesEntry hfs hspared.wellFormed hnames
    · exact hspared.sameBut.normalize_of_locate? hthen hnow
  · have hkeeps' := hspared.write sparing_isFile hwrite
    rcases h with hnames | hthen
    · exact hkeeps'.sameBut.normalize_of_namesEntry hfs hkeeps'.wellFormed hnames
    · refine hkeeps'.sameBut.normalize_of_locate? hthen ?_
      cases after_of_after? hspared.wellFormed hwrite with
      | write hwrites => simp [hwrites.locate?_eq hspared.wellFormed]

/-! ## A link in the place of a changelog -/

def changelogPath : Path := .ofString "CHANGELOG.md"

/-- The path of the file that holds it, where the changelog is a link. -/
def filePath : Path := .ofString "real.md"

def draftPath : Path := .ofString "tmp.md"

/-- A changelog that is a link, and a draft. -/
def linked : FileSystem where
  nodes := [([filePath.bytes], .file [0x61]), ([changelogPath.bytes], .link filePath),
    ([draftPath.bytes], .file [0x62])]

/-- The watcher for the link, which knows the file at its end. -/
def linkedWatcher : Watcher where
  files := [Location.toPath [filePath.bytes]]
  watches := [⟨[], Location.toPath []⟩]

/-- The state in which the draft has taken the place of the link or of the file at its end. -/
def saved (target : Path) : Watched :=
  ((Watched.mk linked linkedWatcher).after? (.rename draftPath target)).getD ⟨linked, linkedWatcher⟩

theorem linked_wellFormed : linked.WellFormed :=
  wellFormed_of_nodes rfl (by decide) (by decide)

theorem start_linked : Watcher.start linked [changelogPath] = .ok linkedWatcher := by
  decide +kernel

theorem step_saved_file :
    Step Node.IsFile ⟨linked, linkedWatcher⟩ (.rename draftPath filePath) (saved filePath) where
  after := rfl
  allowed := by decide

theorem step_saved_link :
    Step (· ≠ .directory) ⟨linked, linkedWatcher⟩ (.rename draftPath changelogPath)
      (saved changelogPath) where
  after := rfl
  allowed := by decide

/-- The link stays watched when the file at its end is replaced. -/
theorem replaced_end_stays_watched :
    linked.WellFormed ∧ Watcher.start linked [changelogPath] = .ok linkedWatcher ∧
      Run Node.IsFile ⟨linked, linkedWatcher⟩ (saved filePath) [.rename draftPath filePath] ∧
      (saved filePath).watcher.isWatched (saved filePath).fs changelogPath = true ∧
      ∀ content s', (saved filePath).after? (.write changelogPath content) = some s' →
        ∃ q ∈ s'.batch.1, q.same (linked.normalize changelogPath) = true := by
  have hrun : Run Node.IsFile ⟨linked, linkedWatcher⟩ (saved filePath)
      [.rename draftPath filePath] := .change .refl step_saved_file
  have hlocated : (linked.locate? changelogPath).isSome = true := by decide +kernel
  obtain ⟨-, -, hspared⟩ := replaced_files_stay_watched linked_wellFormed start_linked
    (hrun.mono fun _ => Node.IsFile.ne_directory) (List.mem_singleton_self changelogPath)
  obtain ⟨hwatched, hreported⟩ := hspared hrun
  exact ⟨linked_wellFormed, start_linked, hrun, hwatched (.inr ⟨hlocated, by decide +kernel⟩),
    hreported (.inr hlocated)⟩

/-- The link does not stay watched when it is replaced itself. -/
theorem replaced_link_unwatched :
    ¬ ∀ (fs : FileSystem) (files : List Path) (w : Watcher) (s : Watched) (recent : List Change),
      fs.WellFormed → Watcher.start fs files = .ok w → Run (· ≠ .directory) ⟨fs, w⟩ s recent →
        ∀ f ∈ files, s.watcher.isWatched s.fs f = true := by
  intro h
  have hwatched := h linked [changelogPath] linkedWatcher (saved changelogPath) _
    linked_wellFormed start_linked (.change .refl step_saved_link) changelogPath
    (List.mem_singleton_self changelogPath)
  exact absurd hwatched (by decide +kernel)

end Watched

end ReleaseLog
