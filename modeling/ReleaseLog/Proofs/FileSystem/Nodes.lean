import ReleaseLog.FileSystem.Change
import ReleaseLog.Proofs.Path.Parts
import Mathlib.Data.List.Induction

/-!
# Well-formed file systems

Every entry of a well-formed file system stands in a directory, under a name that a path can spell.
Putting a file or a link there, taking one out and moving one keep it so, and leave every directory
where it is.
-/

namespace ReleaseLog

/-! ## Moving a key -/

namespace Assoc

variable {κ ν : Type} [DecidableEq κ] {entries : Assoc κ ν}

theorem exists_get?_of_mem {key : κ} {value : ν} (h : (key, value) ∈ entries) :
    ∃ first, entries.get? key = some first := by
  induction entries with
  | nil => cases h
  | cons pair rest ih =>
      obtain ⟨other, previous⟩ := pair
      by_cases hkey : key = other
      · exact ⟨previous, by rw [get?, if_pos hkey]⟩
      · rcases List.mem_cons.mp h with heq | h
        · exact absurd (Prod.mk.inj heq).1 hkey
        · obtain ⟨first, hfirst⟩ := ih h
          exact ⟨first, by rw [get?, if_neg hkey, hfirst]⟩

/-- One key becomes another one that was free, and the others stay. -/
theorem get?_map_key {source target : κ} {f : κ → κ} (hne : source ≠ target)
    (hfree : ∀ pair ∈ entries, pair.1 ≠ target)
    (hf : ∀ pair ∈ entries, f pair.1 = if pair.1 = source then target else pair.1) (key : κ) :
    get? key (entries.map fun (place, value) => (f place, value)) =
      if key = target then entries.get? source
      else if key = source then none
      else entries.get? key := by
  induction entries with
  | nil => simp
  | cons pair rest ih =>
      obtain ⟨head, value⟩ := pair
      obtain ⟨hhead, hrest⟩ := List.forall_mem_cons.mp hfree
      obtain ⟨hfhead, hfrest⟩ := List.forall_mem_cons.mp hf
      simp only at hhead hfhead
      rw [List.map_cons, get?, hfhead, ih hrest hfrest]
      by_cases hsource : head = source
      · subst hsource
        by_cases htarget : key = target
        · simp [htarget, get?]
        · by_cases hkey : key = head <;> simp [htarget, hkey, hne, get?]
      · by_cases hkey : key = head
        · subst hkey
          simp [hsource, hhead, get?]
        · simp [hsource, hkey, get?, Ne.symm hsource]

end Assoc

/-- The node is no link to a path with a zero octet. -/
def Node.isFollowable : Node → Bool
  | .link target => !target.bytes.contains 0
  | _ => true

namespace FileSystem

variable {fs fs' : FileSystem}

theorem isDirectoryAt_iff {place : Location} :
    fs.isDirectoryAt place = true ↔ fs.node? place = some .directory :=
  decide_eq_true_iff

/-- A name in a directory under which an entry can stand. -/
structure IsSlot (fs : FileSystem) (dir : Location) (name : Bytes) : Prop where
  directory : fs.isDirectoryAt dir = true
  isName : Path.IsName name
  zero_not_mem : 0 ∉ name

/-- Every entry stands in a directory under a proper name, and the targets of links can be followed.
Relative paths start at a directory. -/
structure WellFormed (fs : FileSystem) : Prop where
  current : fs.isDirectoryAt fs.current = true
  slot : ∀ dir name node, fs.node? (dir ++ [name]) = some node → fs.IsSlot dir name
  target : ∀ place target, fs.node? place = some (.link target) → 0 ∉ target.bytes

/-- It is enough to look at the listed nodes. -/
theorem wellFormed_of_nodes (hcurrent : fs.isDirectoryAt fs.current = true)
    (hslot : ∀ entry ∈ fs.nodes, fs.isDirectoryAt entry.1.dropLast = true ∧
      Path.IsName (entry.1.getLastD []) ∧ 0 ∉ entry.1.getLastD [])
    (htarget : ∀ entry ∈ fs.nodes, entry.2.isFollowable = true) : fs.WellFormed where
  current := hcurrent
  slot := by
    intro dir name node h
    have hmem : (dir ++ [name], node) ∈ fs.nodes :=
      Assoc.mem_of_get? (by simpa [node?] using h)
    obtain ⟨hdir, hname, hzero⟩ := hslot _ hmem
    simp only [List.dropLast_concat, List.getLastD_concat] at hdir hname hzero
    exact ⟨hdir, hname, hzero⟩
  target := by
    intro place target h
    have hne : place ≠ [] := by
      rintro rfl
      cases h
    have hlink : (Node.link target).isFollowable = true :=
      htarget _ (Assoc.mem_of_get? (by simpa [node?, hne] using h))
    simpa [Node.isFollowable] using hlink

/-! ## Above an entry -/

namespace WellFormed

theorem isDirectoryAt_of_append (hfs : fs.WellFormed) {place rest : Location}
    (h : fs.isDirectoryAt (place ++ rest) = true) : fs.isDirectoryAt place = true := by
  induction rest using List.reverseRecOn with
  | nil => simpa using h
  | append_singleton rest name ih =>
      rw [← List.append_assoc, isDirectoryAt_iff] at h
      exact ih (hfs.slot _ _ _ h).directory

theorem isDirectoryAt_dropLast (hfs : fs.WellFormed) {place : Location}
    (h : fs.isDirectoryAt place = true) : fs.isDirectoryAt place.dropLast = true := by
  obtain rfl | ⟨front, last, rfl⟩ := List.eq_nil_or_concat' place
  · rfl
  · rw [List.dropLast_concat]
    exact hfs.isDirectoryAt_of_append h

theorem proper_of_mem (hfs : fs.WellFormed) {place : Location}
    (h : fs.isDirectoryAt place = true) : ∀ name ∈ place, Path.IsName name ∧ 0 ∉ name := by
  induction place using List.reverseRecOn with
  | nil => exact fun _ hname => by cases hname
  | append_singleton dir last ih =>
      have hslot := hfs.slot _ _ _ (isDirectoryAt_iff.mp h)
      intro name hname
      rcases List.mem_append.mp hname with hname | hname
      · exact ih hslot.directory name hname
      · obtain rfl := List.mem_singleton.mp hname
        exact ⟨hslot.isName, hslot.zero_not_mem⟩

theorem isName_of_mem (hfs : fs.WellFormed) {place : Location}
    (h : fs.isDirectoryAt place = true) : ∀ name ∈ place, Path.IsName name :=
  fun name hname => (hfs.proper_of_mem h name hname).1

theorem zero_not_mem_of_mem (hfs : fs.WellFormed) {place : Location}
    (h : fs.isDirectoryAt place = true) : ∀ name ∈ place, 0 ∉ name :=
  fun name hname => (hfs.proper_of_mem h name hname).2

/-- Nothing stands below something other than a directory. -/
theorem eq_of_prefix (hfs : fs.WellFormed) {place rest : Location} {node : Node}
    (hplace : fs.isDirectoryAt place = false) (h : fs.node? (place ++ rest) = some node) :
    rest = [] := by
  obtain rfl | ⟨front, last, rfl⟩ := List.eq_nil_or_concat' rest
  · rfl
  · rw [← List.append_assoc] at h
    have hdir := hfs.isDirectoryAt_of_append (hfs.slot _ _ _ h).directory
    rw [hplace] at hdir
    cases hdir

/-- Entries other than directories may come and go where a slot is. -/
theorem of_updates (hfs : fs.WellFormed) (hcurrent : fs'.current = fs.current)
    (hdirs : ∀ place, fs'.isDirectoryAt place = fs.isDirectoryAt place)
    (hnodes : ∀ place node, fs'.node? place = some node → fs.node? place = some node ∨
      (∃ dir name, place = dir ++ [name] ∧ fs.IsSlot dir name) ∧
        ∀ target, node = .link target → 0 ∉ target.bytes) : fs'.WellFormed where
  current := by rw [hcurrent, hdirs, hfs.current]
  slot := by
    intro dir name node h
    have hslot : fs.IsSlot dir name := by
      rcases hnodes _ node h with hold | ⟨⟨other, last, heq, hslot⟩, -⟩
      · exact hfs.slot _ _ _ hold
      · obtain ⟨rfl, hlast⟩ := List.append_inj' heq rfl
        obtain rfl := List.singleton_inj.mp hlast
        exact hslot
    exact ⟨by rw [hdirs, hslot.directory], hslot.isName, hslot.zero_not_mem⟩
  target := by
    intro place target h
    rcases hnodes _ _ h with hold | ⟨-, hlink⟩
    · exact hfs.target _ _ hold
    · exact hlink target rfl

end WellFormed

/-! ## One entry changed -/

theorem node?_set {place : Location} (hne : place ≠ []) (node : Node) (other : Location) :
    (fs.set place node).node? other = if other = place then some node else fs.node? other := by
  unfold node?
  by_cases hother : other = []
  · subst hother
    rw [if_pos rfl, if_neg (Ne.symm hne), if_pos rfl]
  · rw [if_neg hother, if_neg hother]
    exact Assoc.get?_put _ _ _ _

theorem node?_erase {place : Location} (hne : place ≠ []) (other : Location) :
    node? { fs with nodes := fs.nodes.erase place } other =
      if other = place then none else fs.node? other := by
  unfold node?
  by_cases hother : other = []
  · subst hother
    rw [if_pos rfl, if_neg (Ne.symm hne), if_pos rfl]
  · rw [if_neg hother, if_neg hother]
    exact Assoc.get?_erase _ _ _

/-- Nothing but the source moves, for nothing is below it. -/
theorem node?_move (hfs : fs.WellFormed) {source target : Location}
    (hsource : fs.isDirectoryAt source = false) (hne : source ≠ target) (htarget : target ≠ [])
    (place : Location) :
    node? { fs with nodes := (fs.nodes.erase target).map fun (place, node) =>
      (moved source target place, node) } place =
      if place = target then fs.node? source
      else if place = source then none
      else fs.node? place := by
  have hroot : source ≠ [] := by
    rintro rfl
    cases hsource
  have hfree : ∀ pair ∈ fs.nodes.erase target, pair.1 ≠ target := fun pair hpair =>
    of_decide_eq_true (List.mem_filter.mp hpair).2
  have hmoved : ∀ pair ∈ fs.nodes.erase target,
      moved source target pair.1 = if pair.1 = source then target else pair.1 := by
    rintro ⟨other, node⟩ hpair
    have hmem := (List.mem_filter.mp hpair).1
    by_cases hother : other = source
    · subst hother
      rw [if_pos rfl, moved, if_pos (List.isPrefixOf_iff_prefix.mpr (List.prefix_refl _)),
        List.drop_length, List.append_nil]
    · rw [if_neg hother, moved, if_neg]
      intro hprefix
      obtain ⟨rest, rfl⟩ := List.isPrefixOf_iff_prefix.mp hprefix
      obtain ⟨first, hfirst⟩ := Assoc.exists_get?_of_mem hmem
      have hnode : fs.node? (source ++ rest) = some first := by
        rw [node?, if_neg (by simp [hroot]), hfirst]
      exact hother (by rw [hfs.eq_of_prefix hsource hnode, List.append_nil])
  have hget : ∀ other, Assoc.get? other (fs.nodes.erase target) =
      if other = target then none else fs.nodes.get? other :=
    fun other => Assoc.get?_erase target other fs.nodes
  unfold node?
  by_cases hplace : place = []
  · subst hplace
    rw [if_pos rfl, if_neg (Ne.symm htarget), if_neg (Ne.symm hroot), if_pos rfl]
  · rw [if_neg hplace, if_neg hroot, if_neg hplace]
    simp only [Assoc.get?_map_key hne hfree hmoved, hget]
    by_cases heq : place = target <;> simp [heq, hne]

end FileSystem

end ReleaseLog
