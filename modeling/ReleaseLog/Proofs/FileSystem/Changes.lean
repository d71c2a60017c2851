import ReleaseLog.Proofs.FileSystem.Naming

/-!
# File systems that agree

Two file systems that differ in files only lead every path to the same place, and there to the same
directory. Writing, removing and renaming change what they are said to, and nothing else.
-/

namespace ReleaseLog

def Node.IsFile : Node → Prop
  | .file _ => True
  | _ => False

instance : DecidablePred Node.IsFile
  | .file _ => isTrue trivial
  | .directory | .link _ => isFalse id

theorem Node.IsFile.ne_directory {node : Node} (h : node.IsFile) : node ≠ .directory := by
  rintro rfl
  exact h

namespace FileSystem

variable {fs fs' fs'' : FileSystem} {free : Node → Prop} {links : Nat} {place dir : Location}
  {steps : List Step} {p : Path} {name : Bytes}

/-- The file systems have the same nodes, but for those of free kinds. -/
structure SameBut (free : Node → Prop) (fs fs' : FileSystem) : Prop where
  current : fs'.current = fs.current
  node? : ∀ place node, ¬ free node → (fs'.node? place = some node ↔ fs.node? place = some node)

namespace SameBut

theorem refl (free : Node → Prop) (fs : FileSystem) : fs.SameBut free fs :=
  ⟨rfl, fun _ _ _ => Iff.rfl⟩

theorem symm (h : fs.SameBut free fs') : fs'.SameBut free fs :=
  ⟨h.current.symm, fun place node hnode => (h.node? place node hnode).symm⟩

theorem trans (h : fs.SameBut free fs') (h' : fs'.SameBut free fs'') : fs.SameBut free fs'' :=
  ⟨h'.current.trans h.current,
    fun place node hnode => (h'.node? place node hnode).trans (h.node? place node hnode)⟩

theorem isDirectoryAt (h : fs.SameBut free fs') (hfree : ¬ free .directory) (place : Location) :
    fs'.isDirectoryAt place = fs.isDirectoryAt place := by
  rw [Bool.eq_iff_iff, isDirectoryAt_iff, isDirectoryAt_iff, h.node? place _ hfree]

theorem isSlot (h : fs.SameBut free fs') (hfree : ¬ free .directory) (hslot : fs.IsSlot dir name) :
    fs'.IsSlot dir name :=
  ⟨by rw [h.isDirectoryAt hfree, hslot.directory], hslot.isName, hslot.zero_not_mem⟩

end SameBut

/-! ## Resolution up to files -/

/-- The same link, or the same place. -/
inductive Stop.Alike : Stop → Stop → Prop
  | done {reached other : Option Reached}
    (place : reached.map Reached.place = other.map Reached.place) :
    Alike (.done reached) (.done other)
  | link (parent : Location) (target : Path) (rest : List Step) :
    Alike (.link parent target rest) (.link parent target rest)

def HasNoOther (fs : FileSystem) (place : Location) : Prop :=
  ∀ node, fs.node? place = some node → node.IsFile

theorem exists_advance_into_file (hdir : fs.isDirectoryAt dir = true)
    (h : fs.HasNoOther (dir ++ [name])) :
    ∃ reached, fs.advance dir (.into name :: steps) = .done reached ∧
      reached.map Reached.place = if steps = [] then some (dir ++ [name]) else none := by
  cases hnode : fs.node? (dir ++ [name]) with
  | none =>
      refine ⟨if steps = [] then some (.missing dir name) else none, ?_, ?_⟩
      · simp [advance, hdir, hnode]
      · split <;> rfl
  | some node =>
      cases node with
      | link _ | directory => exact (h _ hnode).elim
      | file content =>
          have hfile : fs.isDirectoryAt (dir ++ [name]) = false := by simp [isDirectoryAt, hnode]
          refine ⟨if steps = [] then some (.existing (dir ++ [name])) else none, ?_, ?_⟩
          · simp [advance, hdir, hnode, advance_of_not_directory hfile]
          · split <;> rfl

namespace SameBut

/-- What is there is the same in both, unless it is nothing or a file in both. -/
theorem node_cases (h : fs.SameBut Node.IsFile fs') (place : Location) :
    (∃ node, ¬ node.IsFile ∧ fs.node? place = some node ∧ fs'.node? place = some node) ∨
      fs.HasNoOther place ∧ fs'.HasNoOther place := by
  by_cases hall : fs.HasNoOther place
  · refine .inr ⟨hall, fun node hnode => ?_⟩
    by_contra hkind
    exact hkind (hall node ((h.node? place node hkind).mp hnode))
  · obtain ⟨node, hnode, hkind⟩ : ∃ node, fs.node? place = some node ∧ ¬ node.IsFile := by
      simpa [HasNoOther] using hall
    exact .inl ⟨node, hkind, hnode, (h.node? place node hkind).mpr hnode⟩

theorem advance_alike (h : fs.SameBut Node.IsFile fs') (place : Location) (steps : List Step) :
    (fs.advance place steps).Alike (fs'.advance place steps) := by
  have hdirs := h.isDirectoryAt id
  induction steps generalizing place with
  | nil => exact .done rfl
  | cons step steps ih =>
      by_cases hdir : fs.isDirectoryAt place = true
      · have hdir' : fs'.isDirectoryAt place = true := by rw [hdirs, hdir]
        cases step with
        | stay => simpa [advance, hdir, hdir'] using ih place
        | up => simpa [advance, hdir, hdir'] using ih place.dropLast
        | into name =>
            rcases h.node_cases (place ++ [name]) with
              ⟨node, hkind, hnode, hnode'⟩ | ⟨hfile, hfile'⟩
            · cases node with
              | file content => exact (hkind trivial).elim
              | link target =>
                  simpa [advance, hdir, hdir', hnode, hnode'] using .link place target steps
              | directory =>
                  simpa [advance, hdir, hdir', hnode, hnode'] using ih (place ++ [name])
            · obtain ⟨reached, hadvance, hplace⟩ := exists_advance_into_file hdir hfile
              obtain ⟨other, hadvance', hplace'⟩ := exists_advance_into_file hdir' hfile'
              rw [hadvance, hadvance']
              exact .done (hplace.trans hplace'.symm)
      · simpa [advance, hdir, hdirs] using .done rfl

theorem walk_alike (h : fs.SameBut Node.IsFile fs') (links : Nat) (place : Location)
    (steps : List Step) :
    (fs.walk links place steps).map Reached.place =
      (fs'.walk links place steps).map Reached.place := by
  induction links generalizing place steps with
  | zero =>
      rw [walk_eq, @walk_eq fs']
      have halike := h.advance_alike place steps
      generalize fs.advance place steps = stop, fs'.advance place steps = other at halike ⊢
      cases halike with
      | done hplace => exact hplace
      | link parent target rest => rfl
  | succ links ih =>
      rw [walk_eq, @walk_eq fs']
      have halike := h.advance_alike place steps
      generalize fs.advance place steps = stop, fs'.advance place steps = other at halike ⊢
      cases halike with
      | done hplace => exact hplace
      | link parent target rest => exact ih _ _

theorem reach_alike (h : fs.SameBut Node.IsFile fs') (p : Path) :
    (fs.reach p).map Reached.place = (fs'.reach p).map Reached.place := by
  unfold reach
  split
  · rw [show fs'.origin p = fs.origin p by rw [origin, h.current, origin]]
    exact h.walk_alike _ _ _
  · rfl

end SameBut

/-- A result at a place where something stands exists. -/
theorem Reached.Fits.eq_existing {r : Reached} (h : r.Fits fs) {node : Node}
    (hnode : fs.node? r.place = some node) : r = .existing r.place := by
  cases r with
  | existing place => rfl
  | missing parent name => cases h.2.symm.trans hnode

namespace SameBut

theorem walk_directory (h : fs.SameBut Node.IsFile fs') (hfs' : fs'.WellFormed)
    (hplace : fs.isDirectoryAt place = true) (hsteps : Spelled steps)
    (hdir : fs.isDirectoryAt dir = true)
    (hwalk : fs.walk links place steps = some (.existing dir)) :
    fs'.walk links place steps = some (.existing dir) := by
  have hmap := h.walk_alike links place steps
  rw [hwalk] at hmap
  obtain ⟨r, hr, hrdir⟩ := Option.map_eq_some_iff.mp hmap.symm
  obtain rfl : r.place = dir := hrdir
  have hstart : fs'.Stands place :=
    stands_of_isDirectoryAt (by rw [h.isDirectoryAt id, hplace])
  have hnode : fs'.node? r.place = some .directory :=
    isDirectoryAt_iff.mp (by rw [h.isDirectoryAt id, hdir])
  rw [hr, (walk_fits hfs' hstart hsteps hr).eq_existing hnode]
  rfl

theorem origin_eq (h : fs.SameBut free fs') (p : Path) : fs'.origin p = fs.origin p := by
  rw [origin, h.current, origin]

theorem exists_reach (h : fs.SameBut Node.IsFile fs') {r : Reached} (hr : fs.reach p = some r) :
    ∃ other, fs'.reach p = some other ∧ other.place = r.place := by
  have hmap := h.reach_alike p
  rw [hr] at hmap
  exact Option.map_eq_some_iff.mp hmap.symm

/-- A path still leads to its place, as long as something is there. -/
theorem locate?_of_node (h : fs.SameBut Node.IsFile fs') (hfs' : fs'.WellFormed)
    {r : Reached} (hr : fs.reach p = some r) {node : Node} (hnode : fs'.node? r.place = some node) :
    fs'.locate? p = some r.place := by
  obtain ⟨other, hother, hplace⟩ := h.exists_reach hr
  rw [← hplace] at hnode ⊢
  rw [locate?_eq_some_iff, hother, ← (reach_fits hfs' hother).eq_existing hnode]

theorem names (h : fs.SameBut Node.IsFile fs') (hfs : fs.WellFormed) (hfs' : fs'.WellFormed)
    (hnames : fs.Names p dir name) : fs'.Names p dir name := by
  obtain ⟨front, stays, hsteps, hstays, hwalk⟩ := hnames.steps
  have hfront : Spelled front := fun other hother =>
    spelled_steps (zero_not_mem_of_isUsable hnames.usable) other (by simp [hsteps, hother])
  refine ⟨hnames.usable, by rw [h.isDirectoryAt id, hnames.directory],
    front, stays, hsteps, hstays, ?_⟩
  rw [h.origin_eq]
  exact h.walk_directory hfs' (hfs.isDirectoryAt_origin p) hfront hnames.directory hwalk

end SameBut

/-! ## Changes of entries -/

/-- A node that may come in where it is not. -/
structure Enters (free : Node → Prop) (fs : FileSystem) (place : Location) (node : Node) :
    Prop where
  free : free node
  slot : ∃ dir name, place = dir ++ [name] ∧ fs.IsSlot dir name
  target : ∀ target, node = .link target → 0 ∉ target.bytes

/-- Free nodes come and go, and everything else stays. -/
theorem sameBut_and_wellFormed (hfs : fs.WellFormed) (hfree : ¬ free .directory)
    (hcurrent : fs'.current = fs.current)
    (h : ∀ place, fs'.node? place = fs.node? place ∨
      (∀ node, fs.node? place = some node → free node) ∧
        ∀ node, fs'.node? place = some node → fs.Enters free place node) :
    fs.SameBut free fs' ∧ fs'.WellFormed := by
  have hsame : fs.SameBut free fs' := by
    refine ⟨hcurrent, fun place node hnode => ?_⟩
    rcases h place with heq | ⟨hold, hnew⟩
    · rw [heq]
    · exact ⟨fun hplace => absurd (hnew node hplace).free hnode,
        fun hplace => absurd (hold node hplace) hnode⟩
  refine ⟨hsame, hfs.of_updates hcurrent (hsame.isDirectoryAt hfree) fun place node hplace => ?_⟩
  rcases h place with heq | ⟨-, hnew⟩
  · exact .inl (heq ▸ hplace)
  · exact .inr ⟨(hnew node hplace).slot, (hnew node hplace).target⟩

/-- A write goes to a file or to a free slot. -/
structure Writes (fs : FileSystem) (p : Path) (content : Bytes) (fs' : FileSystem)
    (place : Location) : Prop where
  reach : ∃ r, fs.reach p = some r ∧ r.place = place
  slot : ∃ dir name, place = dir ++ [name] ∧ fs.IsSlot dir name
  file : fs.HasNoOther place
  eq_set : fs' = fs.set place (.file content)

theorem writes_of_write? (hfs : fs.WellFormed) {content : Bytes}
    (h : fs.write? p content = some (fs', place)) : fs.Writes p content fs' place := by
  unfold write? at h
  simp only [guard, Option.bind_eq_bind, Option.bind_eq_some_iff] at h
  obtain ⟨r, hr, h⟩ := h
  have hfits := reach_fits hfs hr
  cases r with
  | existing other =>
      simp only [Option.bind_eq_some_iff] at h
      obtain ⟨node, hnode, h⟩ := h
      cases node with
      | link _ | directory => cases h
      | file old =>
          obtain ⟨rfl, rfl⟩ := Prod.mk.inj (Option.some.inj h)
          obtain rfl | ⟨dir, name, rfl⟩ := List.eq_nil_or_concat' other
          · cases hnode
          · have hfile : fs.HasNoOther (dir ++ [name]) := fun node hother => by
              obtain rfl := Option.some.inj (hnode.symm.trans hother)
              trivial
            exact ⟨⟨_, hr, rfl⟩, ⟨dir, name, rfl, hfs.slot _ _ _ hnode⟩, hfile, rfl⟩
  | missing dir name =>
      simp only [Option.bind_eq_some_iff] at h
      obtain ⟨_, -, h⟩ := h
      obtain ⟨rfl, rfl⟩ := Prod.mk.inj (Option.some.inj h)
      have hnone : fs.HasNoOther (dir ++ [name]) := fun node hnode => by
        cases hfits.2.symm.trans hnode
      exact ⟨⟨_, hr, rfl⟩, ⟨dir, name, rfl, hfits.1⟩, hnone, rfl⟩

namespace Writes

variable {content : Bytes}

theorem ne_nil (h : fs.Writes p content fs' place) : place ≠ [] := by
  obtain ⟨dir, name, rfl, -⟩ := h.slot
  simp

theorem node?_eq (h : fs.Writes p content fs' place) (other : Location) :
    fs'.node? other = if other = place then some (.file content) else fs.node? other := by
  rw [h.eq_set, node?_set h.ne_nil]

theorem sameBut_and_wellFormed (hfs : fs.WellFormed) (h : fs.Writes p content fs' place)
    (hfree : ¬ free .directory) (hfile : ∀ node, node.IsFile → free node) :
    fs.SameBut free fs' ∧ fs'.WellFormed := by
  refine FileSystem.sameBut_and_wellFormed hfs hfree (by rw [h.eq_set]; rfl) fun other => ?_
  rw [h.node?_eq]
  split
  · rename_i heq
    subst heq
    refine .inr ⟨fun node hnode => hfile node (h.file node hnode), fun node hnode => ?_⟩
    obtain rfl := Option.some.inj hnode
    exact ⟨hfile _ trivial, h.slot, fun _ => Node.noConfusion⟩
  · exact .inl rfl

/-- The path leads to what was written. -/
theorem locate?_eq (hfs : fs.WellFormed) (h : fs.Writes p content fs' place) :
    fs'.locate? p = some place := by
  obtain ⟨r, hr, rfl⟩ := h.reach
  obtain ⟨hsame, hfs'⟩ := h.sameBut_and_wellFormed hfs id fun _ => id
  exact hsame.locate?_of_node hfs' hr (by rw [h.node?_eq, if_pos rfl])

end Writes

/-- What stands at the entry that a path names. -/
def entryNode? (fs : FileSystem) (p : Path) : Option Node :=
  (fs.entry? p).bind fun e => fs.node? e.place

structure Removes (fs : FileSystem) (p : Path) (fs' : FileSystem) (place : Location) : Prop where
  entry : ∃ e, fs.entry? p = some e ∧ e.place = place
  ne_directory : fs.isDirectoryAt place = false
  eq_erase : fs' = { fs with nodes := fs.nodes.erase place }

theorem removes_of_remove? (h : fs.remove? p = some (fs', place)) : fs.Removes p fs' place := by
  unfold remove? at h
  simp only [guard, Option.bind_eq_bind, Option.bind_eq_some_iff] at h
  obtain ⟨e, he, node, hnode, _, hguard, h⟩ := h
  obtain ⟨rfl, rfl⟩ := Prod.mk.inj (Option.some.inj h)
  exact ⟨⟨e, he, rfl⟩, by simpa [isDirectoryAt, hnode] using (of_guard hguard).1, rfl⟩

theorem Removes.sameBut_and_wellFormed (hfs : fs.WellFormed) (h : fs.Removes p fs' place)
    (hfree : ¬ free .directory) (hnode : ∀ node, fs.entryNode? p = some node → free node) :
    fs.SameBut free fs' ∧ fs'.WellFormed := by
  obtain ⟨e, he, rfl⟩ := h.entry
  have hne : e.place ≠ [] := by
    intro hnil
    have hdir := h.ne_directory
    rw [hnil] at hdir
    cases hdir
  refine FileSystem.sameBut_and_wellFormed hfs hfree (by rw [h.eq_erase]) fun other => ?_
  rw [h.eq_erase, node?_erase hne]
  split
  · rename_i heq
    subst heq
    exact .inr ⟨fun node hold => hnode node (by rw [entryNode?, he]; exact hold),
      fun node hnew => by cases hnew⟩
  · exact .inl rfl

/-- A rename gives one entry the place of another one, or leaves everything as it is if they are
the same entry. -/
structure Renames (fs : FileSystem) (p q : Path) (fs' : FileSystem) (source target : Location) :
    Prop where
  entrySource : ∃ e, fs.entry? p = some e ∧ e.place = source
  entryTarget : ∃ e, fs.entry? q = some e ∧ e.place = target
  isSome : (fs.node? source).isSome = true
  eq_of_eq : source = target → fs' = fs
  eq_of_ne : source ≠ target → fs' = { fs with
    nodes := (fs.nodes.erase target).map fun (place, node) => (moved source target place, node) }

theorem renames_of_rename? {q : Path} {source target : Location}
    (h : fs.rename? p q = some (fs', source, target)) : fs.Renames p q fs' source target := by
  unfold rename? at h
  simp only [guard, Option.bind_eq_bind, Option.bind_eq_some_iff] at h
  obtain ⟨e, he, e', he', _, hsome, _, -, h⟩ := h
  split at h
  · rename_i heq
    obtain ⟨rfl, rfl, rfl⟩ := by simpa using Option.some.inj h
    exact ⟨⟨e, he, rfl⟩, ⟨e', he', rfl⟩, of_guard hsome, fun _ => rfl, fun hne => absurd heq hne⟩
  · rename_i hne
    simp only [Option.bind_eq_some_iff] at h
    obtain ⟨_, -, h⟩ := h
    obtain ⟨rfl, rfl, rfl⟩ := by simpa using Option.some.inj h
    exact ⟨⟨e, he, rfl⟩, ⟨e', he', rfl⟩, of_guard hsome, fun heq => absurd heq hne, fun _ => rfl⟩

namespace Renames

variable {q : Path} {source target : Location}

theorem source_not_directory (h : fs.Renames p q fs' source target) (hfree : ¬ free .directory)
    (hsource : ∀ node, fs.entryNode? p = some node → free node) :
    fs.isDirectoryAt source = false := by
  obtain ⟨e, he, rfl⟩ := h.entrySource
  refine Bool.eq_false_iff.mpr fun hdir => hfree (hsource _ ?_)
  rw [entryNode?, he]
  exact isDirectoryAt_iff.mp hdir

/-- The node of the source stands at the target afterwards. -/
theorem node?_eq (hfs : fs.WellFormed) (h : fs.Renames p q fs' source target)
    (hdir : fs.isDirectoryAt source = false) (hne : source ≠ target) (other : Location) :
    fs'.node? other =
      if other = target then fs.node? source
      else if other = source then none
      else fs.node? other := by
  obtain ⟨e, he, rfl⟩ := h.entryTarget
  obtain ⟨dir, name, hplace, -⟩ := names_of_entry? he
  rw [h.eq_of_ne hne]
  exact node?_move hfs hdir hne (by simp [hplace]) other

theorem sameBut_and_wellFormed (hfs : fs.WellFormed) (h : fs.Renames p q fs' source target)
    (hfree : ¬ free .directory) (hsource : ∀ node, fs.entryNode? p = some node → free node)
    (htarget : ∀ node, fs.entryNode? q = some node → free node) :
    fs.SameBut free fs' ∧ fs'.WellFormed := by
  by_cases hne : source = target
  · rw [h.eq_of_eq hne]
    exact ⟨.refl free fs, hfs⟩
  have hdir := h.source_not_directory hfree hsource
  obtain ⟨e, he, rfl⟩ := h.entrySource
  obtain ⟨e', he', rfl⟩ := h.entryTarget
  replace hsource : ∀ node, fs.node? e.place = some node → free node :=
    fun node hnode => hsource node (by rw [entryNode?, he]; exact hnode)
  replace htarget : ∀ node, fs.node? e'.place = some node → free node :=
    fun node hnode => htarget node (by rw [entryNode?, he']; exact hnode)
  obtain ⟨dir, name, hplace, hnames⟩ := names_of_entry? he'
  refine FileSystem.sameBut_and_wellFormed hfs hfree (by rw [h.eq_of_ne hne]) fun other => ?_
  rw [h.node?_eq hfs hdir hne]
  split
  · rename_i heq
    subst heq
    refine .inr ⟨htarget, fun node hnode => ⟨hsource node hnode, ⟨dir, name, hplace, hnames.isSlot⟩,
      fun target hlink => ?_⟩⟩
    exact hfs.target _ _ (hlink ▸ hnode)
  · split
    · rename_i heq
      subst heq
      exact .inr ⟨hsource, fun node hnode => by cases hnode⟩
    · exact .inl rfl

end Renames

/-! ## Building -/

/-- A new node can come in at a free slot, also a directory. -/
theorem WellFormed.set (hfs : fs.WellFormed) (hslot : fs.IsSlot dir name)
    (hnone : fs.node? (dir ++ [name]) = none) {node : Node} (hnode : node.isFollowable = true) :
    (fs.set (dir ++ [name]) node).WellFormed := by
  have hne : dir ++ [name] ≠ [] := by simp
  have hdirs : ∀ place, fs.isDirectoryAt place = true →
      (fs.set (dir ++ [name]) node).isDirectoryAt place = true := by
    intro place hplace
    rw [isDirectoryAt_iff] at hplace ⊢
    rw [node?_set hne, if_neg, hplace]
    rintro rfl
    cases hnone.symm.trans hplace
  refine ⟨hdirs _ hfs.current, fun dir' name' node' h => ?_, fun place target h => ?_⟩
  · rw [node?_set hne] at h
    have hold : fs.IsSlot dir' name' := by
      split at h
      · rename_i heq
        obtain ⟨rfl, hlast⟩ := List.append_inj' heq rfl
        obtain rfl := List.singleton_inj.mp hlast
        exact hslot
      · exact hfs.slot _ _ _ h
    exact ⟨hdirs _ hold.directory, hold.isName, hold.zero_not_mem⟩
  · rw [node?_set hne] at h
    split at h
    · obtain rfl := Option.some.inj h
      simpa [Node.isFollowable] using hnode
    · exact hfs.target _ _ h

theorem WellFormed.makeDirectories (hfs : fs.WellFormed) (p : Path) :
    (fs.makeDirectories p).WellFormed := by
  unfold FileSystem.makeDirectories
  induction List.range (p.parts.length + 1) generalizing fs with
  | nil => exact hfs
  | cons n rest ih =>
      rw [List.foldl_cons]
      apply ih
      split
      · rename_i parent name hreach
        obtain ⟨hslot, hnone⟩ := reach_fits hfs hreach
        exact hfs.set hslot hnone rfl
      · exact hfs

/-- A file system is well-formed if it is built from the empty one. -/
theorem WellFormed.make (hfs : fs.WellFormed) (p : Path) {node : Node}
    (hnode : node.isFollowable = true) : (fs.make p node).WellFormed := by
  have habove := hfs.makeDirectories (p.parent?.getD ⟨[]⟩)
  cases node with
  | directory => exact hfs.makeDirectories p
  | file content =>
      rw [FileSystem.make]
      cases hwrite : (fs.makeDirectories (p.parent?.getD ⟨[]⟩)).write? p content with
      | none => simpa [hwrite] using habove
      | some result =>
          have hboth : _ ∧ result.1.WellFormed :=
            (writes_of_write? habove hwrite).sameBut_and_wellFormed habove
              (id : ¬ Node.IsFile .directory) fun _ => id
          simpa [hwrite] using hboth.2
  | link target =>
      rw [FileSystem.make]
      split
      · rename_i place hentry
        split
        · rename_i hnone
          obtain ⟨dir, name, hplace, hnames⟩ := names_of_entry? hentry
          obtain rfl : place = dir ++ [name] := hplace
          exact habove.set hnames.isSlot (Option.isNone_iff_eq_none.mp hnone) hnode
        · exact habove
      · exact habove
      · exact habove

end FileSystem

end ReleaseLog
