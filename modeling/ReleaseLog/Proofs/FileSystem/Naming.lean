import ReleaseLog.Proofs.Failure
import ReleaseLog.Proofs.FileSystem.Resolution
import ReleaseLog.Watcher
import Mathlib.Data.List.TakeWhile

/-!
# Normal forms

A path names an entry if it spells the way to a directory and then a name in it. Unless the entry is
a link, the normal form of the path is that of the entry, whether something stands there or not.
-/

namespace ReleaseLog

namespace Path

theorem zero_not_mem_of_mem_body {p : Path} (h : 0 ∉ p.bytes) {part : Part}
    (hpart : part ∈ p.body) : 0 ∉ part.bytes := by
  obtain ⟨piece, hpiece, heq⟩ := List.mem_filterMap.mp hpart
  have hbytes : part.bytes = piece := by
    unfold Part.ofPiece? at heq
    split at heq
    · cases heq
    · split at heq
      · rename_i hparent
        rw [← Option.some.inj heq, hparent]
        rfl
      · rw [← Option.some.inj heq]
        rfl
  rw [hbytes]
  exact fun hmem => h (mem_of_mem_pieces hpiece hmem)

theorem zero_not_mem_ofParts {parts : List Part} (h : ∀ part ∈ parts, 0 ∉ part.bytes) :
    0 ∉ (ofParts (.root :: parts)).bytes := by
  rw [bytes_ofParts_root]
  induction parts with
  | nil => decide
  | cons part rest ih =>
      obtain ⟨hpart, hrest⟩ := List.forall_mem_cons.mp h
      cases rest with
      | nil => cases part <;> simp_all [ofParts, Part.bytes, slash]
      | cons next rest =>
          have htail := ih hrest
          simp only [bytes_ofParts_cons, List.mem_cons, List.mem_append, not_or] at htail ⊢
          exact ⟨by decide, hpart, by decide, htail.2⟩

theorem fileName?_eq {p : Path} {parts : List Part} {name : Bytes}
    (h : p.parts = .root :: (parts ++ [.name name])) : p.fileName? = some name := by
  rw [fileName?, h, ← List.cons_append, List.getLast?_concat]

/-- A slash at the end is no further part. -/
theorem parts_join_nil {p : Path} (h : p.isAbsolute = true) : (p.join ⟨[]⟩).parts = p.parts := by
  rw [join, if_neg (by decide)]
  split
  · rw [List.append_nil]
  · have habsolute : isAbsolute ⟨p.bytes ++ slash :: []⟩ = true := by
      obtain ⟨b, rest, hbytes⟩ := List.exists_cons_of_ne_nil (l := p.bytes) fun hnil => by
        simp [isAbsolute, hnil] at h
      simpa [isAbsolute, hbytes] using h
    rw [parts_of_isAbsolute habsolute, parts_of_isAbsolute h, body, pieces_concat_slash,
      List.filterMap_append, body]
    simp [Part.ofPiece?]

end Path

namespace FileSystem

variable {fs : FileSystem} {p : Path} {dir : Location} {name : Bytes}

/-! ## Names of entries -/

/-- The path spells the way to a directory and then a name in it. -/
structure Names (fs : FileSystem) (p : Path) (dir : Location) (name : Bytes) : Prop where
  usable : isUsable p = true
  directory : fs.isDirectoryAt dir = true
  steps : ∃ front stays, p.steps = front ++ .into name :: stays ∧ (∀ step ∈ stays, step = .stay) ∧
    fs.walk maxLinks (fs.origin p) front = some (.existing dir)

theorem Names.isSlot (h : fs.Names p dir name) : fs.IsSlot dir name := by
  obtain ⟨front, stays, hsteps, -, -⟩ := h.steps
  obtain ⟨hname, hzero⟩ := spelled_steps (zero_not_mem_of_isUsable h.usable) name (by simp [hsteps])
  exact ⟨h.directory, hname, hzero⟩

/-- Steps into an entry that is no link end there, or nowhere. -/
theorem exists_advance_into (hdir : fs.isDirectoryAt dir = true)
    (hlink : ∀ target, fs.node? (dir ++ [name]) ≠ some (.link target)) {stays : List Step}
    (hstays : ∀ step ∈ stays, step = .stay) :
    ∃ reached, fs.advance dir (.into name :: stays) = .done reached ∧
      ∀ r, reached = some r → r.place = dir ++ [name] := by
  cases hnode : fs.node? (dir ++ [name]) with
  | none =>
      refine ⟨if stays = [] then some (.missing dir name) else none, ?_, fun r hr => ?_⟩
      · simp [advance, hdir, hnode]
      · split at hr
        · rw [← Option.some.inj hr]
          rfl
        · cases hr
  | some node =>
      cases node with
      | link target => exact absurd hnode (hlink target)
      | file _ | directory =>
          refine ⟨_, by simpa [advance, hdir, hnode] using advance_stays hstays _, fun r hr => ?_⟩
          split at hr
          · rw [← Option.some.inj hr]
            rfl
          · cases hr

/-- The path leads to the entry that it names, if the entry is no link. -/
theorem Names.place_of_reach (h : fs.Names p dir name)
    (hlink : ∀ target, fs.node? (dir ++ [name]) ≠ some (.link target)) {r : Reached}
    (hr : fs.reach p = some r) : r.place = dir ++ [name] := by
  obtain ⟨front, stays, hsteps, hstays, hwalk⟩ := h.steps
  obtain ⟨reached, hadvance, hplace⟩ := exists_advance_into h.directory hlink hstays
  rw [reach, if_pos h.usable, hsteps, walk_append hwalk hadvance] at hr
  exact hplace r hr

theorem IsSlot.names_toPath (hfs : fs.WellFormed) (h : fs.IsSlot dir name) :
    fs.Names (Location.toPath (dir ++ [name])) dir name := by
  refine ⟨isUsable_toPath (h.zero_not_mem_of_mem hfs), h.directory,
    .stay :: dir.map .into, [], ?_, by simp, ?_⟩
  · rw [Location.steps_toPath (by simp) (h.isName_of_mem hfs), List.map_append]
    rfl
  · rw [origin, if_pos (isAbsolute_toPath _)]
    apply walk_of_done
    rw [advance_stay rfl, ← List.append_nil (List.map _ _), advance_into_root hfs h.directory]
    rfl

/-! ## Absolute forms -/

theorem inner_origin (hfs : fs.WellFormed) (p : Path) :
    ∀ part ∈ (fs.origin p).map Path.Part.name ++ p.body, part.Inner :=
  List.forall_mem_append.mpr
    ⟨Location.inner_of_mem_map (hfs.isName_of_mem (hfs.isDirectoryAt_origin p)),
      fun _ => Path.inner_of_mem_body⟩

theorem exists_absolute? (hfs : fs.WellFormed) (h : p.isEmpty = false) :
    ∃ a, fs.absolute? p = some a ∧
      a.parts = .root :: ((fs.origin p).map .name ++ p.body) := by
  have hparts : (if p.isAbsolute then p.parts
      else (Location.toPath fs.current).parts ++ p.parts.filter (· ≠ .here)) =
        .root :: ((fs.origin p).map .name ++ p.body) := by
    unfold origin
    by_cases habsolute : p.isAbsolute = true
    · simp [habsolute, Path.parts_of_isAbsolute]
    · rw [if_neg habsolute, if_neg habsolute,
        Location.parts_toPath (hfs.isName_of_mem hfs.current),
        Path.filter_parts_of_relative (Bool.eq_false_iff.mpr habsolute), List.cons_append]
  have hspelled := Path.parts_ofParts_root (inner_origin hfs p)
  have heq : fs.absolute? p =
      let path := Path.ofParts (.root :: ((fs.origin p).map .name ++ p.body))
      some (if p.bytes.getLast? = some Path.slash then path.join ⟨[]⟩ else path) := by
    rw [absolute?, if_neg (by simp [h])]
    simp only [hparts]
  refine ⟨_, heq, ?_⟩
  split
  · rw [Path.parts_join_nil (Path.isAbsolute_ofParts_root _), hspelled]
  · exact hspelled

/-- The way to a directory, spelled from the root. -/
theorem locate?_ofParts (hfs : fs.WellFormed) {place : Location}
    (hplace : fs.isDirectoryAt place = true) {parts : List Path.Part}
    (hinner : ∀ part ∈ parts, part.Inner) (hzero : ∀ part ∈ parts, 0 ∉ part.bytes)
    (hwalk : fs.walk maxLinks place (parts.map Path.Part.step) = some (.existing dir)) :
    fs.locate? (Path.ofParts (.root :: (place.map .name ++ parts))) = some dir := by
  have hall : ∀ part ∈ place.map Path.Part.name ++ parts, part.Inner :=
    List.forall_mem_append.mpr
      ⟨Location.inner_of_mem_map (hfs.isName_of_mem hplace), hinner⟩
  have hbytes : ∀ part ∈ place.map Path.Part.name ++ parts, 0 ∉ part.bytes := by
    refine List.forall_mem_append.mpr ⟨fun part hpart => ?_, hzero⟩
    obtain ⟨name, hname, rfl⟩ := List.mem_map.mp hpart
    exact hfs.zero_not_mem_of_mem hplace name hname
  have husable : isUsable (Path.ofParts (.root :: (place.map .name ++ parts))) = true := by
    have hnil : (Path.ofParts (.root :: (place.map .name ++ parts))).bytes ≠ [] := by
      rw [Path.bytes_ofParts_root]
      exact List.cons_ne_nil _ _
    simp [isUsable, Path.isEmpty, hnil, Path.zero_not_mem_ofParts hbytes]
  rw [locate?_eq_some_iff, reach, if_pos husable, origin, if_pos (Path.isAbsolute_ofParts_root _)]
  by_cases hne : place.map Path.Part.name ++ parts = []
  · obtain ⟨hnil, rfl⟩ := List.append_eq_nil_iff.mp hne
    obtain rfl := List.map_eq_nil_iff.mp hnil
    exact hwalk
  · have hadvance :
        fs.advance [] (.stay :: (place.map Path.Part.name ++ parts).map Path.Part.step) =
          fs.advance place (parts.map Path.Part.step) := by
      rw [advance_stay rfl, List.map_append, List.map_map]
      exact advance_into_root hfs hplace _
    rw [Path.steps_ofParts_root hne hall, walk_eq, hadvance, ← walk_eq, hwalk]

/-! ## Normal forms -/

theorem normalize_of_locate? {place : Location} (h : fs.locate? p = some place) :
    fs.normalize p = place.toPath := by
  rw [normalize, h]

theorem normalize_cases (fs : FileSystem) (p : Path) :
    (∃ place : Location, fs.normalize p = place.toPath) ∨
      fs.normalize p = (fs.absolute? p).getD p := by
  rw [normalize]
  split
  · exact .inl ⟨_, rfl⟩
  · simp only
    split
    · exact .inl ⟨_, rfl⟩
    · exact .inr rfl

/-- The directory of a normal form is spelled from its parts. -/
theorem ofParts_parts_of_parent?_normalize (hfs : fs.WellFormed) {parent : Path}
    (h : (fs.normalize p).parent? = some parent) : Path.ofParts parent.parts = parent := by
  refine Path.ofParts_parts_of_parent? ?_ h
  rcases normalize_cases fs p with ⟨place, heq⟩ | heq
  · rw [heq]
    exact isAbsolute_toPath place
  · cases hempty : p.isEmpty with
    | true =>
        rw [heq, absolute?, if_pos hempty, Option.getD_none] at h
        rw [Path.parent?_of_isEmpty hempty] at h
        cases h
    | false =>
        obtain ⟨a, ha, hparts⟩ := exists_absolute? hfs hempty
        rw [heq, ha]
        exact Path.isAbsolute_of_parts hparts

/-- The last part of the path is the name, and the parts before it lead to the directory. -/
theorem Names.exists_body (h : fs.Names p dir name) :
    ∃ parts, p.body = parts ++ [.name name] ∧
      fs.walk maxLinks (fs.origin p) (parts.map Path.Part.step) = some (.existing dir) := by
  obtain ⟨front, stays, hsteps, hstays, hwalk⟩ := h.steps
  have hfilter : p.body.map Path.Part.step = front.filter (· ≠ .stay) ++ [.into name] := by
    have hnone : stays.filter (· ≠ .stay) = [] :=
      List.filter_eq_nil_iff.mpr fun step hstep => by simp [hstays step hstep]
    rw [← Path.filter_steps, hsteps, List.filter_append, List.filter_cons_of_pos (by simp), hnone]
  obtain ⟨parts, last, hbody, hparts, hlast⟩ := List.map_eq_append_iff.mp hfilter
  obtain ⟨part, rfl, hpart⟩ := List.map_eq_singleton_iff.mp hlast
  obtain rfl : part = .name name := by
    cases part <;> simp_all [Path.Part.step]
  exact ⟨parts, hbody, by rw [hparts]; exact walk_thins (thins_filter front) hwalk⟩

theorem Names.normalize_of_none (hfs : fs.WellFormed) (h : fs.Names p dir name)
    (hnone : fs.locate? p = none) : fs.normalize p = Location.toPath (dir ++ [name]) := by
  obtain ⟨parts, hbody, hwalk⟩ := h.exists_body
  have hempty : p.isEmpty = false := by simpa using (Bool.and_eq_true_iff.mp h.usable).1
  obtain ⟨a, habsolute, ha⟩ := exists_absolute? hfs hempty
  rw [hbody, ← List.append_assoc] at ha
  have hmem : ∀ part ∈ parts, part ∈ p.body := fun part hpart => by simp [hbody, hpart]
  have hparent : a.parent?.bind fs.locate? = some dir := by
    rw [Path.parent?_eq (show (Path.Part.name name).Inner from h.isSlot.isName) ha,
      Option.bind_some]
    exact locate?_ofParts hfs (hfs.isDirectoryAt_origin p)
      (fun part hpart => Path.inner_of_mem_body (hmem part hpart))
      (fun part hpart => Path.zero_not_mem_of_mem_body (zero_not_mem_of_isUsable h.usable)
        (hmem part hpart)) hwalk
  simp only [normalize, hnone, habsolute, Option.getD_some, hparent, Path.fileName?_eq ha]

theorem Names.normalize (hfs : fs.WellFormed) (h : fs.Names p dir name)
    (hlink : ∀ target, fs.node? (dir ++ [name]) ≠ some (.link target)) :
    fs.normalize p = Location.toPath (dir ++ [name]) := by
  cases hlocate : fs.locate? p with
  | none => exact h.normalize_of_none hfs hlocate
  | some place =>
      rw [normalize_of_locate? hlocate,
        ← h.place_of_reach hlink (locate?_eq_some_iff.mp hlocate)]
      rfl

/-- The path of a slot is its own normal form, unless there is a link. -/
theorem IsSlot.normalize_toPath (hfs : fs.WellFormed) (h : fs.IsSlot dir name)
    (hlink : ∀ target, fs.node? (dir ++ [name]) ≠ some (.link target)) :
    fs.normalize (Location.toPath (dir ++ [name])) = Location.toPath (dir ++ [name]) :=
  (h.names_toPath hfs).normalize hfs hlink

/-! ## Paths that name an entry -/

theorem exists_append_of_trailing (pieces : List Bytes) :
    ∃ empties, pieces = (pieces.reverse.dropWhile (·.isEmpty)).reverse ++ empties ∧
      ∀ piece ∈ empties, piece = [] := by
  refine ⟨(pieces.reverse.takeWhile (·.isEmpty)).reverse, ?_, fun piece hpiece => ?_⟩
  · rw [← List.reverse_append, List.takeWhile_append_dropWhile, List.reverse_reverse]
  · exact List.isEmpty_iff.mp (List.mem_takeWhile_imp (List.mem_reverse.mp hpiece))

theorem names_of_entry? {e : Entry} (h : fs.entry? p = some e) :
    ∃ dir name, e.place = dir ++ [name] ∧ fs.Names p dir name := by
  obtain ⟨empties, hpieces, hempties⟩ := exists_append_of_trailing (Path.pieces p.bytes)
  unfold entry? at h
  simp only [guard, Option.bind_eq_bind, Option.bind_eq_some_iff] at h
  generalize ((Path.pieces p.bytes).reverse.dropWhile (·.isEmpty)).reverse = kept at hpieces h
  obtain ⟨_, husable, step, hlast, h⟩ := h
  cases step with
  | stay | up => cases h
  | into name =>
      simp only [Option.bind_eq_some_iff] at h
      obtain ⟨reached, hwalk, h⟩ := h
      cases reached with
      | missing _ _ => cases h
      | existing dir =>
          simp only [Option.bind_eq_some_iff] at h
          obtain ⟨_, hguard, h⟩ := h
          refine ⟨dir, name, by rw [← Option.some.inj h], of_guard husable,
            (Bool.and_eq_true_iff.mp (of_guard hguard)).1, _, empties.map Step.ofPiece, ?_, ?_,
            hwalk⟩
          · rw [Path.steps, hpieces, List.map_append, ← List.singleton_append, ← List.append_assoc,
              List.dropLast_append_getLast? _ hlast]
          · intro step hstep
            obtain ⟨piece, hpiece, rfl⟩ := List.mem_map.mp hstep
            rw [hempties piece hpiece]
            rfl

/-! ## Without links -/

end FileSystem

end ReleaseLog
