import ReleaseLog.Proofs.FileSystem.Nodes

/-!
# Where paths lead

A resolution goes on where its first steps end, and steps that stay can be left out. It ends at a
node that is no link or at a free slot. The path of a location leads there from the root.
-/

namespace ReleaseLog

namespace FileSystem

/-- Where the result is, or would be. -/
def Reached.place : Reached → Location
  | .existing place => place
  | .missing parent name => parent ++ [name]

variable {fs : FileSystem} {links : Nat} {place : Location} {steps : List Step}

/-! ## One stop after the other -/

def Stop.andThen (fs : FileSystem) (more : List Step) : Stop → Stop
  | .done (some (.existing place)) => fs.advance place more
  | .done (some (.missing parent name)) =>
    .done (if more = [] then some (.missing parent name) else none)
  | .done none => .done none
  | .link parent target rest => .link parent target (rest ++ more)

theorem advance_of_not_directory (h : fs.isDirectoryAt place = false) :
    fs.advance place steps = .done (if steps = [] then some (.existing place) else none) := by
  cases steps <;> simp [advance, h]

theorem advance_stay (h : fs.isDirectoryAt place = true) :
    fs.advance place (.stay :: steps) = fs.advance place steps := by
  rw [advance, if_pos h]

theorem advance_append (place : Location) (steps more : List Step) :
    fs.advance place (steps ++ more) = (fs.advance place steps).andThen fs more := by
  induction steps generalizing place with
  | nil => rfl
  | cons step steps ih =>
      by_cases hdir : fs.isDirectoryAt place = true
      · cases step with
        | stay => simpa [advance, hdir] using ih place
        | up => simpa [advance, hdir] using ih place.dropLast
        | into name =>
            cases hnode : fs.node? (place ++ [name]) with
            | none =>
                by_cases hsteps : steps = [] <;>
                  simp [advance, hdir, hnode, hsteps, Stop.andThen]
            | some node =>
                cases node with
                | link target => simp [advance, hdir, hnode, Stop.andThen]
                | file _ | directory => simpa [advance, hdir, hnode] using ih (place ++ [name])
      · simp [advance, hdir, Stop.andThen]

theorem walk_eq (links : Nat) (place : Location) (steps : List Step) :
    fs.walk links place steps =
      match fs.advance place steps with
      | .done reached => reached
      | .link parent target rest =>
        match links with
        | 0 => none
        | links + 1 =>
          fs.walk links (if target.isAbsolute then [] else parent) (target.steps ++ rest) :=
  walk.eq_def fs links place steps

/-- A resolution ends before the first link, or goes on at it with one link less. -/
theorem walk_cases {r : Reached} (h : fs.walk links place steps = some r) :
    fs.advance place steps = .done (some r) ∨
      ∃ fewer parent target rest, links = fewer + 1 ∧
        fs.advance place steps = .link parent target rest ∧
        fs.walk fewer (if target.isAbsolute then [] else parent) (target.steps ++ rest) =
          some r := by
  rw [walk_eq] at h
  cases hadvance : fs.advance place steps with
  | done reached =>
      rw [hadvance] at h
      exact .inl (congrArg _ h)
  | link parent target rest =>
      rw [hadvance] at h
      cases links with
      | zero => cases h
      | succ fewer => exact .inr ⟨fewer, parent, target, rest, rfl, rfl, h⟩

theorem walk_of_done {r : Option Reached} (h : fs.advance place steps = .done r) :
    fs.walk links place steps = r := by
  rw [walk_eq, h]

theorem walk_of_link {parent : Location} {target : Path} {rest : List Step}
    (h : fs.advance place steps = .link parent target rest) :
    fs.walk (links + 1) place steps =
      fs.walk links (if target.isAbsolute then [] else parent) (target.steps ++ rest) := by
  rw [walk_eq, h]

theorem walk_append {mid : Location} {more : List Step} {r : Option Reached}
    (h : fs.walk links place steps = some (.existing mid)) (hmore : fs.advance mid more = .done r) :
    fs.walk links place (steps ++ more) = r := by
  induction links generalizing place steps with
  | zero =>
      rcases walk_cases h with hdone | ⟨_, _, _, _, hlinks, -⟩
      · exact walk_of_done (by rw [advance_append, hdone]; exact hmore)
      · cases hlinks
  | succ links ih =>
      rcases walk_cases h with hdone | ⟨fewer, parent, target, rest, hlinks, hlink, hrest⟩
      · exact walk_of_done (by rw [advance_append, hdone]; exact hmore)
      · obtain rfl := Nat.succ.inj hlinks
        have hmore : fs.advance place (steps ++ more) = .link parent target (rest ++ more) := by
          rw [advance_append, hlink]
          rfl
        rw [walk_of_link hmore, ← List.append_assoc]
        exact ih hrest

inductive Thins : List Step → List Step → Prop
  | nil : Thins [] []
  | skip {steps fewer : List Step} (rest : Thins steps fewer) : Thins (.stay :: steps) fewer
  | keep {steps fewer : List Step} (step : Step) (rest : Thins steps fewer) :
    Thins (step :: steps) (step :: fewer)

theorem Thins.append_left {fewer : List Step} (front : List Step) (h : Thins steps fewer) :
    Thins (front ++ steps) (front ++ fewer) := by
  induction front with
  | nil => exact h
  | cons step front ih => exact .keep step ih

theorem thins_filter (steps : List Step) : Thins steps (steps.filter (· ≠ .stay)) := by
  induction steps with
  | nil => exact .nil
  | cons step steps ih =>
      by_cases hstep : step = .stay
      · rw [hstep, List.filter_cons_of_neg (by simp)]
        exact .skip ih
      · rw [List.filter_cons_of_pos (by simpa using hstep)]
        exact .keep step ih

/-- Nothing that was reached is missed without the steps that stay, and the links are the same. -/
theorem advance_thins {fewer : List Step} (h : Thins steps fewer) (place : Location) :
    match fs.advance place steps with
    | .done none => True
    | .done (some r) => fs.advance place fewer = .done (some r)
    | .link parent target rest =>
      ∃ less, fs.advance place fewer = .link parent target less ∧ Thins rest less := by
  induction h generalizing place with
  | nil => rfl
  | skip _ ih =>
      by_cases hdir : fs.isDirectoryAt place = true
      · simpa [advance, hdir] using ih place
      · simp [advance, hdir]
  | keep step hrest ih =>
      by_cases hdir : fs.isDirectoryAt place = true
      · cases step with
        | stay => simpa [advance, hdir] using ih place
        | up => simpa [advance, hdir] using ih place.dropLast
        | into name =>
            cases hnode : fs.node? (place ++ [name]) with
            | none => cases hrest <;> simp [advance, hdir, hnode]
            | some node =>
                cases node with
                | link target => simpa [advance, hdir, hnode] using hrest
                | file _ | directory => simpa [advance, hdir, hnode] using ih (place ++ [name])
      · simp [advance, hdir]

theorem walk_thins {fewer : List Step} {r : Reached} (h : Thins steps fewer)
    (hwalk : fs.walk links place steps = some r) : fs.walk links place fewer = some r := by
  induction links generalizing place steps fewer with
  | zero =>
      have hadvance := @advance_thins fs steps fewer h place
      rcases walk_cases hwalk with hdone | ⟨_, _, _, _, hlinks, -⟩
      · exact walk_of_done (by simpa [hdone] using hadvance)
      · cases hlinks
  | succ links ih =>
      have hadvance := @advance_thins fs steps fewer h place
      rcases walk_cases hwalk with hdone | ⟨_, parent, target, rest, hlinks, hlink, hrest⟩
      · exact walk_of_done (by simpa [hdone] using hadvance)
      · obtain rfl := Nat.succ.inj hlinks
        obtain ⟨less, hless, hthins⟩ : ∃ less, fs.advance place fewer = .link parent target less ∧
            Thins rest less := by simpa [hlink] using hadvance
        rw [walk_of_link hless]
        exact ih (hthins.append_left target.steps) hrest

theorem advance_stays {stays : List Step} (h : ∀ step ∈ stays, step = .stay) (place : Location) :
    fs.advance place stays =
      .done (if stays = [] ∨ fs.isDirectoryAt place = true then some (.existing place)
        else none) := by
  induction stays with
  | nil => rfl
  | cons step stays ih =>
      obtain ⟨rfl, hstays⟩ := List.forall_mem_cons.mp h
      by_cases hdir : fs.isDirectoryAt place = true <;> simp [advance, hdir, ih hstays]

/-! ## What is reached -/

/-- A node that is no link. -/
def Stands (fs : FileSystem) (place : Location) : Prop :=
  ∃ node, fs.node? place = some node ∧ ∀ target, node ≠ .link target

/-- A node that is no link is there, or a slot is free. -/
def Reached.Fits (fs : FileSystem) : Reached → Prop
  | .existing place => fs.Stands place
  | .missing parent name => fs.IsSlot parent name ∧ fs.node? (parent ++ [name]) = none

/-- Every name among the steps can stand in a directory. -/
def Spelled (steps : List Step) : Prop :=
  ∀ name, .into name ∈ steps → Path.IsName name ∧ 0 ∉ name

theorem stands_of_isDirectoryAt (h : fs.isDirectoryAt place = true) : fs.Stands place :=
  ⟨.directory, isDirectoryAt_iff.mp h, fun _ => Node.noConfusion⟩

theorem spelled_steps {p : Path} (h : 0 ∉ p.bytes) : Spelled p.steps := by
  intro name hname
  obtain ⟨piece, hpiece, heq⟩ := List.mem_map.mp hname
  have hslash := Path.slash_not_mem_of_mem_pieces hpiece
  have hzero : 0 ∉ piece := fun hmem => h (Path.mem_of_mem_pieces hpiece hmem)
  unfold Step.ofPiece at heq
  split at heq
  · cases heq
  · rename_i hnot
    split at heq
    · cases heq
    · rename_i hparent
      cases heq
      obtain ⟨hnil, hhere⟩ := not_or.mp hnot
      exact ⟨⟨hnil, hhere, hparent, hslash⟩, hzero⟩

theorem Spelled.append {more : List Step} (h : Spelled steps) (hmore : Spelled more) :
    Spelled (steps ++ more) :=
  fun name hname => (List.mem_append.mp hname).elim (h name) (hmore name)

theorem Spelled.tail {step : Step} (h : Spelled (step :: steps)) : Spelled steps :=
  fun name hname => h name (List.mem_cons_of_mem _ hname)

/-- A resolution stops where something fits, or at a link that can be followed. -/
theorem advance_fits (hfs : fs.WellFormed) (hplace : fs.Stands place) (hsteps : Spelled steps) :
    match fs.advance place steps with
    | .done none => True
    | .done (some r) => r.Fits fs
    | .link parent target rest =>
      fs.isDirectoryAt parent = true ∧ 0 ∉ target.bytes ∧ Spelled rest := by
  induction steps generalizing place with
  | nil => exact hplace
  | cons step steps ih =>
      by_cases hdir : fs.isDirectoryAt place = true
      · cases step with
        | stay => simpa [advance, hdir] using ih hplace hsteps.tail
        | up =>
            have hup := stands_of_isDirectoryAt (hfs.isDirectoryAt_dropLast hdir)
            simpa [advance, hdir] using ih hup hsteps.tail
        | into name =>
            obtain ⟨hname, hzero⟩ := hsteps name List.mem_cons_self
            cases hnode : fs.node? (place ++ [name]) with
            | none =>
                by_cases hlast : steps = []
                · simpa [advance, hdir, hnode, hlast, Reached.Fits] using
                    (⟨hdir, hname, hzero⟩ : fs.IsSlot place name)
                · simp [advance, hdir, hnode, hlast]
            | some node =>
                cases node with
                | link target =>
                    simpa [advance, hdir, hnode] using ⟨hfs.target _ _ hnode, hsteps.tail⟩
                | file _ | directory =>
                    simpa [advance, hdir, hnode] using
                      ih ⟨_, hnode, fun _ => Node.noConfusion⟩ hsteps.tail
      · by_cases hlast : steps = [] <;> simp [advance, hdir]

theorem walk_fits (hfs : fs.WellFormed) (hplace : fs.Stands place) (hsteps : Spelled steps)
    {r : Reached} (h : fs.walk links place steps = some r) : r.Fits fs := by
  have hfits := advance_fits hfs hplace hsteps
  induction links generalizing place steps with
  | zero =>
      rcases walk_cases h with hdone | ⟨_, _, _, _, hlinks, -⟩
      · simpa [hdone] using hfits
      · cases hlinks
  | succ links ih =>
      rcases walk_cases h with hdone | ⟨_, parent, target, rest, hlinks, hlink, hrest⟩
      · simpa [hdone] using hfits
      · obtain rfl := Nat.succ.inj hlinks
        obtain ⟨hparent, hzero, hspelled⟩ : fs.isDirectoryAt parent = true ∧ 0 ∉ target.bytes ∧
            Spelled rest := by simpa [hlink] using hfits
        have hstart : fs.Stands (if target.isAbsolute then [] else parent) := by
          split
          · exact stands_of_isDirectoryAt rfl
          · exact stands_of_isDirectoryAt hparent
        have hall := (spelled_steps hzero).append hspelled
        exact ih hstart hall hrest (advance_fits hfs hstart hall)

theorem WellFormed.isDirectoryAt_origin (hfs : fs.WellFormed) (p : Path) :
    fs.isDirectoryAt (fs.origin p) = true := by
  unfold origin
  split
  · rfl
  · exact hfs.current

theorem zero_not_mem_of_isUsable {p : Path} (h : isUsable p = true) : 0 ∉ p.bytes := by
  simpa [isUsable] using (Bool.and_eq_true_iff.mp h).2

theorem reach_fits (hfs : fs.WellFormed) {p : Path} {r : Reached} (h : fs.reach p = some r) :
    r.Fits fs := by
  unfold reach at h
  split at h
  · rename_i husable
    exact walk_fits hfs (stands_of_isDirectoryAt (hfs.isDirectoryAt_origin p))
      (spelled_steps (zero_not_mem_of_isUsable husable)) h
  · cases h

theorem locate?_eq_some_iff {p : Path} :
    fs.locate? p = some place ↔ fs.reach p = some (.existing place) := by
  unfold locate?
  split <;> simp_all

/-- Names of directories are entered one after the other. -/
theorem advance_into (hfs : fs.WellFormed) {dir : Location}
    (h : fs.isDirectoryAt (place ++ dir) = true) (more : List Step) :
    fs.advance place (dir.map .into ++ more) = fs.advance (place ++ dir) more := by
  induction dir generalizing place with
  | nil => simp
  | cons name dir ih =>
      have hnext : place ++ name :: dir = (place ++ [name]) ++ dir := by simp
      rw [hnext] at h ⊢
      have hplace := hfs.isDirectoryAt_of_append h
      rw [List.map_cons, List.cons_append, advance,
        if_pos (hfs.isDirectoryAt_of_append hplace), ← ih h]
      simp [isDirectoryAt_iff.mp hplace]

theorem advance_into_root (hfs : fs.WellFormed) (h : fs.isDirectoryAt place = true)
    (more : List Step) : fs.advance [] (place.map .into ++ more) = fs.advance place more :=
  advance_into hfs (show fs.isDirectoryAt ([] ++ place) = true from h) more

theorem isUsable_toPath (h : ∀ name ∈ place, 0 ∉ name) : isUsable place.toPath = true := by
  have hbytes : place.toPath.bytes ≠ [] := by
    rw [Location.toPath, Path.bytes_ofParts_root]
    exact List.cons_ne_nil _ _
  have hzero : 0 ∉ place.toPath.bytes := by
    obtain rfl | hne := eq_or_ne place []
    · decide
    · rw [Location.bytes_toPath hne]
      intro hmem
      obtain ⟨name, hname, hmem⟩ := List.mem_flatMap.mp hmem
      rcases List.mem_cons.mp hmem with hslash | hmem
      · exact absurd hslash (by decide)
      · exact h name hname hmem
  simp [isUsable, Path.isEmpty, hbytes, hzero]

theorem isAbsolute_toPath (place : Location) : place.toPath.isAbsolute = true :=
  Path.isAbsolute_ofParts_root _

theorem reach_toPath_directory (hfs : fs.WellFormed) (h : fs.isDirectoryAt place = true) :
    fs.reach place.toPath = some (.existing place) := by
  rw [reach, if_pos (isUsable_toPath (hfs.zero_not_mem_of_mem h)), origin,
    if_pos (isAbsolute_toPath place)]
  obtain rfl | hne := eq_or_ne place []
  · rfl
  · apply walk_of_done
    rw [Location.steps_toPath hne (hfs.isName_of_mem h), advance_stay rfl,
      ← List.append_nil (List.map _ _), advance_into_root hfs h]
    rfl

theorem locate?_toPath_directory (hfs : fs.WellFormed) (h : fs.isDirectoryAt place = true) :
    fs.locate? place.toPath = some place :=
  locate?_eq_some_iff.mpr (reach_toPath_directory hfs h)

namespace IsSlot

variable {dir : Location} {name : Bytes}

theorem isName_of_mem (hfs : fs.WellFormed) (h : fs.IsSlot dir name) :
    ∀ other ∈ dir ++ [name], Path.IsName other :=
  List.forall_mem_append.mpr
    ⟨hfs.isName_of_mem h.directory, List.forall_mem_singleton.mpr h.isName⟩

theorem zero_not_mem_of_mem (hfs : fs.WellFormed) (h : fs.IsSlot dir name) :
    ∀ other ∈ dir ++ [name], 0 ∉ other :=
  List.forall_mem_append.mpr
    ⟨hfs.zero_not_mem_of_mem h.directory, List.forall_mem_singleton.mpr h.zero_not_mem⟩

theorem join_toPath (hfs : fs.WellFormed) (h : fs.IsSlot dir name) :
    dir.toPath.join ⟨name⟩ = Location.toPath (dir ++ [name]) :=
  Location.join_toPath (hfs.isName_of_mem h.directory) h.isName

end IsSlot

end FileSystem

end ReleaseLog
