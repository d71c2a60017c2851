import ReleaseLog.FileSystem.Basic
import Mathlib.Data.List.Basic

/-!
# Parts of a path

A path that is spelled from parts has these parts again, and its steps are theirs. So the absolute
path of a location tells the location.
-/

namespace ReleaseLog

namespace Path

/-! ## Pieces -/

theorem pieces_ne_nil (bytes : Bytes) : pieces bytes ≠ [] := by
  cases bytes with
  | nil => simp [pieces]
  | cons b rest =>
      rw [pieces]
      split
      · exact List.cons_ne_nil _ _
      · split
        · exact List.cons_ne_nil _ _
        · exact List.cons_ne_nil _ _

theorem pieces_cons {b : UInt8} (hb : b ≠ slash) {rest piece : Bytes} {more : List Bytes}
    (h : pieces rest = piece :: more) : pieces (b :: rest) = (b :: piece) :: more := by
  rw [pieces, if_neg hb, h]

theorem pieces_of_slash_not_mem {piece : Bytes} (h : slash ∉ piece) : pieces piece = [piece] := by
  induction piece with
  | nil => rfl
  | cons b piece ih =>
      obtain ⟨hb, hpiece⟩ : slash ≠ b ∧ slash ∉ piece := by simpa using h
      exact pieces_cons (Ne.symm hb) (ih hpiece)

theorem pieces_append_slash {piece : Bytes} (h : slash ∉ piece) (rest : Bytes) :
    pieces (piece ++ slash :: rest) = piece :: pieces rest := by
  induction piece with
  | nil => rw [List.nil_append, pieces, if_pos rfl]
  | cons b piece ih =>
      obtain ⟨hb, hpiece⟩ : slash ≠ b ∧ slash ∉ piece := by simpa using h
      exact pieces_cons (Ne.symm hb) (ih hpiece)

theorem slash_not_mem_of_mem_pieces {bytes piece : Bytes} (h : piece ∈ pieces bytes) :
    slash ∉ piece := by
  induction bytes generalizing piece with
  | nil =>
      obtain rfl := List.mem_singleton.mp h
      exact List.not_mem_nil
  | cons b rest ih =>
      by_cases hb : b = slash
      · rw [pieces, if_pos hb] at h
        rcases List.mem_cons.mp h with rfl | h
        · exact List.not_mem_nil
        · exact ih h
      · obtain ⟨first, more, hrest⟩ := List.exists_cons_of_ne_nil (pieces_ne_nil rest)
        rw [pieces_cons hb hrest] at h
        rcases List.mem_cons.mp h with rfl | h
        · have hfirst : slash ∉ first := ih (hrest ▸ List.mem_cons_self)
          simp [Ne.symm hb, hfirst]
        · exact ih (hrest ▸ List.mem_cons_of_mem _ h)

theorem mem_of_mem_pieces {bytes piece : Bytes} {b : UInt8} (h : piece ∈ pieces bytes)
    (hb : b ∈ piece) : b ∈ bytes := by
  induction bytes generalizing piece with
  | nil =>
      obtain rfl := List.mem_singleton.mp h
      exact hb
  | cons c rest ih =>
      by_cases hc : c = slash
      · rw [pieces, if_pos hc] at h
        rcases List.mem_cons.mp h with rfl | h
        · cases hb
        · exact List.mem_cons_of_mem _ (ih h hb)
      · obtain ⟨first, more, hrest⟩ := List.exists_cons_of_ne_nil (pieces_ne_nil rest)
        rw [pieces_cons hc hrest] at h
        rcases List.mem_cons.mp h with rfl | h
        · rcases List.mem_cons.mp hb with rfl | hb
          · exact List.mem_cons_self
          · exact List.mem_cons_of_mem _ (ih (hrest ▸ List.mem_cons_self) hb)
        · exact List.mem_cons_of_mem _ (ih (hrest ▸ List.mem_cons_of_mem _ h) hb)

/-- A slash at the end opens an empty piece. -/
theorem pieces_concat_slash (bytes : Bytes) : pieces (bytes ++ [slash]) = pieces bytes ++ [[]] := by
  induction bytes with
  | nil => rfl
  | cons b bytes ih =>
      by_cases hb : b = slash
      · rw [List.cons_append, pieces, if_pos hb, ih, pieces, if_pos hb, List.cons_append]
      · obtain ⟨piece, more, hrest⟩ := List.exists_cons_of_ne_nil (pieces_ne_nil bytes)
        rw [hrest] at ih
        rw [List.cons_append, pieces_cons hb ih, pieces_cons hb hrest]
        rfl

/-! ## Names and parts -/

/-- The octets can stand between two slashes and name an entry of a directory. -/
structure IsName (name : Bytes) : Prop where
  ne_nil : name ≠ []
  ne_here : name ≠ [0x2E]
  ne_parent : name ≠ [0x2E, 0x2E]
  slash_not_mem : slash ∉ name

theorem isName_iff {name : Bytes} :
    IsName name ↔ name ≠ [] ∧ name ≠ [0x2E] ∧ name ≠ [0x2E, 0x2E] ∧ slash ∉ name :=
  ⟨fun h => ⟨h.ne_nil, h.ne_here, h.ne_parent, h.slash_not_mem⟩,
    fun ⟨hnil, hhere, hparent, hslash⟩ => ⟨hnil, hhere, hparent, hslash⟩⟩

instance (name : Bytes) : Decidable (IsName name) :=
  decidable_of_iff' _ isName_iff

/-- The part may stand behind another one: it is a name or leads to the parent. -/
def Part.Inner : Part → Prop
  | .parent => True
  | .name octets => IsName octets
  | _ => False

def Part.step : Part → Step
  | .parent => .up
  | .name octets => .into octets
  | _ => .stay

theorem Part.ofPiece?_bytes {part : Part} (h : part.Inner) : ofPiece? part.bytes = some part := by
  cases part with
  | parent => rfl
  | name name =>
      obtain ⟨hnil, hhere, hparent, -⟩ := h
      simp [ofPiece?, Part.bytes, hnil, hhere, hparent]
  | root => exact h.elim
  | here => exact h.elim

theorem Part.inner_of_ofPiece? {piece : Bytes} (hslash : slash ∉ piece) {part : Part}
    (h : ofPiece? piece = some part) : part.Inner := by
  unfold ofPiece? at h
  split at h
  · cases h
  · rename_i hpiece
    split at h
    · obtain rfl := Option.some.inj h
      trivial
    · rename_i hparent
      obtain rfl := Option.some.inj h
      exact ⟨fun hnil => hpiece (.inl hnil), fun hhere => hpiece (.inr hhere), hparent, hslash⟩

/-- Pieces and parts ask for the same steps, but for those that stay. -/
theorem ofPiece_eq_stay_or (piece : Bytes) :
    Step.ofPiece piece = .stay ∧ Part.ofPiece? piece = none ∨
      ∃ part, Part.ofPiece? piece = some part ∧ Step.ofPiece piece = part.step ∧
        part.step ≠ .stay := by
  unfold Step.ofPiece Part.ofPiece?
  split
  · exact .inl ⟨rfl, rfl⟩
  · split
    · exact .inr ⟨.parent, rfl, rfl, by simp [Part.step]⟩
    · exact .inr ⟨.name piece, rfl, rfl, by simp [Part.step]⟩

theorem Part.slash_not_mem {part : Part} (h : part.Inner) : slash ∉ part.bytes := by
  cases part with
  | parent => decide
  | name name => exact h.slash_not_mem
  | root => exact h.elim
  | here => exact h.elim

theorem Part.step_eq {part : Part} (h : part.Inner) : Step.ofPiece part.bytes = part.step := by
  obtain ⟨-, hnone⟩ | ⟨_, hsome, hstep, -⟩ := ofPiece_eq_stay_or part.bytes
  · rw [ofPiece?_bytes h] at hnone
    cases hnone
  · rw [hstep, ← Option.some.inj ((ofPiece?_bytes h).symm.trans hsome)]

/-! ## Parts behind the lead -/

/-- The parts of a path without the root or the dot in front. -/
def body (p : Path) : List Part :=
  (pieces p.bytes).filterMap Part.ofPiece?

theorem inner_of_mem_body {p : Path} {part : Part} (h : part ∈ p.body) : part.Inner := by
  obtain ⟨piece, hpiece, hpart⟩ := List.mem_filterMap.mp h
  exact Part.inner_of_ofPiece? (slash_not_mem_of_mem_pieces hpiece) hpart

theorem parts_of_isAbsolute {p : Path} (h : p.isAbsolute = true) : p.parts = .root :: p.body := by
  rw [parts, if_pos h]
  rfl

/-- The parts of a relative path are its body, but for the dot in front. -/
theorem filter_parts_of_relative {p : Path} (h : p.isAbsolute = false) :
    p.parts.filter (· ≠ .here) = p.body := by
  have hbody : p.body.filter (· ≠ .here) = p.body := by
    apply List.filter_eq_self.mpr
    intro part hpart
    have hne : part ≠ .here := by
      rintro rfl
      exact inner_of_mem_body hpart
    exact decide_eq_true hne
  unfold parts
  rw [List.filter_append, show List.filterMap Part.ofPiece? (pieces p.bytes) = p.body from rfl,
    hbody, if_neg (by simp [h])]
  split <;> rfl

/-- The steps of a path that do not stay are those of its parts. -/
theorem filter_steps (p : Path) : p.steps.filter (· ≠ .stay) = p.body.map Part.step := by
  unfold steps body
  induction pieces p.bytes with
  | nil => rfl
  | cons piece rest ih =>
      obtain ⟨hstay, hnone⟩ | ⟨part, hsome, hstep, hne⟩ := ofPiece_eq_stay_or piece
      · rw [List.map_cons, hstay, List.filterMap_cons_none hnone, List.filter_cons_of_neg (by simp)]
        exact ih
      · rw [List.map_cons, hstep, List.filterMap_cons_some hsome, List.map_cons,
          List.filter_cons_of_pos (by simpa using hne), ih]

/-! ## Paths spelled from parts -/

variable {parts : List Part}

theorem bytes_ofParts_singleton {part : Part} (h : part.Inner) :
    (ofParts [part]).bytes = part.bytes := by
  cases part with
  | root => exact h.elim
  | here | parent | name _ => rfl

theorem bytes_ofParts_cons (part next : Part) (rest : List Part) :
    (ofParts (part :: next :: rest)).bytes =
      part.bytes ++ slash :: (ofParts (next :: rest)).bytes := by
  cases part <;> rfl

theorem pieces_ofParts (hne : parts ≠ []) (h : ∀ part ∈ parts, part.Inner) :
    pieces (ofParts parts).bytes = parts.map Part.bytes := by
  induction parts with
  | nil => exact (hne rfl).elim
  | cons part rest ih =>
      obtain ⟨hpart, hrest⟩ := List.forall_mem_cons.mp h
      have hslash := Part.slash_not_mem hpart
      cases rest with
      | nil =>
          rw [bytes_ofParts_singleton hpart, pieces_of_slash_not_mem hslash]
          rfl
      | cons next rest =>
          rw [bytes_ofParts_cons, pieces_append_slash hslash, ih (List.cons_ne_nil _ _) hrest]
          rfl

theorem bytes_ofParts_root (parts : List Part) :
    (ofParts (.root :: parts)).bytes = slash :: (ofParts parts).bytes := by
  cases parts with
  | nil => rfl
  | cons part rest => rfl

theorem body_ofParts (h : ∀ part ∈ parts, part.Inner) : (ofParts parts).body = parts := by
  cases parts with
  | nil => rfl
  | cons part rest =>
      rw [body, pieces_ofParts (List.cons_ne_nil _ _) h, List.filterMap_map]
      have hparts : ∀ q ∈ part :: rest, (Part.ofPiece? ∘ Part.bytes) q = some q :=
        fun q hq => Part.ofPiece?_bytes (h q hq)
      rw [List.filterMap_congr hparts, List.filterMap_some]

/-- Absolute paths are spelled from the root and their other parts. -/
theorem body_ofParts_root (h : ∀ part ∈ parts, part.Inner) :
    (ofParts (.root :: parts)).body = parts := by
  rw [body, bytes_ofParts_root, pieces, if_pos rfl]
  exact body_ofParts h

theorem isAbsolute_ofParts_root (parts : List Part) :
    (ofParts (.root :: parts)).isAbsolute = true := by
  rw [isAbsolute, bytes_ofParts_root]
  rfl

theorem parts_ofParts_root (h : ∀ part ∈ parts, part.Inner) :
    (ofParts (.root :: parts)).parts = .root :: parts := by
  rw [parts_of_isAbsolute (isAbsolute_ofParts_root parts), body_ofParts_root h]

theorem steps_ofParts_root (hne : parts ≠ []) (h : ∀ part ∈ parts, part.Inner) :
    (ofParts (.root :: parts)).steps = .stay :: parts.map Part.step := by
  have hsteps : ∀ part ∈ parts, (Step.ofPiece ∘ Part.bytes) part = part.step :=
    fun part hpart => Part.step_eq (h part hpart)
  rw [steps, bytes_ofParts_root, pieces, if_pos rfl, pieces_ofParts hne h, List.map_cons,
    List.map_map, List.map_congr_left hsteps]
  rfl

/-- The directory of a path and the name in it. -/
theorem parent?_eq {p : Path} {last : Part} (hlast : last.Inner)
    (h : p.parts = .root :: (parts ++ [last])) : p.parent? = some (ofParts (.root :: parts)) := by
  have hlast? : p.parts.getLast? = some last := by
    rw [h, ← List.cons_append, List.getLast?_concat]
  have hdrop : p.parts.dropLast = .root :: parts := by
    rw [h, ← List.cons_append, List.dropLast_concat]
  rw [parent?, hlast?, hdrop]
  cases last with
  | root => exact hlast.elim
  | here | parent | name _ => rfl

theorem parent?_of_root {p : Path} (h : p.parts = [.root]) : p.parent? = none := by
  rw [parent?, h]
  rfl

theorem parent?_of_isEmpty {p : Path} (h : p.isEmpty = true) : p.parent? = none := by
  obtain ⟨bytes⟩ := p
  obtain rfl : bytes = [] := List.isEmpty_iff.mp h
  rfl

/-- The directory of an absolute path is spelled from its parts. -/
theorem ofParts_parts_of_parent? {p dir : Path} (h : p.isAbsolute = true)
    (hdir : p.parent? = some dir) : ofParts dir.parts = dir := by
  have hparts := parts_of_isAbsolute h
  obtain hnil | ⟨front, last, hbody⟩ := List.eq_nil_or_concat' p.body
  · rw [parent?_of_root (by rw [hparts, hnil])] at hdir
    cases hdir
  · have hinner : ∀ part ∈ front ++ [last], part.Inner :=
      fun part hpart => inner_of_mem_body (hbody ▸ hpart)
    rw [hbody] at hparts
    rw [parent?_eq (hinner last (by simp)) hparts] at hdir
    obtain rfl := Option.some.inj hdir
    rw [parts_ofParts_root fun part hpart => hinner part (by simp [hpart])]

theorem isAbsolute_of_parts {p : Path} {parts : List Part} (h : p.parts = .root :: parts) :
    p.isAbsolute = true := by
  by_contra hrelative
  have hbody := filter_parts_of_relative (Bool.eq_false_iff.mpr hrelative)
  rw [h, List.filter_cons_of_pos (by simp)] at hbody
  exact inner_of_mem_body (hbody ▸ List.mem_cons_self : Part.root ∈ p.body)

end Path

/-! ## Locations -/

namespace Location

variable {place : Location}

theorem inner_of_mem_map (h : ∀ name ∈ place, Path.IsName name) :
    ∀ part ∈ place.map Path.Part.name, part.Inner := by
  intro part hpart
  obtain ⟨name, hname, rfl⟩ := List.mem_map.mp hpart
  exact h name hname

theorem parts_toPath (h : ∀ name ∈ place, Path.IsName name) :
    (toPath place).parts = .root :: place.map .name :=
  Path.parts_ofParts_root (inner_of_mem_map h)

/-- Every spelling of the path of an entry has the path of its directory above it. -/
theorem parent?_of_same {p : Path} {name : Bytes} (h : ∀ name ∈ place, Path.IsName name)
    (hname : Path.IsName name) (hsame : p.same (toPath (place ++ [name])) = true) :
    p.parent? = some (toPath place) := by
  have hall : ∀ other ∈ place ++ [name], Path.IsName other :=
    List.forall_mem_append.mpr ⟨h, List.forall_mem_singleton.mpr hname⟩
  have hparts : p.parts = .root :: (place.map .name ++ [.name name]) := by
    rw [of_decide_eq_true hsame, parts_toPath hall, List.map_append, List.map_singleton]
  exact Path.parent?_eq (show (Path.Part.name name).Inner from hname) hparts

theorem steps_toPath (hne : place ≠ []) (h : ∀ name ∈ place, Path.IsName name) :
    (toPath place).steps = .stay :: place.map .into := by
  rw [toPath, Path.steps_ofParts_root (by simpa using hne) (inner_of_mem_map h), List.map_map]
  rfl

theorem bytes_toPath (hne : place ≠ []) :
    (toPath place).bytes = place.flatMap (Path.slash :: ·) := by
  rw [toPath, Path.bytes_ofParts_root]
  induction place with
  | nil => exact (hne rfl).elim
  | cons name rest ih =>
      cases rest with
      | nil => simp [Path.ofParts, Path.Part.bytes]
      | cons next rest =>
          have hrest := ih (List.cons_ne_nil _ _)
          rw [List.flatMap_cons, ← hrest]
          simp [Path.ofParts, Path.Part.bytes]

/-- An entry of a directory is reported below the path of the directory. -/
theorem join_toPath {name : Bytes} (h : ∀ name ∈ place, Path.IsName name)
    (hname : Path.IsName name) :
    (toPath place).join ⟨name⟩ = toPath (place ++ [name]) := by
  have habsolute : Path.isAbsolute ⟨name⟩ = false := by
    apply Bool.eq_false_iff.mpr
    intro hhead
    exact hname.slash_not_mem (List.mem_of_head? (by simpa [Path.isAbsolute] using hhead))
  rw [Path.join, habsolute, if_neg (by simp)]
  obtain rfl | ⟨front, last, rfl⟩ := List.eq_nil_or_concat' place
  · rfl
  · have hbytes : (toPath (front ++ [last])).bytes.getLast? = last.getLast? := by
      obtain ⟨b, more, rfl⟩ := List.exists_cons_of_ne_nil (h last (by simp)).ne_nil
      rw [bytes_toPath (by simp)]
      simp [List.getLast?_append, List.getLast?_cons]
    have hslash : last.getLast? ≠ some Path.slash := fun hlast =>
      (h last (by simp)).slash_not_mem (List.mem_of_getLast? hlast)
    rw [if_neg]
    · rw [bytes_toPath (by simp), Path.mk.injEq, bytes_toPath (by simp)]
      simp
    · rw [hbytes, bytes_toPath (by simp)]
      simpa using hslash

end Location

end ReleaseLog
