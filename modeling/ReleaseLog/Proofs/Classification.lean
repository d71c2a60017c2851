import ReleaseLog.Proofs.Kinds
import Mathlib.Data.List.Nodup

/-!
# Classification

Four kinds have a test of their own, and a line passes at most one of these tests. So the kind of a
line does not depend on the order in which they are made, and a line that fails them all is told by
its first character.
-/

namespace ReleaseLog.Line

instance (s : Text) : (kind : Kind) → Decidable (kind.Fits s)
  | .marker => inferInstanceAs (Decidable (isMarker s = true))
  | .release => inferInstanceAs (Decidable (s.startsWith "## ".toList = true))
  | .group => inferInstanceAs (Decidable (s.startsWith "### ".toList = true))
  | .blank => inferInstanceAs (Decidable (s.isBlank = true))
  | .entry => inferInstanceAs (Decidable (s.head? ≠ some '#' ∧ s.head? ≠ some '['))
  | .other => inferInstanceAs (Decidable (s.head? = some '#' ∨ s.head? = some '['))

/-! ## Merge markers -/

theorem isTagged_iff {lead s : Text} :
    isTagged lead s = true ↔ ∃ rest, s = lead ++ rest ∧ rest ≠ [] ∧ '\n' ∉ rest := by
  unfold isTagged
  constructor
  · intro h
    split at h
    · rename_i rest hrest
      exact ⟨rest, Text.after?_eq_some_iff.mp hrest, by simpa using h⟩
    · cases h
  · rintro ⟨rest, hs, hrest⟩
    rw [Text.after?_eq_some_iff.mpr hs]
    simpa using hrest

/-- The tags of the two sides of a merge. -/
def sides : List Text :=
  ["<<<<<<< ".toList, ">>>>>>> ".toList]

/-- A marker is the bare separator, or the tag of a side with something behind it in its line. -/
theorem isMarker_iff {s : Text} :
    isMarker s = true ↔ s = "=======".toList ∨
      ∃ lead ∈ sides, ∃ rest, s = lead ++ rest ∧ rest ≠ [] ∧ '\n' ∉ rest := by
  have hsides : (∃ lead ∈ sides, ∃ rest, s = lead ++ rest ∧ rest ≠ [] ∧ '\n' ∉ rest) ↔
      isTagged "<<<<<<< ".toList s = true ∨ isTagged ">>>>>>> ".toList s = true := by
    rw [isTagged_iff, isTagged_iff, sides, List.exists_mem_cons_iff, List.exists_mem_cons_iff]
    simp only [List.not_mem_nil, false_and, exists_false, or_false]
  rw [hsides, isMarker, Bool.or_eq_true, Bool.or_eq_true, beq_iff_eq]
  exact or_right_comm.trans or_comm

theorem kind_eq_marker_iff {s : Text} : Kind.ofText s = .marker ↔ isMarker s = true := by
  refine ⟨fits_of_kind, ?_⟩
  intro h
  rw [Kind.ofText, if_pos h]

/-! ## Tests in any order -/

/-- The kinds with a test of their own. -/
def Kind.tested : List Kind :=
  [.marker, .release, .group, .blank]

/-- The first of these kinds whose test a line passes. Without any, the line is told by its first
character. -/
def Kind.firstOf (order : List Kind) (s : Text) : Kind :=
  (order.find? (·.Fits s)).getD
    (if s.head? ≠ some '#' ∧ s.head? ≠ some '[' then .entry else .other)

/-- The test of a kind is passed by the lines of this kind alone. -/
theorem kind_eq_iff_of_mem_tested {kind : Kind} (h : kind ∈ Kind.tested) (s : Text) :
    Kind.ofText s = kind ↔ kind.Fits s := by
  simp only [Kind.tested, List.mem_cons, List.not_mem_nil, or_false] at h
  rcases h with rfl | rfl | rfl | rfl
  · exact kind_eq_marker_iff
  · exact kind_eq_release_iff
  · exact kind_eq_group_iff
  · exact kind_eq_blank_iff

theorem eq_of_fits {kind kind' : Kind} {s : Text} (h : kind ∈ Kind.tested)
    (h' : kind' ∈ Kind.tested) (hs : kind.Fits s) (hs' : kind'.Fits s) : kind = kind' := by
  rw [← (kind_eq_iff_of_mem_tested h s).mpr hs, (kind_eq_iff_of_mem_tested h' s).mpr hs']

/-- Without a passed test, only the first character counts. -/
theorem kind_of_forall_not_fits {s : Text} (h : ∀ kind ∈ Kind.tested, ¬ kind.Fits s) :
    Kind.ofText s = if s.head? ≠ some '#' ∧ s.head? ≠ some '[' then .entry else .other := by
  have hmarker : ¬ isMarker s = true := h .marker (by decide)
  have hrelease : ¬ s.startsWith "## ".toList = true := h .release (by decide)
  have hgroup : ¬ s.startsWith "### ".toList = true := h .group (by decide)
  have hblank : ¬ s.isBlank = true := h .blank (by decide)
  rw [Kind.ofText, if_neg hmarker, if_neg hrelease, if_neg hgroup, if_neg hblank]

theorem firstOf_eq_ofText {order : List Kind} (h : order.Perm Kind.tested) (s : Text) :
    Kind.firstOf order s = Kind.ofText s := by
  unfold Kind.firstOf
  cases hfirst : order.find? (·.Fits s) with
  | none =>
      refine (kind_of_forall_not_fits fun kind hkind => ?_).symm
      have hnot := List.find?_eq_none.mp hfirst kind (h.mem_iff.mpr hkind)
      simpa using hnot
  | some kind =>
      have hkind : kind ∈ Kind.tested := h.mem_iff.mp (List.mem_of_find?_eq_some hfirst)
      have hfits : kind.Fits s := by simpa using List.find?_some hfirst
      exact ((kind_eq_iff_of_mem_tested hkind s).mpr hfits).symm

theorem kind_eq_entry_iff {s : Text} :
    Kind.ofText s = .entry ↔
      (∀ kind ∈ Kind.tested, ¬ kind.Fits s) ∧ s.head? ≠ some '#' ∧ s.head? ≠ some '[' := by
  constructor
  · intro h
    refine ⟨fun kind hkind hfits => ?_, fits_of_kind h⟩
    rw [← kind_eq_iff_of_mem_tested hkind s, h] at hfits
    subst hfits
    exact absurd hkind (by decide)
  · rintro ⟨hnone, hhead⟩
    rw [kind_of_forall_not_fits hnone, if_pos hhead]

/-- A merge marker is the bare separator, or a tag with something behind it in the same line. No
line passes the tests of two kinds, so that their order does not matter. An entry passes none of
them and starts with neither `#` nor `[`. A line that opens with two hashes heads a release, heads a
group or is something else. -/
theorem classification_exact :
    (∀ s : Text, isMarker s = true ↔ s = "=======".toList ∨
      ∃ lead ∈ sides, ∃ rest, s = lead ++ rest ∧ rest ≠ [] ∧ '\n' ∉ rest) ∧
    (∀ s : Text, Kind.tested.Pairwise fun kind kind' => ¬ (kind.Fits s ∧ kind'.Fits s)) ∧
    (∀ order : List Kind, order.Perm Kind.tested → ∀ s : Text,
      Kind.firstOf order s = Kind.ofText s) ∧
    (∀ s : Text, Kind.ofText s = .entry ↔
      (∀ kind ∈ Kind.tested, ¬ kind.Fits s) ∧ s.head? ≠ some '#' ∧ s.head? ≠ some '[') ∧
    ∀ s : Text, s.startsWith "##".toList = true →
      Kind.ofText s = .release ∨ Kind.ofText s = .group ∨ Kind.ofText s = .other := by
  refine ⟨fun s => isMarker_iff, ?_, fun order h s => firstOf_eq_ofText h s,
    fun s => kind_eq_entry_iff, ?_⟩
  · intro s
    have hdistinct : Kind.tested.Pairwise (· ≠ ·) := by decide
    refine hdistinct.imp_of_mem ?_
    intro kind kind' hkind hkind' hne hboth
    exact hne (eq_of_fits hkind hkind' hboth.1 hboth.2)
  · intro s h
    have hopens : (ofText 1 s).opensBody = true := h
    exact kind_of_opensBody hopens

-- A tag at the very end of a line, or in front of a line feed, is no marker.
example : [isMarker "<<<<<<< ".toList, isMarker "<<<<<<< a\n".toList,
    isMarker "<<<<<<< a\r".toList, isMarker "=======\r".toList] = [false, false, true, false] := by
  decide

end ReleaseLog.Line
