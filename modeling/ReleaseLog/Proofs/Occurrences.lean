import ReleaseLog.Check
import ReleaseLog.Proofs.Numbering
import Mathlib.Data.List.Induction

/-!
# Occurrences of versions

The pass over the lines collects, for each version in the order of first occurrence, the numbers of
all its lines. Where line numbers ascend, sorting by the first of them changes nothing.
-/

namespace ReleaseLog.Check

/-- The versions of the lines, each at its first occurrence. -/
def versions (lines : List Line) : List Text :=
  (lines.filterMap version?).eraseDups

def linesOf (version : Text) (lines : List Line) : List Nat :=
  (lines.filter (version? · = some version)).map (·.number)

@[simp] theorem version?_renumber (f : Nat → Nat) (line : Line) :
    version? (line.renumber f) = version? line := rfl

theorem linesOf_append (v : Text) (xs ys : List Line) :
    linesOf v (xs ++ ys) = linesOf v xs ++ linesOf v ys := by
  simp [linesOf]

theorem mem_linesOf {v : Text} {lines : List Line} {n : Nat} :
    n ∈ linesOf v lines ↔ ∃ line ∈ lines, version? line = some v ∧ line.number = n := by
  simp [linesOf, and_assoc]

theorem mem_versions {v : Text} {lines : List Line} :
    v ∈ versions lines ↔ ∃ line ∈ lines, version? line = some v := by
  simp [versions]

theorem linesOf_ne_nil {v : Text} {lines : List Line} (h : v ∈ versions lines) :
    linesOf v lines ≠ [] := by
  obtain ⟨line, hl, hv⟩ := mem_versions.mp h
  exact List.ne_nil_of_mem (mem_linesOf.mpr ⟨line, hl, hv, rfl⟩)

theorem linesOf_eq_nil {v : Text} {lines : List Line} (h : v ∉ versions lines) :
    linesOf v lines = [] := by
  apply List.eq_nil_iff_forall_not_mem.mpr
  intro n hn
  obtain ⟨line, hl, hv, -⟩ := mem_linesOf.mp hn
  exact h (mem_versions.mpr ⟨line, hl, hv⟩)

theorem headD_linesOf_mem {v : Text} {lines : List Line} (h : v ∈ versions lines) :
    (linesOf v lines).headD 0 ∈ linesOf v lines := by
  cases hl : linesOf v lines with
  | nil => exact (linesOf_ne_nil h hl).elim
  | cons n ns => simp

/-! ## One more line -/

private theorem eraseDups_concat {α : Type} [BEq α] [LawfulBEq α] (xs : List α) (x : α) :
    (xs ++ [x]).eraseDups = if xs.contains x then xs.eraseDups else xs.eraseDups ++ [x] := by
  rw [List.eraseDups_append]
  cases h : xs.contains x with
  | true =>
      have hx : [x].removeAll xs = [] := by simpa [List.removeAll] using h
      simp [hx]
  | false =>
      have hx : [x].removeAll xs = [x] := by simpa [List.removeAll] using h
      simp [hx, List.eraseDups_cons]

theorem versions_concat_of_none {lines : List Line} {line : Line} (h : version? line = none) :
    versions (lines ++ [line]) = versions lines := by
  simp [versions, h]

theorem versions_concat_of_some {lines : List Line} {line : Line} {v : Text}
    (h : version? line = some v) :
    versions (lines ++ [line]) =
      if v ∈ versions lines then versions lines else versions lines ++ [v] := by
  have hmem : v ∈ versions lines ↔ (lines.filterMap version?).contains v = true := by
    simp [versions]
  simp only [hmem]
  simp only [versions, List.filterMap_append, List.filterMap_cons, h, List.filterMap_nil]
  exact eraseDups_concat _ v

theorem nodup_versions (lines : List Line) : (versions lines).Nodup := by
  induction lines using List.reverseRecOn with
  | nil => exact .nil
  | append_singleton lines line ih =>
      cases h : version? line with
      | none => rwa [versions_concat_of_none h]
      | some v =>
          rw [versions_concat_of_some h]
          split
          · exact ih
          · rename_i hv
            refine List.nodup_append.mpr ⟨ih, by simp, ?_⟩
            intro a ha b hb
            rw [List.mem_singleton.mp hb]
            exact ne_of_mem_of_not_mem ha hv

theorem linesOf_concat (v : Text) (lines : List Line) (line : Line) :
    linesOf v (lines ++ [line]) =
      linesOf v lines ++ if version? line = some v then [line.number] else [] := by
  rw [linesOf_append]
  by_cases h : version? line = some v <;> simp [linesOf, h]

/-! ## The pass over the lines -/

/-- A new occurrence goes to its version if that was seen before. -/
theorem addOccurrence_of_mem {v : Text} {n : Nat} {vs : List Text} (f : Text → List Nat)
    (hnd : vs.Nodup) (hv : v ∈ vs) :
    addOccurrence v n (vs.map fun w => (w, f w)) =
      vs.map fun w => (w, f w ++ if w = v then [n] else []) := by
  induction vs with
  | nil => simp at hv
  | cons w ws ih =>
      obtain ⟨hw, hws⟩ := List.nodup_cons.mp hnd
      by_cases h : w = v
      · subst h
        have htail : ∀ u ∈ ws, (u, f u ++ if u = w then [n] else []) = (u, f u) := by
          intro u hu
          have hne : u ≠ w := fun hu' => hw (hu' ▸ hu)
          simp [hne]
        simp [addOccurrence, List.map_congr_left htail]
      · have hmem : v ∈ ws := by simpa [Ne.symm h] using hv
        simp [addOccurrence, h, ih hws hmem]

theorem addOccurrence_of_not_mem {v : Text} {n : Nat} {vs : List Text} (f : Text → List Nat)
    (hv : v ∉ vs) :
    addOccurrence v n (vs.map fun w => (w, f w)) = (vs.map fun w => (w, f w)) ++ [(v, [n])] := by
  induction vs with
  | nil => rfl
  | cons w ws ih =>
      obtain ⟨hne, hws⟩ : v ≠ w ∧ v ∉ ws := by simpa using hv
      simp [addOccurrence, Ne.symm hne, ih hws]

theorem occurrences_concat_of_none {lines : List Line} {line : Line} (h : version? line = none) :
    occurrences (lines ++ [line]) = occurrences lines := by
  simp [occurrences, h]

theorem occurrences_concat_of_some {lines : List Line} {line : Line} {v : Text}
    (h : version? line = some v) :
    occurrences (lines ++ [line]) = addOccurrence v line.number (occurrences lines) := by
  simp [occurrences, h]

/-- The pass collects for each version all its lines. -/
theorem occurrences_eq (lines : List Line) :
    occurrences lines = (versions lines).map fun v => (v, linesOf v lines) := by
  induction lines using List.reverseRecOn with
  | nil => rfl
  | append_singleton lines line ih =>
      cases h : version? line with
      | none =>
          rw [occurrences_concat_of_none h, versions_concat_of_none h]
          simpa [linesOf_concat, h] using ih
      | some v =>
          rw [occurrences_concat_of_some h]
          simp only [ih, versions_concat_of_some h, linesOf_concat, h, Option.some.injEq]
          split
          · rename_i hv
            rw [addOccurrence_of_mem _ (nodup_versions lines) hv]
            simp [eq_comm]
          · rename_i hv
            have hold : ∀ w ∈ versions lines, v ≠ w := fun w hw =>
              (ne_of_mem_of_not_mem hw hv).symm
            rw [addOccurrence_of_not_mem _ hv, List.map_append]
            congr 1
            · apply List.map_congr_left
              intro w hw
              rw [if_neg (hold w hw), List.append_nil]
            · simp [linesOf_eq_nil hv]

/-! ## The order of the findings -/

/-- A version keeps its first line. -/
theorem headD_linesOf_concat {v : Text} {lines : List Line} (line : Line)
    (h : v ∈ versions lines) :
    (linesOf v (lines ++ [line])).headD 0 = (linesOf v lines).headD 0 := by
  rw [linesOf_append]
  cases hl : linesOf v lines with
  | nil => exact (linesOf_ne_nil h hl).elim
  | cons n ns => rfl

/-- Versions are in the order of their first lines. -/
theorem pairwise_versions {lines : List Line} (h : lines.Pairwise (·.number < ·.number)) :
    (versions lines).Pairwise fun v w =>
      (linesOf v lines).headD 0 < (linesOf w lines).headD 0 := by
  induction lines using List.reverseRecOn with
  | nil => exact .nil
  | append_singleton lines line ih =>
      obtain ⟨hlines, -, hlast⟩ := List.pairwise_append.mp h
      have hold : (versions lines).Pairwise fun v w =>
          (linesOf v (lines ++ [line])).headD 0 < (linesOf w (lines ++ [line])).headD 0 := by
        refine (ih hlines).imp_of_mem ?_
        intro v w hv hw hlt
        rwa [headD_linesOf_concat line hv, headD_linesOf_concat line hw]
      cases hv : version? line with
      | none => rwa [versions_concat_of_none hv]
      | some v =>
          rw [versions_concat_of_some hv]
          split
          · exact hold
          · rename_i hnew
            refine List.pairwise_append.mpr ⟨hold, by simp, ?_⟩
            intro w hw u hu
            obtain ⟨earlier, hearlier, -, hnumber⟩ := mem_linesOf.mp (headD_linesOf_mem hw)
            rw [List.mem_singleton.mp hu, headD_linesOf_concat line hw, ← hnumber,
              linesOf_concat, linesOf_eq_nil hnew, if_pos hv]
            exact hlast earlier hearlier line (by simp)

/-- The versions that head two lines or more, in the order of their first lines. -/
def repeatedVersions (lines : List Line) : List Text :=
  (versions lines).filter fun v => 1 < (linesOf v lines).length

theorem mem_repeatedVersions {v : Text} {lines : List Line} :
    v ∈ repeatedVersions lines ↔ 1 < (linesOf v lines).length := by
  simp only [repeatedVersions, List.mem_filter, decide_eq_true_eq, and_iff_right_iff_imp]
  intro h
  by_contra hv
  simp [linesOf_eq_nil hv] at h

/-- Where line numbers ascend there is one finding for each repeated version, with all its lines. -/
theorem repeats_eq {lines : List Line} (h : lines.Pairwise (·.number < ·.number)) :
    repeats lines =
      (repeatedVersions lines).map fun v => .repeatedVersion v (linesOf v lines) := by
  have hfilter : (occurrences lines).filter (·.2.length > 1) =
      (repeatedVersions lines).map fun v => (v, linesOf v lines) := by
    rw [occurrences_eq, List.filter_map]
    rfl
  have hsorted : ((repeatedVersions lines).map fun v => (v, linesOf v lines)).Pairwise
      fun a b => decide (a.2.headD 0 ≤ b.2.headD 0) = true := by
    rw [List.pairwise_map]
    refine ((pairwise_versions h).sublist List.filter_sublist).imp ?_
    intro v w hvw
    exact decide_eq_true (Nat.le_of_lt hvw)
  rw [repeats, repeated, hfilter, List.mergeSort_of_pairwise hsorted, List.map_map]
  rfl

theorem repeats_ofTexts (texts : List Text) :
    repeats (Line.ofTexts texts) = (repeatedVersions (Line.ofTexts texts)).map fun v =>
      .repeatedVersion v (linesOf v (Line.ofTexts texts)) :=
  repeats_eq (Line.pairwise_numberedFrom 1 texts)

theorem mem_repeats_ofTexts {texts : List Text} {v : Text} {ns : List Nat} :
    .repeatedVersion v ns ∈ repeats (Line.ofTexts texts) ↔
      v ∈ repeatedVersions (Line.ofTexts texts) ∧ ns = linesOf v (Line.ofTexts texts) := by
  rw [repeats_ofTexts, List.mem_map]
  constructor
  · rintro ⟨w, hw, heq⟩
    obtain ⟨rfl, rfl⟩ := Finding.repeatedVersion.inj heq
    exact ⟨hw, rfl⟩
  · rintro ⟨hv, rfl⟩
    exact ⟨v, hv, rfl⟩

/-! ## Other numbers, other lines -/

/-- A line without a version can be left out. -/
theorem repeats_append_cons_of_none {line : Line} (h : version? line = none) (xs ys : List Line) :
    repeats (xs ++ line :: ys) = repeats (xs ++ ys) := by
  have hpass : occurrences (xs ++ line :: ys) = occurrences (xs ++ ys) := by
    simp [occurrences_eq, versions, linesOf, h]
  rw [repeats, repeats, hpass]

theorem linesOf_map_renumber (f : Nat → Nat) (v : Text) (lines : List Line) :
    linesOf v (lines.map (Line.renumber f)) = (linesOf v lines).map f := by
  rw [linesOf, linesOf, List.filter_map, List.map_map, List.map_map]
  rfl

theorem repeatedVersions_map_renumber (f : Nat → Nat) (lines : List Line) :
    repeatedVersions (lines.map (Line.renumber f)) = repeatedVersions lines := by
  simp [repeatedVersions, versions, linesOf_map_renumber, List.filterMap_map, Function.comp_def]

/-- Other ascending numbers only change the numbers of the findings. -/
theorem repeats_map_renumber {f : Nat → Nat} {lines : List Line}
    (h : lines.Pairwise (·.number < ·.number))
    (hf : (lines.map (Line.renumber f)).Pairwise (·.number < ·.number)) :
    repeats (lines.map (Line.renumber f)) = (repeats lines).map (Finding.renumber f) := by
  rw [repeats_eq h, repeats_eq hf, repeatedVersions_map_renumber, List.map_map]
  apply List.map_congr_left
  intro v _
  simp [Finding.renumber, linesOf_map_renumber]

end ReleaseLog.Check
