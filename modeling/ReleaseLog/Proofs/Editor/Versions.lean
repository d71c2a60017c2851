import ReleaseLog.Proofs.Blocks
import ReleaseLog.Proofs.Grouping
import ReleaseLog.Proofs.Kinds
import ReleaseLog.Proofs.Text.Layout
import Mathlib.Algebra.Group.Nat.Defs

/-!
# Versions in the outline

Where the hashes of headings are followed by plain blanks, each dated heading heads a release of the
outline. So the outline and the findings on repeated versions have the same lines for each version.
-/

namespace ReleaseLog

/-! ## Headings with plain blanks -/

/-- Two hashes in front are followed by no other white space of ASCII than a blank. -/
def Line.SpacedPlainly (text : Text) : Prop :=
  ∀ rest ∈ text.after? "##".toList, ∀ c ∈ rest.head?, Text.isAsciiSpace c = true → c = ' '

instance (text : Text) : Decidable (Line.SpacedPlainly text) :=
  let plain (rest : Text) :
      Decidable (∀ c ∈ rest.head?, Text.isAsciiSpace c = true → c = ' ') :=
    Option.decidableForallMem rest.head?
  @Option.decidableForallMem _ _ plain (text.after? "##".toList)

namespace ReleaseHeading

theorem kind_of_parse? {text : Text} {heading : ReleaseHeading}
    (hplain : Line.SpacedPlainly text) (h : parse? text = some heading) :
    Line.Kind.ofText text = .release := by
  obtain ⟨w, hw, rfl, -⟩ := parse?_eq_some_iff.mp h
  obtain ⟨c, rest, htext, hc⟩ := Written.exists_space hw
  obtain rfl : c = ' ' := hplain (c :: rest) (Text.after?_eq_some_iff.mpr htext) c rfl hc
  rw [kind_text hw, htext]
  rfl

end ReleaseHeading

namespace Check

theorem kind_of_version? {texts : List Text} {line : Line} {v : Text}
    (hplain : ∀ text ∈ texts, Line.SpacedPlainly text) (hline : line ∈ Line.ofTexts texts)
    (h : version? line = some v) : line.kind = .release := by
  obtain ⟨i, text, htext, rfl⟩ := Line.mem_numberedFrom.mp hline
  rw [version?_eq, Option.map_eq_some_iff] at h
  obtain ⟨heading, hparse, -⟩ := h
  exact ReleaseHeading.kind_of_parse? (hplain text (List.mem_of_getElem? htext)) hparse

end Check

namespace RuleSet

/-- A version is found with all its lines if it has two lines or more. -/
theorem repeatedVersion_mem_checkLines_iff {rules : RuleSet} {texts : List Text} {v : Text}
    {ns : List Nat} (hon : rules.isOn .duplicateVersions = true) :
    .repeatedVersion v ns ∈ (rules.checkLines texts).findings ↔
      2 ≤ (Check.linesOf v (Line.ofTexts texts)).length ∧
        ns = Check.linesOf v (Line.ofTexts texts) := by
  rw [mem_findings_checkLines, ← Nat.lt_iff_add_one_le, ← Check.mem_repeatedVersions,
    ← Check.mem_repeats_ofTexts]
  constructor
  · rintro ⟨r, -, hmem⟩
    obtain rfl : r = .duplicateVersions := by
      simpa [Finding.rule?] using (Rule.rule?_of_mem_findings hmem).symm
    exact hmem
  · intro hmem
    exact ⟨.duplicateVersions, hon, hmem⟩

end RuleSet

namespace Editor.Outline

open Check (linesOf version?)

/-! ## The dated releases of a version -/

/-- The lines on which the releases of a version start that have a date. -/
def startsOf (version : Text) (outline : List ReleaseSymbol) : List Nat :=
  (outline.filter fun r => r.date.isSome ∧ r.name = version).map (·.range.start.line)

theorem dated_release_iff {b : Block} {v : Text} :
    ((release b).date.isSome ∧ (release b).name = v) ↔ version? b.heading = some v := by
  rw [Check.version?_eq, release]
  cases ReleaseHeading.parse? b.heading.text <;> simp

/-- The dated releases of a version start at its lines, which count from one. -/
theorem startsOf_ofText {text : Text} (hplain : ∀ line ∈ text.lines, Line.SpacedPlainly line)
    (v : Text) :
    startsOf v (ofText text) =
      (linesOf v (Line.ofTexts text.lines)).map fun n => (n - 1) % 2 ^ 32 := by
  have hrelease : ∀ line ∈ Line.ofTexts text.lines,
      (decide (version? line = some v) && decide (line.kind = .release)) =
        decide (version? line = some v) := by
    intro line hline
    by_cases h : version? line = some v
    · simp [h, Check.kind_of_version? hplain hline h]
    · simp [h]
  calc startsOf v (ofText text)
    _ = ((Block.ofKind .release (Line.ofTexts text.lines)).filter
          fun b => version? b.heading = some v).map fun b => (b.heading.number - 1) % 2 ^ 32 := by
      simp only [startsOf, ofText, ofLines, List.filter_map, List.map_map, Function.comp_def,
        dated_release_iff]
      rfl
    _ = (((Block.ofKind .release (Line.ofTexts text.lines)).map (·.heading)).filter
          fun line => version? line = some v).map fun line => (line.number - 1) % 2 ^ 32 := by
      rw [List.filter_map, List.map_map]
      rfl
    _ = ((Line.ofTexts text.lines).filter
          fun line => version? line = some v).map fun line => (line.number - 1) % 2 ^ 32 := by
      rw [Block.map_heading_ofKind, List.filter_filter, List.filter_congr hrelease]
    _ = (linesOf v (Line.ofTexts text.lines)).map fun n => (n - 1) % 2 ^ 32 := by
      rw [linesOf, List.map_map]
      rfl

/-- In a document whose lines can be counted in 32 bits, no number of a line is cut. -/
theorem map_cut_linesOf {texts : List Text} (h : texts.length ≤ 2 ^ 32) (v : Text) :
    (linesOf v (Line.ofTexts texts)).map (fun n => (n - 1) % 2 ^ 32) =
      (linesOf v (Line.ofTexts texts)).map (· - 1) := by
  apply List.map_congr_left
  intro n hn
  obtain ⟨line, hline, -, rfl⟩ := Check.mem_linesOf.mp hn
  have := Line.le_number_of_mem_numberedFrom hline
  exact Nat.mod_eq_of_lt (by omega)

theorem map_succ_pred_linesOf (texts : List Text) (v : Text) :
    ((linesOf v (Line.ofTexts texts)).map (· - 1)).map (· + 1) =
      linesOf v (Line.ofTexts texts) := by
  rw [List.map_map]
  refine (List.map_congr_left fun n hn => ?_).trans (List.map_id _)
  obtain ⟨line, hline, -, rfl⟩ := Check.mem_linesOf.mp hn
  exact Nat.sub_add_cancel (Line.le_number_of_mem_numberedFrom hline).1

/-- The findings on a version beside the lines on which its dated releases start. Positions have 32
bits, so in a longer document the lines agree as far as these can tell. -/
structure ReadsAlike (text : Text) (v : Text) : Prop where
  repeated : (∃ ns, .repeatedVersion v ns ∈ (({} : RuleSet).checkText text).findings) ↔
    2 ≤ (startsOf v (ofText text)).length
  cut : ∀ ns, .repeatedVersion v ns ∈ (({} : RuleSet).checkText text).findings →
    ns.map (fun n => (n - 1) % 2 ^ 32) = startsOf v (ofText text)
  ascending : text.lines.length ≤ 2 ^ 32 → (startsOf v (ofText text)).Pairwise (· < ·)
  lines : text.lines.length ≤ 2 ^ 32 → ∀ ns,
    .repeatedVersion v ns ∈ (({} : RuleSet).checkText text).findings ↔
      2 ≤ ns.length ∧ ns = (startsOf v (ofText text)).map (· + 1)

theorem mem_checkText_iff {text v : Text} {ns : List Nat} :
    .repeatedVersion v ns ∈ (({} : RuleSet).checkText text).findings ↔
      2 ≤ (linesOf v (Line.ofTexts text.lines)).length ∧
        ns = linesOf v (Line.ofTexts text.lines) :=
  RuleSet.repeatedVersion_mem_checkLines_iff rfl

/-- The outline and the findings on repeated versions read the same headings. A version is repeated
if the outline has two dated releases of it, and its lines are those on which they start. -/
theorem repeats_match_outline {text : Text}
    (hplain : ∀ line ∈ text.lines, Line.SpacedPlainly line) (v : Text) : ReadsAlike text v := by
  have hstarts := startsOf_ofText hplain v
  refine ⟨?_, ?_, ?_, ?_⟩
  · simp only [mem_checkText_iff, hstarts, List.length_map]
    exact ⟨fun ⟨_, hlength, _⟩ => hlength, fun hlength => ⟨_, hlength, rfl⟩⟩
  · intro ns hns
    rw [(mem_checkText_iff.mp hns).2, hstarts]
  · intro hlength
    rw [hstarts, map_cut_linesOf hlength, List.pairwise_map]
    refine (Check.pairwise_linesOf (Line.pairwise_numberedFrom 1 text.lines) v).imp_of_mem ?_
    intro m n hm hn hlt
    obtain ⟨line, hline, -, rfl⟩ := Check.mem_linesOf.mp hm
    have := (Line.le_number_of_mem_numberedFrom hline).1
    omega
  · intro hlength ns
    rw [mem_checkText_iff, hstarts, map_cut_linesOf hlength, map_succ_pred_linesOf]
    exact ⟨fun ⟨hlength, hns⟩ => ⟨hns ▸ hlength, hns⟩,
      fun ⟨hlength, hns⟩ => ⟨hns ▸ hlength, hns⟩⟩

/-- Two headings of a version, a title that reads like it, and another version between. -/
def reprise : Text :=
  "## 1.0\n## [1.0] - 2017-06-20\n### Added\n##[1.0]\n".toList ++
    "## [0.9] - 2017-01-01\n\n##  [1.0]\t- 2018-01-01".toList

theorem reprise_matches :
    (∀ line ∈ reprise.lines, Line.SpacedPlainly line) ∧ reprise.lines.length ≤ 2 ^ 32 ∧
    startsOf "1.0".toList (ofText reprise) = [1, 6] ∧
    .repeatedVersion "1.0".toList [2, 7] ∈ (({} : RuleSet).checkText reprise).findings := by
  have hplain : ∀ line ∈ reprise.lines, Line.SpacedPlainly line := by decide
  have hlength : reprise.lines.length ≤ 2 ^ 32 := by decide
  have hstarts : startsOf "1.0".toList (ofText reprise) = [1, 6] := by decide +kernel
  refine ⟨hplain, hlength, hstarts, ?_⟩
  rw [(repeats_match_outline hplain "1.0".toList).lines hlength, hstarts]
  exact ⟨Nat.le_refl 2, rfl⟩

/-! ## Where they differ -/

def heading : Text :=
  "## [1.0] - 2017-06-20".toList

/-- The heading twice, with empty lines between. -/
def apart (empty : Nat) : Text :=
  heading ++ '\n' :: (List.replicate empty '\n' ++ heading)

/-- Headings with a vertical tab after the hashes. -/
def tabbed : Text :=
  "##\x0b[1.0] - 2017-06-20\n##\x0b[1.0] - 2018-01-01".toList

theorem lines_apart (n : Nat) :
    (apart n).lines = heading :: (List.replicate n [] ++ [heading]) := by
  have hheading : Text.Unbroken heading := by decide
  have hfeeds : ∀ k, Text.lines (List.replicate k '\n' ++ heading) =
      List.replicate k [] ++ [heading] := by
    intro k
    induction k with
    | zero => exact Text.lines_of_unbroken hheading
    | succ k ih =>
        rw [List.replicate_succ, List.cons_append, Text.lines_feed, ih]
        rfl
  have hapart : apart n =
      heading ++ (Text.Stop.feed.text ++ (List.replicate n '\n' ++ heading)) := rfl
  rw [hapart, Text.lines_line hheading (by simp), hfeeds]

theorem plain_apart (n : Nat) : ∀ line ∈ (apart n).lines, Line.SpacedPlainly line := by
  intro line hline
  rw [lines_apart, ← List.cons_append, List.mem_append, List.mem_cons, List.mem_singleton] at hline
  obtain rfl | rfl : line = heading ∨ line = [] := by
    rcases hline with (h | h) | h
    · exact .inl h
    · exact .inr (List.eq_of_mem_replicate h)
    · exact .inl h
  all_goals decide

theorem linesOf_apart (n : Nat) :
    linesOf "1.0".toList (Line.ofTexts (apart n).lines) = [1, n + 2] := by
  have hheading : ∀ k, linesOf "1.0".toList [.ofText k heading] = [k] := by
    intro k
    have hparse : (ReleaseHeading.parse? heading).map (·.version) = some "1.0".toList := by decide
    have hversion : version? (.ofText k heading) = some "1.0".toList :=
      (Check.version?_eq _).trans hparse
    simp [linesOf, hversion]
  have hempty : linesOf "1.0".toList (Line.numberedFrom 2 (List.replicate n [])) = [] := by
    rw [linesOf, List.map_eq_nil_iff, List.filter_eq_nil_iff]
    intro line hline
    obtain ⟨i, text, htext, rfl⟩ := Line.mem_numberedFrom.mp hline
    obtain rfl := List.eq_of_mem_replicate (List.mem_of_getElem? htext)
    have hparse : ReleaseHeading.parse? [] = none := rfl
    simp only [Check.version?_eq, Line.text_ofText, hparse]
    decide
  calc linesOf "1.0".toList (Line.ofTexts (apart n).lines)
    _ = linesOf "1.0".toList ([.ofText 1 heading] ++
          (Line.numberedFrom 2 (List.replicate n []) ++ [.ofText (2 + n) heading])) := by
      rw [lines_apart, Line.ofTexts, Line.numberedFrom_cons, Line.numberedFrom_append,
        List.length_replicate]
      rfl
    _ = [1, n + 2] := by
      rw [Check.linesOf_append, Check.linesOf_append, hheading, hempty, hheading, Nat.add_comm]
      rfl

/-- Over more lines than 32 bits can count, the second heading seems to start on the first line. A
vertical tab after the hashes is read by the findings only. -/
theorem repeats_differ_from_outline :
    ((∀ line ∈ (apart (2 ^ 32 - 1)).lines, Line.SpacedPlainly line) ∧
      .repeatedVersion "1.0".toList [1, 2 ^ 32 + 1] ∈
        (({} : RuleSet).checkText (apart (2 ^ 32 - 1))).findings ∧
      (startsOf "1.0".toList (ofText (apart (2 ^ 32 - 1)))).map (· + 1) = [1, 1]) ∧
    ((∀ line ∈ tabbed.lines, ∀ lead ∈ ["##\t", "##\n", "##\x0c", "##\r"],
        line.startsWith lead.toList = false) ∧
      .repeatedVersion "1.0".toList [1, 2] ∈ (({} : RuleSet).checkText tabbed).findings ∧
      startsOf "1.0".toList (ofText tabbed) = []) := by
  have hlines : linesOf "1.0".toList (Line.ofTexts (apart (2 ^ 32 - 1)).lines) =
      [1, 2 ^ 32 + 1] :=
    linesOf_apart (2 ^ 32 - 1)
  refine ⟨⟨plain_apart _, mem_checkText_iff.mpr ?_, ?_⟩, ?_, ?_, ?_⟩
  · rw [hlines]
    exact ⟨Nat.le_refl 2, rfl⟩
  · rw [startsOf_ofText (plain_apart _), hlines]
    simp
  · decide
  · decide +kernel
  · decide

end Editor.Outline

end ReleaseLog
