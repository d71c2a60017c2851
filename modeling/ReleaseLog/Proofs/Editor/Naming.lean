import ReleaseLog.Proofs.Blocks
import ReleaseLog.Proofs.Kinds
import Mathlib.Data.List.Forall2
import Mathlib.Data.List.TakeWhile

/-!
# Names in the outline

A title has something to show: the text after the hashes, and otherwise the hashes themselves. The
version of a dated heading need not, so a release has a blank name if its version is blank, and only
then.
-/

namespace ReleaseLog

/-! ## Visible texts -/

namespace Text

/-- The text has a character other than white space. -/
def Visible (s : Text) : Prop :=
  ∃ c ∈ s, isSpace c = false

theorem mem_dropWhile {p : Char → Bool} {s : Text} {c : Char} (hc : c ∈ s) (hp : p c = false) :
    c ∈ s.dropWhile p := by
  rw [← List.takeWhile_append_dropWhile (p := p) (l := s), List.mem_append] at hc
  rcases hc with hc | hc
  · have hdropped := List.mem_takeWhile_imp hc
    simp [hp] at hdropped
  · exact hc

/-- Trimming takes away white space only. -/
theorem Visible.trim {s : Text} (h : s.Visible) : s.trim.Visible := by
  obtain ⟨c, hc, hspace⟩ := h
  refine ⟨c, List.mem_reverse.mpr (mem_dropWhile (List.mem_reverse.mpr ?_) hspace), hspace⟩
  exact mem_dropWhile hc hspace

theorem visible_of_trim_ne_nil {s : Text} (h : s.trim ≠ []) : s.Visible := by
  by_contra hblank
  have hall : ∀ c ∈ s, isSpace c = true := by simpa [Visible] using hblank
  exact h (by rw [trim, trimBy, List.dropWhile_eq_nil_iff.mpr hall]; rfl)

end Text

namespace Line

theorem mem_ofTexts_kind {texts : List Text} {line : Line} (h : line ∈ ofTexts texts) :
    line.kind = .ofText line.text := by
  obtain ⟨_, _, _, rfl⟩ := mem_numberedFrom.mp h
  rfl

theorem head?_of_kind {s : Text} (h : Kind.ofText s = .release ∨ Kind.ofText s = .group) :
    s.head? = some '#' := by
  rcases h with h | h
  · exact head?_of_startsWith (fits_of_kind h)
  · exact head?_of_startsWith (fits_of_kind h)

end Line

theorem Block.mem_of_mem_lines {kind : Line.Kind} {ls : List Line} {b : Block}
    (hb : b ∈ ofKind kind ls) {line : Line} (hline : line ∈ b.lines) : line ∈ ls := by
  have hmem : line ∈ (ofKind kind ls).flatMap lines := List.mem_flatMap.mpr ⟨b, hb, hline⟩
  rw [flatMap_lines_ofKind] at hmem
  exact List.dropWhile_sublist _ |>.mem hmem

namespace Editor.Outline

/-! ## Titles -/

/-- A heading without a title shows its hashes. -/
theorem visible_title {hashes heading : Text} (h : heading.head? = some '#') :
    (title hashes heading).Visible := by
  have hheading : heading.Visible := ⟨'#', List.mem_of_mem_head? h, rfl⟩
  rw [title]
  split
  · exact hheading.trim
  · rename_i hnonempty
    exact (Text.visible_of_trim_ne_nil (by simpa using hnonempty)).trim

/-! ## Symbols -/

theorem visible_name_iff {b : Block} (h : b.heading.text.head? = some '#') :
    (release b).name.Visible ↔ ∀ heading, ReleaseHeading.parse? b.heading.text = some heading →
      heading.version.Visible := by
  cases hparse : ReleaseHeading.parse? b.heading.text with
  | none => simp [release, hparse, visible_title h]
  | some heading => simp [release, hparse]

theorem head?_heading {kind : Line.Kind} (hkind : kind = .release ∨ kind = .group) {ls : List Line}
    (hls : ∀ line ∈ ls, line.kind = .ofText line.text) {b : Block}
    (hb : b ∈ Block.ofKind kind ls) : b.heading.text.head? = some '#' := by
  apply Line.head?_of_kind
  rw [← hls b.heading (Block.mem_of_mem_lines hb List.mem_cons_self), Block.kind_heading_of_mem hb]
  exact hkind

theorem visible_of_mem_groups {texts : List Text} {b : Block}
    (hb : b ∈ Block.ofKind .release (Line.ofTexts texts)) {g : GroupSymbol}
    (hg : g ∈ (release b).groups) : g.name.Visible := by
  obtain ⟨inner, hinner, rfl⟩ := List.mem_map.mp hg
  refine visible_title (head?_heading (.inr rfl) (fun line hline => ?_) hinner)
  exact Line.mem_ofTexts_kind (Block.mem_of_mem_lines hb (List.mem_cons_of_mem _ hline))

/-- Every group has a visible name, and so has every release without a date. A dated release has one
if its version is visible, and only then. -/
theorem names_visible (text : Text) :
    (∀ r ∈ ofText text, ∀ g ∈ r.groups, g.name.Visible) ∧
    (∀ r ∈ ofText text, r.name.Visible ∨ r.date.isSome) ∧
    List.Forall₂
      (fun line r => r.name.Visible ↔ ∀ heading,
        ReleaseHeading.parse? line.text = some heading → heading.version.Visible)
      ((Line.ofTexts text.lines).filter (·.kind = .release)) (ofText text) := by
  have hheading : ∀ b ∈ Block.ofKind .release (Line.ofTexts text.lines),
      b.heading.text.head? = some '#' :=
    fun b hb => head?_heading (.inl rfl) (fun line => Line.mem_ofTexts_kind) hb
  refine ⟨?_, ?_, ?_⟩
  · simp only [ofText, ofLines, List.forall_mem_map]
    exact fun b hb g => visible_of_mem_groups hb
  · simp only [ofText, ofLines, List.forall_mem_map]
    intro b hb
    rw [visible_name_iff (hheading b hb)]
    cases hparse : ReleaseHeading.parse? b.heading.text with
    | none => exact .inl (by simp)
    | some heading => exact .inr (by simp [release, hparse])
  · rw [← Block.map_heading_ofKind, ofText, ofLines, List.forall₂_map_left_iff,
      List.forall₂_map_right_iff, List.forall₂_same]
    exact fun b hb => visible_name_iff (hheading b hb)

/-- A dated heading between whose brackets there is nothing. -/
def unnamed : Text :=
  "## [] - 2020-01-01".toList

/-- The release of that heading has nothing to show, unlike a heading without a title. -/
theorem unnamed_invisible :
    (ofText unnamed).map (·.name) = [[]] ∧ (∃ r ∈ ofText unnamed, ¬ r.name.Visible) ∧
      (ofText "## ".toList).map (·.name) = ["##".toList] := by
  have hname : (ofText unnamed).map (·.name) = [[]] := by decide +kernel
  refine ⟨hname, ?_, by decide +kernel⟩
  obtain ⟨r, hr, hempty⟩ : ∃ r ∈ ofText unnamed, r.name = [] :=
    List.mem_map.mp (hname ▸ List.mem_singleton_self [])
  exact ⟨r, hr, by simp [Text.Visible, hempty]⟩

end Editor.Outline

end ReleaseLog
