import ReleaseLog.Proofs.Blocks
import Mathlib.Algebra.Group.Nat.Defs

/-!
# Nesting in the outline

The ranges of the releases divide the document from its first release heading on, and the ranges of
the groups divide each release from its first group heading on. So every heading has one symbol, in
the right place.
-/

namespace ReleaseLog.Editor

/-! ## Ranges of whole lines -/

/-- Positions come line by line. -/
instance : LE Position :=
  ⟨fun p q => p.line < q.line ∨ p.line = q.line ∧ p.character ≤ q.character⟩

namespace Range

/-- The line, counted from zero, is in the range. -/
def Covers (r : Range) (n : Nat) : Prop :=
  r.start.line ≤ n ∧ n ≤ r.stop.line

def Within (inner outer : Range) : Prop :=
  outer.start ≤ inner.start ∧ inner.stop ≤ outer.stop

/-- The range has whole lines of the document, up to the end of its last line. -/
structure Whole (lines : List Text) (r : Range) : Prop where
  start : r.start.character = 0
  ordered : r.start.line ≤ r.stop.line
  stop : ∃ text, lines[r.stop.line]? = some text ∧ r.stop.character = text.units

theorem Whole.within {lines : List Text} {inner outer : Range} (hi : inner.Whole lines)
    (ho : outer.Whole lines) (hstart : outer.start.line ≤ inner.start.line)
    (hstop : inner.stop.line ≤ outer.stop.line) : inner.Within outer := by
  constructor
  · rcases Nat.lt_or_eq_of_le hstart with hlt | heq
    · exact .inl hlt
    · exact .inr ⟨heq, Nat.le_of_eq (ho.start.trans hi.start.symm)⟩
  · rcases Nat.lt_or_eq_of_le hstop with hlt | heq
    · exact .inl hlt
    · obtain ⟨last, hlast, hunits⟩ := hi.stop
      obtain ⟨text, htext, houter⟩ := ho.stop
      obtain rfl : last = text := by
        rw [heq, htext] at hlast
        exact (Option.some.inj hlast).symm
      exact .inr ⟨heq, Nat.le_of_eq (hunits.trans houter.symm)⟩

end Range

/-! ## Tiles -/

/-- Whole lines, range after range without a gap, from a first line up to before the line `stop`. -/
inductive Tiles (lines : List Text) (stop : Nat) : Nat → List Range → Prop
  | nil : Tiles lines stop stop []
  | cons {first : Nat} {r : Range} {rest : List Range} (starts : r.start.line = first)
      (whole : r.Whole lines) (tiles : Tiles lines stop (r.stop.line + 1) rest) :
      Tiles lines stop first (r :: rest)

/-- The ranges divide the lines up to before the line `stop`: each begins at one of the headings and
ends where the next one begins, and no line below a heading is left out. -/
structure Divides (lines : List Text) (headings : List Nat) (stop : Nat) (ranges : List Range) :
    Prop where
  starts : ranges.map (·.start.line) = headings
  whole : ∀ r ∈ ranges, r.Whole lines
  consecutive : ranges.IsChain fun a b => a.stop.line + 1 = b.start.line
  disjoint : ranges.Pairwise fun a b => a.stop.line < b.start.line
  covers : ∀ n, (∃ r ∈ ranges, r.Covers n) ↔ (∃ h ∈ headings, h ≤ n) ∧ n < stop

namespace Tiles

variable {lines : List Text} {first stop : Nat} {ranges : List Range}

theorem whole (h : Tiles lines stop first ranges) : ∀ r ∈ ranges, r.Whole lines := by
  induction h with
  | nil => simp
  | cons _ whole _ ih => exact List.forall_mem_cons.mpr ⟨whole, ih⟩

theorem le (h : Tiles lines stop first ranges) : first ≤ stop := by
  induction h with
  | nil => exact Nat.le_refl _
  | cons starts whole _ ih =>
      have := whole.ordered
      omega

theorem first_le_start (h : Tiles lines stop first ranges) :
    ∀ r ∈ ranges, first ≤ r.start.line := by
  induction h with
  | nil => simp
  | cons starts whole _ ih =>
      refine List.forall_mem_cons.mpr ⟨Nat.le_of_eq starts.symm, ?_⟩
      intro r hr
      have := whole.ordered
      have := ih r hr
      omega

theorem covers_iff (h : Tiles lines stop first ranges) (n : Nat) :
    (∃ r ∈ ranges, r.Covers n) ↔ first ≤ n ∧ n < stop := by
  induction h with
  | nil =>
      simp
  | cons starts whole tiles ih =>
      have hordered := whole.ordered
      have hle := tiles.le
      simp only [List.mem_cons, exists_eq_or_imp, ih]
      unfold Range.Covers
      omega

theorem consecutive (h : Tiles lines stop first ranges) :
    ranges.IsChain fun a b => a.stop.line + 1 = b.start.line := by
  induction h with
  | nil => exact .nil
  | cons _ _ tiles ih =>
      cases tiles with
      | nil => exact .singleton _
      | cons starts => exact .cons_cons starts.symm ih

theorem disjoint (h : Tiles lines stop first ranges) :
    ranges.Pairwise fun a b => a.stop.line < b.start.line := by
  induction h with
  | nil => exact .nil
  | cons _ _ tiles ih => exact .cons (fun r hr => tiles.first_le_start r hr) ih

theorem divides (h : Tiles lines stop first ranges) :
    Divides lines (ranges.map (·.start.line)) stop ranges where
  starts := rfl
  whole := h.whole
  consecutive := h.consecutive
  disjoint := h.disjoint
  covers := by
    intro n
    rw [h.covers_iff n]
    constructor
    · rintro ⟨hfirst, hstop⟩
      obtain ⟨r, hr, hcovers⟩ := (h.covers_iff n).mpr ⟨hfirst, hstop⟩
      exact ⟨⟨_, List.mem_map_of_mem hr, hcovers.1⟩, hstop⟩
    · rintro ⟨⟨start, hstart, hle⟩, hstop⟩
      obtain ⟨r, hr, rfl⟩ := List.mem_map.mp hstart
      exact ⟨Nat.le_trans (h.first_le_start r hr) hle, hstop⟩

end Tiles

/-! ## Where blocks stand -/

/-- Positions have room for all lines of the document. -/
structure Addressable (lines : List Text) : Prop where
  length_lt : lines.length < 2 ^ 32
  units_lt : ∀ line ∈ lines, line.units < 2 ^ 32

namespace Outline

variable {lines : List Text} {first stop : Nat} {ls : List Line} {b : Block}

theorem range_lines_eq (h : Addressable lines) {first last : Nat} {text : Text}
    (hle : first ≤ last) (htext : lines[last]? = some text) :
    Range.lines first last text = ⟨⟨first, 0⟩, ⟨last, text.units⟩⟩ := by
  have hlast : last < lines.length := (List.getElem?_eq_some_iff.mp htext).1
  have hlength := h.length_lt
  rw [Range.lines, Position.cut_of_lt (by omega) (by omega),
    Position.cut_of_lt (by omega) (h.units_lt text (List.mem_of_getElem? htext))]

theorem range_eq (h : Addressable lines) (hb : Stretch lines first stop b.lines) :
    ∃ text, lines[first + b.body.length]? = some text ∧
      range b = ⟨⟨first, 0⟩, ⟨first + b.body.length, text.units⟩⟩ := by
  have hheading : b.lines[0]? = some b.heading := rfl
  obtain ⟨-, hfirst⟩ := hb.getElem? hheading
  obtain ⟨htext, hlast⟩ := hb.getElem? b.getElem?_length_body
  refine ⟨b.last.text, htext, ?_⟩
  rw [range, hfirst, hlast]
  exact range_lines_eq h (Nat.le_add_right _ _) htext

theorem selection_eq (h : Addressable lines) (hb : Stretch lines first stop b.lines) :
    ∃ text, lines[first]? = some text ∧
      selection b = ⟨⟨first, 0⟩, ⟨first, text.units⟩⟩ := by
  have hheading : b.lines[0]? = some b.heading := rfl
  obtain ⟨htext, hfirst⟩ := hb.getElem? hheading
  refine ⟨b.heading.text, htext, ?_⟩
  rw [selection, hfirst]
  exact range_lines_eq h (Nat.le_refl _) htext

/-- Blocks that follow one another tile the lines they have. -/
theorem tiles_ranges (h : Addressable lines) {blocks : List Block}
    (hblocks : Stretch lines first stop (blocks.flatMap Block.lines)) :
    Tiles lines stop first (blocks.map range) := by
  induction blocks generalizing first with
  | nil =>
      obtain rfl : first = stop := hblocks.length
      exact .nil
  | cons b blocks ih =>
      rw [List.flatMap_cons] at hblocks
      obtain ⟨text, htext, hrange⟩ := range_eq h hblocks.left
      have hrest : Tiles lines stop (first + b.body.length + 1) (blocks.map range) :=
        ih hblocks.right
      rw [List.map_cons, hrange]
      exact .cons rfl ⟨rfl, Nat.le_add_right _ _, text, htext, rfl⟩ hrest

theorem tiles_ofKind (h : Addressable lines) (hls : Stretch lines first stop ls)
    (kind : Line.Kind) :
    Tiles lines stop (first + (ls.takeWhile (·.kind ≠ kind)).length)
      ((Block.ofKind kind ls).map range) := by
  apply tiles_ranges h
  rw [← List.takeWhile_append_dropWhile (p := (·.kind ≠ kind)) (l := ls)] at hls
  rw [Block.flatMap_lines_ofKind]
  exact hls.right

theorem starts_ofKind (h : Addressable lines) (hls : Stretch lines first stop ls)
    (kind : Line.Kind) : ((Block.ofKind kind ls).map range).map (·.start.line) =
      (ls.filter (·.kind = kind)).map (·.number - 1) := by
  rw [← Block.map_heading_ofKind, List.map_map, List.map_map]
  apply List.map_congr_left
  intro b hb
  obtain ⟨start, hblock⟩ := hls.exists_of_mem_ofKind hb
  obtain ⟨text, -, hrange⟩ := range_eq h hblock
  have hheading : b.lines[0]? = some b.heading := rfl
  simp only [Function.comp_apply, hrange, (hblock.getElem? hheading).2]
  rfl

/-- The blocks of a kind divide the stretch of lines that they are read from. -/
theorem divides_ofKind (h : Addressable lines) (hls : Stretch lines first stop ls)
    (kind : Line.Kind) :
    Divides lines ((headings kind lines).filter fun n => first ≤ n ∧ n < stop) stop
      ((Block.ofKind kind ls).map range) := by
  rw [filter_headings hls, ← starts_ofKind h hls]
  exact (tiles_ofKind h hls kind).divides

/-! ## The symbols of an outline -/

/-- The selection is the first line of the range, and lies in it. -/
structure Selects (lines : List Text) (selection range : Range) : Prop where
  whole : selection.Whole lines
  first : selection.start.line = range.start.line ∧ selection.stop.line = range.start.line
  within : selection.Within range

theorem whole_range (h : Addressable lines) (hb : Stretch lines first stop b.lines) :
    (range b).Whole lines := by
  obtain ⟨text, htext, hrange⟩ := range_eq h hb
  rw [hrange]
  exact ⟨rfl, Nat.le_add_right _ _, text, htext, rfl⟩

theorem selects (h : Addressable lines) (hb : Stretch lines first stop b.lines) :
    Selects lines (selection b) (range b) := by
  obtain ⟨text, htext, hselection⟩ := selection_eq h hb
  obtain ⟨last, -, hrange⟩ := range_eq h hb
  have hwhole : (selection b).Whole lines := by
    rw [hselection]
    exact ⟨rfl, Nat.le_refl _, text, htext, rfl⟩
  refine ⟨hwhole, ?_, hwhole.within (whole_range h hb) ?_ ?_⟩
  · simp [hselection, hrange]
  · simp [hselection, hrange]
  · simp [hselection, hrange]

section Release

variable (h : Addressable lines) (hb : b ∈ Block.ofKind .release (Line.ofTexts lines))
include h hb

theorem divides_groups : Divides lines
    ((headings .group lines).filter fun n => (range b).start.line < n ∧ n ≤ (range b).stop.line)
    ((range b).stop.line + 1) ((release b).groups.map (·.range)) := by
  obtain ⟨start, hblock⟩ := (Stretch.ofTexts lines).exists_of_mem_ofKind hb
  obtain ⟨text, -, hrange⟩ := range_eq h hblock
  have hranges : (release b).groups.map (·.range) = (Block.ofKind .group b.body).map range :=
    List.map_map
  have hdivides := divides_ofKind h hblock.body .group
  simp only [Nat.succ_le_iff, Nat.lt_succ_iff] at hdivides
  rw [hranges, hrange]
  exact hdivides

/-- There is no other release heading in the range of a release. -/
theorem le_start_or_stop_lt {n : Nat} (hn : n ∈ headings .release lines) :
    n ≤ (range b).start.line ∨ (range b).stop.line < n := by
  obtain ⟨start, hblock⟩ := (Stretch.ofTexts lines).exists_of_mem_ofKind hb
  obtain ⟨text, -, hrange⟩ := range_eq h hblock
  have hnone : b.body.filter (·.kind = .release) = [] := by
    simpa [List.filter_eq_nil_iff] using Block.kind_ne_of_mem_body hb
  have hfilter := filter_headings hblock.body .release
  rw [hnone, List.map_nil, List.filter_eq_nil_iff] at hfilter
  have hother := hfilter n hn
  simp only [decide_eq_true_eq] at hother
  simp only [hrange]
  omega

/-- The groups of a release are below its heading, in its range, and no other release heading is
between. -/
theorem groups_of_release {g : GroupSymbol} (hg : g ∈ (release b).groups) :
    ((range b).start.line < g.range.start.line ∧
      ∀ n ∈ headings .release lines, n < g.range.start.line → n ≤ (range b).start.line) ∧
      Selects lines g.selection g.range ∧ g.range.Within (range b) := by
  obtain ⟨start, hblock⟩ := (Stretch.ofTexts lines).exists_of_mem_ofKind hb
  have hdivides := divides_groups h hb
  have hmem : g.range ∈ (release b).groups.map (·.range) := List.mem_map_of_mem hg
  have hstart : g.range.start.line ∈ ((release b).groups.map (·.range)).map (·.start.line) :=
    List.mem_map_of_mem hmem
  rw [hdivides.starts, List.mem_filter, decide_eq_true_eq] at hstart
  obtain ⟨-, hlt, hle⟩ := hstart
  refine ⟨⟨hlt, ?_⟩, ?_, ?_⟩
  · intro n hn hbefore
    rcases le_start_or_stop_lt h hb hn with hn | hn
    · exact hn
    · omega
  · obtain ⟨c, hc, rfl⟩ := List.mem_map.mp hg
    obtain ⟨place, hgroup⟩ := hblock.body.exists_of_mem_ofKind hc
    exact selects h hgroup
  · have hwhole := hdivides.whole _ hmem
    obtain ⟨-, hstop⟩ := (hdivides.covers g.range.stop.line).mp
      ⟨_, hmem, hwhole.ordered, Nat.le_refl _⟩
    exact hwhole.within (whole_range h hblock) (Nat.le_of_lt hlt) (Nat.le_of_lt_succ hstop)

end Release

theorem map_range_ofLines (ls : List Line) :
    (ofLines ls).map (·.range) = (Block.ofKind .release ls).map range :=
  List.map_map

theorem divides_releases (h : Addressable lines) :
    Divides lines (headings .release lines) lines.length
      ((ofLines (Line.ofTexts lines)).map (·.range)) := by
  have hall : ∀ n ∈ headings .release lines, decide (0 ≤ n ∧ n < lines.length) = true := by
    intro n hn
    exact decide_eq_true ⟨Nat.zero_le n, lt_of_mem_headings hn⟩
  have hdivides := divides_ofKind h (Stretch.ofTexts lines) .release
  rw [List.filter_eq_self.mpr hall] at hdivides
  rw [map_range_ofLines]
  exact hdivides

/-- The first release heading is the first line that a block has. -/
theorem exists_release_lt_iff (h : Addressable lines) {n : Nat} (hn : n ∈ headings .group lines) :
    (∃ m ∈ headings .release lines, m < n) ↔
      0 + ((Line.ofTexts lines).takeWhile (·.kind ≠ .release)).length ≤ n ∧ n < lines.length := by
  have htiles := tiles_ofKind h (Stretch.ofTexts lines) .release
  have hcovers := (divides_releases h).covers n
  rw [map_range_ofLines, htiles.covers_iff n] at hcovers
  rw [hcovers]
  constructor
  · rintro ⟨m, hm, hlt⟩
    exact ⟨⟨m, hm, Nat.le_of_lt hlt⟩, lt_of_mem_headings hn⟩
  · rintro ⟨⟨m, hm, hle⟩, -⟩
    refine ⟨m, hm, Nat.lt_of_le_of_ne hle ?_⟩
    rintro rfl
    obtain ⟨text, htext, hgroup⟩ := exists_of_mem_headings hn
    obtain ⟨other, hother, hrelease⟩ := exists_of_mem_headings hm
    obtain rfl : text = other := Option.some.inj (htext.symm.trans hother)
    simp [hgroup] at hrelease

/-- Each group below the first release is in the outline once, and no group above it. -/
theorem flatMap_groups (h : Addressable lines) :
    (ofLines (Line.ofTexts lines)).flatMap (fun r => r.groups.map (·.range.start.line)) =
      (headings .group lines).filter fun n => ∃ m ∈ headings .release lines, m < n := by
  have hrelease : ∀ b ∈ Block.ofKind .release (Line.ofTexts lines),
      (release b).groups.map (·.range.start.line) =
        (b.body.filter (·.kind = .group)).map (·.number - 1) := by
    intro b hb
    obtain ⟨start, hblock⟩ := (Stretch.ofTexts lines).exists_of_mem_ofKind hb
    rw [← starts_ofKind h hblock.body, List.map_map]
    exact List.map_map
  have hbelow : Stretch lines
      (0 + ((Line.ofTexts lines).takeWhile (·.kind ≠ .release)).length) lines.length
      ((Line.ofTexts lines).dropWhile (·.kind ≠ .release)) := by
    apply Stretch.right
    rw [List.takeWhile_append_dropWhile]
    exact .ofTexts lines
  calc
    _ = (Block.ofKind .release (Line.ofTexts lines)).flatMap
          fun b => (b.body.filter (·.kind = .group)).map (·.number - 1) := by
      rw [ofLines, List.flatMap_map]
      exact List.flatMap_congr hrelease
    _ = (((Line.ofTexts lines).dropWhile (·.kind ≠ .release)).filter (·.kind = .group)).map
          (·.number - 1) := by
      rw [← List.map_flatMap, Block.flatMap_filter_body (by decide)]
    _ = _ := by
      rw [← filter_headings hbelow]
      apply List.filter_congr
      intro n hn
      exact decide_eq_decide.mpr (exists_release_lt_iff h hn).symm

/-- The outline has a symbol for each heading that a release governs, at its place. -/
structure Complete (lines : List Text) (outline : List ReleaseSymbol) : Prop where
  releases : Divides lines (headings .release lines) lines.length (outline.map (·.range))
  groups : ∀ r ∈ outline, Divides lines
    ((headings .group lines).filter fun n => r.range.start.line < n ∧ n ≤ r.range.stop.line)
    (r.range.stop.line + 1) (r.groups.map (·.range))
  allGroups : outline.flatMap (fun r => r.groups.map (·.range.start.line)) =
    (headings .group lines).filter fun n => ∃ m ∈ headings .release lines, m < n
  /-- The release of a group is the nearest one above it. -/
  nearest : ∀ r ∈ outline, ∀ g ∈ r.groups, r.range.start.line < g.range.start.line ∧
    ∀ n ∈ headings .release lines, n < g.range.start.line → n ≤ r.range.start.line
  selected : ∀ r ∈ outline, Selects lines r.selection r.range ∧
    ∀ g ∈ r.groups, Selects lines g.selection g.range
  within : ∀ r ∈ outline, ∀ g ∈ r.groups, g.range.Within r.range

/-- The outline of a document loses, repeats and misplaces no heading. -/
theorem complete_ofText {text : Text} (h : Addressable text.lines) :
    Complete text.lines (ofText text) where
  releases := divides_releases h
  groups := by
    intro r hr
    obtain ⟨b, hb, rfl⟩ := List.mem_map.mp hr
    exact divides_groups h hb
  allGroups := flatMap_groups h
  nearest := by
    intro r hr g hg
    obtain ⟨b, hb, rfl⟩ := List.mem_map.mp hr
    exact (groups_of_release h hb hg).1
  selected := by
    intro r hr
    obtain ⟨b, hb, rfl⟩ := List.mem_map.mp hr
    obtain ⟨start, hblock⟩ := (Stretch.ofTexts text.lines).exists_of_mem_ofKind hb
    exact ⟨selects h hblock, fun g hg => (groups_of_release h hb hg).2.1⟩
  within := by
    intro r hr g hg
    obtain ⟨b, hb, rfl⟩ := List.mem_map.mp hr
    exact (groups_of_release h hb hg).2.2

/-- A group above the first release, a release without groups, and a group on the last line. -/
def crammed : Text :=
  "# Changes\n### Stray\n## [Unreleased]\n## [1.0.0] - 2017-06-20\n🎉\n### Added\n\n### 🎉".toList

theorem crammed_complete :
    Addressable crammed.lines ∧
    (ofText crammed).map (fun r => (r.range, r.groups.map (·.range))) =
      [(⟨⟨2, 0⟩, ⟨2, 15⟩⟩, []),
        (⟨⟨3, 0⟩, ⟨7, 6⟩⟩, [⟨⟨5, 0⟩, ⟨6, 0⟩⟩, ⟨⟨7, 0⟩, ⟨7, 6⟩⟩])] ∧
    Complete crammed.lines (ofText crammed) := by
  have h : Addressable crammed.lines := ⟨by decide, by decide⟩
  exact ⟨h, by decide +kernel, complete_ofText h⟩

end Outline

end ReleaseLog.Editor
