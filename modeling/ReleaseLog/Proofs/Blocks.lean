import ReleaseLog.Editor.Outline
import ReleaseLog.Proofs.Numbering
import Mathlib.Data.List.Basic
import Mathlib.Data.List.Induction

/-!
# Blocks

The blocks of a kind divide the lines from its first heading on. Each heading of the kind heads one
block, and no other line of a block is such a heading.
-/

namespace ReleaseLog

/-- The lines from the place `first` up to before the place `stop`. Places count from zero. -/
structure Stretch (texts : List Text) (first stop : Nat) (ls : List Line) : Prop where
  stands : ∃ front back, Line.ofTexts texts = front ++ ls ++ back ∧ front.length = first
  length : first + ls.length = stop

namespace Stretch

variable {texts : List Text} {first stop : Nat} {xs ys ls : List Line}

theorem ofTexts (texts : List Text) : Stretch texts 0 texts.length (Line.ofTexts texts) where
  stands := ⟨[], [], by simp, rfl⟩
  length := by simp [Line.ofTexts]

theorem left (h : Stretch texts first stop (xs ++ ys)) :
    Stretch texts first (first + xs.length) xs := by
  obtain ⟨front, back, hlines, hfront⟩ := h.stands
  exact ⟨⟨front, ys ++ back, by simp [hlines], hfront⟩, rfl⟩

theorem right (h : Stretch texts first stop (xs ++ ys)) :
    Stretch texts (first + xs.length) stop ys := by
  obtain ⟨front, back, hlines, hfront⟩ := h.stands
  have hstop := h.length
  rw [List.length_append] at hstop
  exact ⟨⟨front ++ xs, back, by simp [hlines], by simp [hfront]⟩, by omega⟩

theorem getElem? (h : Stretch texts first stop ls) {i : Nat} {line : Line}
    (hi : ls[i]? = some line) :
    texts[first + i]? = some line.text ∧ line.number = first + i + 1 := by
  obtain ⟨front, back, hlines, rfl⟩ := h.stands
  have hlt : i < ls.length := (List.getElem?_eq_some_iff.mp hi).1
  apply Line.eq_ofText_of_getElem?
  rw [hlines, List.append_assoc, List.getElem?_append_right (Nat.le_add_right _ _),
    Nat.add_sub_cancel_left, List.getElem?_append_left hlt, hi]

theorem number_of_mem (h : Stretch texts first stop ls) {line : Line} (hline : line ∈ ls) :
    first < line.number ∧ line.number ≤ stop := by
  obtain ⟨i, hi⟩ := List.mem_iff_getElem?.mp hline
  have hlt : i < ls.length := (List.getElem?_eq_some_iff.mp hi).1
  have hnumber := (h.getElem? hi).2
  have hstop := h.length
  omega

end Stretch

namespace Block

def lines (b : Block) : List Line :=
  b.heading :: b.body

theorem flatMap_lines_ofKind (kind : Line.Kind) (ls : List Line) :
    (ofKind kind ls).flatMap lines = ls.dropWhile (·.kind ≠ kind) := by
  induction ls with
  | nil => rfl
  | cons line rest ih =>
      by_cases h : line.kind = kind
      · simp only [ofKind, h, if_true, List.flatMap_cons, ih, lines, List.cons_append]
        rw [List.takeWhile_append_dropWhile, List.dropWhile_cons_of_neg (by simp [h])]
      · rw [ofKind, if_neg h, ih, List.dropWhile_cons_of_pos (by simp [h])]

theorem map_heading_ofKind (kind : Line.Kind) (ls : List Line) :
    (ofKind kind ls).map (·.heading) = ls.filter (·.kind = kind) := by
  induction ls with
  | nil => rfl
  | cons line rest ih => by_cases h : line.kind = kind <;> simp [ofKind, h, ih]

theorem kind_ne_of_mem_body {kind : Line.Kind} {ls : List Line} {b : Block}
    (hb : b ∈ ofKind kind ls) : ∀ line ∈ b.body, line.kind ≠ kind := by
  induction ls with
  | nil => simp [ofKind] at hb
  | cons line rest ih =>
      by_cases h : line.kind = kind
      · simp only [ofKind, h, if_true, List.mem_cons] at hb
        rcases hb with rfl | hb
        · intro l hl
          simpa using List.all_eq_true.mp List.all_takeWhile l hl
        · exact ih hb
      · rw [ofKind, if_neg h] at hb
        exact ih hb

theorem kind_heading_of_mem {kind : Line.Kind} {ls : List Line} {b : Block}
    (hb : b ∈ ofKind kind ls) : b.heading.kind = kind := by
  have hheading : b.heading ∈ ls.filter (·.kind = kind) := by
    rw [← map_heading_ofKind]
    exact List.mem_map_of_mem hb
  simpa using (List.mem_filter.mp hheading).2

/-- The lines of another kind below the first heading are in the bodies of the blocks. -/
theorem flatMap_filter_body {kind inner : Line.Kind} (h : kind ≠ inner) (ls : List Line) :
    (ofKind kind ls).flatMap (fun b => b.body.filter (·.kind = inner)) =
      (ls.dropWhile (·.kind ≠ kind)).filter (·.kind = inner) := by
  rw [← flatMap_lines_ofKind, List.filter_flatMap]
  apply List.flatMap_congr
  intro b hb
  rw [lines, List.filter_cons_of_neg (by simp [kind_heading_of_mem hb, h])]

theorem getElem?_length_body (b : Block) : b.lines[b.body.length]? = some b.last := by
  have h : b.lines.getLast? = some b.last := by
    rw [lines, List.getLast?_cons, last, List.getLastD_eq_getLast?]
  rwa [List.getLast?_eq_getElem?] at h

end Block

namespace Stretch

variable {texts : List Text} {first stop : Nat} {ls : List Line} {b : Block}

theorem exists_of_mem_ofKind (h : Stretch texts first stop ls) {kind : Line.Kind}
    (hb : b ∈ Block.ofKind kind ls) :
    ∃ start, Stretch texts start (start + b.body.length + 1) b.lines := by
  obtain ⟨before, after, hblocks⟩ := List.append_of_mem hb
  have hlines : ls.takeWhile (·.kind ≠ kind) ++
      (before.flatMap Block.lines ++ (b.lines ++ after.flatMap Block.lines)) = ls := by
    rw [← List.flatMap_cons, ← List.flatMap_append, ← hblocks, Block.flatMap_lines_ofKind,
      List.takeWhile_append_dropWhile]
  rw [← hlines] at h
  exact ⟨_, h.right.right.left⟩

theorem body (h : Stretch texts first stop b.lines) : Stretch texts (first + 1) stop b.body := by
  have hsplit : Stretch texts first stop ([b.heading] ++ b.body) := h
  exact hsplit.right

end Stretch

/-! ## The places of headings -/

/-- The places of the lines of a kind, counted from zero. -/
def headings (kind : Line.Kind) (lines : List Text) : List Nat :=
  (List.range lines.length).filter fun i => lines[i]?.map Line.Kind.ofText = some kind

theorem exists_of_mem_headings {kind : Line.Kind} {lines : List Text} {n : Nat}
    (h : n ∈ headings kind lines) :
    ∃ text, lines[n]? = some text ∧ Line.Kind.ofText text = kind := by
  simpa [headings] using (List.mem_filter.mp h).2

theorem lt_of_mem_headings {kind : Line.Kind} {lines : List Text} {n : Nat}
    (h : n ∈ headings kind lines) : n < lines.length :=
  List.mem_range.mp (List.mem_filter.mp h).1

theorem headings_eq (kind : Line.Kind) (lines : List Text) :
    headings kind lines = ((Line.ofTexts lines).filter (·.kind = kind)).map (·.number - 1) := by
  induction lines using List.reverseRecOn with
  | nil => rfl
  | append_singleton lines text ih =>
      have hold : ∀ i ∈ List.range lines.length,
          decide ((lines ++ [text])[i]?.map Line.Kind.ofText = some kind) =
            decide (lines[i]?.map Line.Kind.ofText = some kind) := by
        intro i hi
        rw [List.getElem?_append_left (List.mem_range.mp hi)]
      rw [headings, List.length_append, List.length_singleton, List.range_succ,
        List.filter_append, List.filter_congr hold, ← headings, ih, Line.ofTexts_append,
        List.filter_append, List.map_append]
      congr 1
      by_cases h : Line.Kind.ofText text = kind <;> simp [h]

/-- The headings of a kind in a stretch of lines. -/
theorem filter_headings {lines : List Text} {first stop : Nat} {ls : List Line}
    (hls : Stretch lines first stop ls) (kind : Line.Kind) :
    (headings kind lines).filter (fun n => first ≤ n ∧ n < stop) =
      (ls.filter (·.kind = kind)).map (·.number - 1) := by
  obtain ⟨front, back, hlines, hfront⟩ := hls.stands
  have hall := Stretch.ofTexts lines
  rw [hlines] at hall
  have hbefore : ((front.filter (·.kind = kind)).map (·.number - 1)).filter
      (fun n => first ≤ n ∧ n < stop) = [] := by
    simp only [List.filter_eq_nil_iff, List.forall_mem_map, decide_eq_true_eq]
    intro line hline
    have := hall.left.left.number_of_mem (List.mem_filter.mp hline).1
    omega
  have hafter : ((back.filter (·.kind = kind)).map (·.number - 1)).filter
      (fun n => first ≤ n ∧ n < stop) = [] := by
    simp only [List.filter_eq_nil_iff, List.forall_mem_map, decide_eq_true_eq]
    intro line hline
    have := hall.right.number_of_mem (List.mem_filter.mp hline).1
    have := hls.length
    simp only [List.length_append] at *
    omega
  have hinside : ((ls.filter (·.kind = kind)).map (·.number - 1)).filter
      (fun n => first ≤ n ∧ n < stop) = (ls.filter (·.kind = kind)).map (·.number - 1) := by
    simp only [List.filter_eq_self, List.forall_mem_map, decide_eq_true_eq]
    intro line hline
    have := hls.number_of_mem (List.mem_filter.mp hline).1
    omega
  rw [headings_eq, hlines]
  simp only [List.filter_append, List.map_append, hbefore, hafter, hinside, List.nil_append,
    List.append_nil]

end ReleaseLog
