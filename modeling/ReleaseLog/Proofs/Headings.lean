import ReleaseLog.Proofs.Failure
import ReleaseLog.Proofs.Kinds
import ReleaseLog.ReleaseHeading
import Mathlib.Data.List.TakeWhile

/-!
# The grammar of dated headings

A line is read as a dated heading exactly if it is written as one, with any ASCII white space
between the parts. It is written in one way only, so that no other way of reading it finds another
version or another date.
-/

namespace ReleaseLog

/-! ## White space between parts -/

namespace Text

/-- The text is a non-empty run of ASCII white space. -/
def IsGap (s : Text) : Prop :=
  s ≠ [] ∧ ∀ c ∈ s, isAsciiSpace c = true

instance (s : Text) : Decidable (IsGap s) :=
  inferInstanceAs (Decidable (_ ∧ _))

theorem IsGap.reverse {gap : Text} (h : gap.IsGap) : IsGap (List.reverse gap) :=
  ⟨by simpa using h.1, by simpa using h.2⟩

/-- A run of white space ends where something else stands. -/
theorem afterSpaces?_gap {gap : Text} (h : gap.IsGap) {c : Char} (hc : isAsciiSpace c = false)
    (rest : Text) : afterSpaces? (gap ++ c :: rest) = some (c :: rest) := by
  obtain ⟨d, gap, rfl⟩ := List.exists_cons_of_ne_nil h.1
  obtain ⟨hd, hgap⟩ := List.forall_mem_cons.mp h.2
  rw [List.cons_append, afterSpaces?, if_pos hd, List.dropWhile_append_of_pos hgap,
    List.dropWhile_cons_of_neg (by simp [hc])]

theorem exists_gap_of_afterSpaces? {s rest : Text} (h : s.afterSpaces? = some rest) :
    ∃ gap : Text, gap.IsGap ∧ s = gap ++ rest := by
  cases s with
  | nil => cases h
  | cons c s =>
      by_cases hc : isAsciiSpace c = true
      · rw [afterSpaces?, if_pos hc, Option.some.injEq] at h
        subst h
        refine ⟨c :: s.takeWhile isAsciiSpace, ⟨List.cons_ne_nil _ _, ?_⟩, ?_⟩
        · exact List.forall_mem_cons.mpr ⟨hc, fun d hd => List.mem_takeWhile_imp hd⟩
        · rw [List.cons_append, List.takeWhile_append_dropWhile]
      · rw [afterSpaces?, if_neg hc] at h
        cases h

/-- Two runs of white space in front of something else are the same run. -/
theorem eq_of_gap_append {gap gap' rest rest' : Text} {c d : Char} (h : gap.IsGap)
    (h' : gap'.IsGap) (hc : isAsciiSpace c = false) (hd : isAsciiSpace d = false)
    (heq : gap ++ c :: rest = gap' ++ d :: rest') : gap = gap' ∧ c :: rest = d :: rest' := by
  have hrest : c :: rest = d :: rest' := by
    have hafter := afterSpaces?_gap h hc rest
    rw [heq, afterSpaces?_gap h' hd rest', Option.some.injEq] at hafter
    exact hafter.symm
  rw [hrest] at heq
  exact ⟨List.append_cancel_right heq, hrest⟩

end Text

namespace ReleaseHeading

open Text (IsGap afterSpaces?_gap exists_gap_of_afterSpaces? after?_eq_some_iff)

/-! ## Dates -/

def IsNumeral (length : Nat) (s : Text) : Prop :=
  s.length = length ∧ ∀ c ∈ s, c.isDigit = true

/-- A year of four digits, a month and a day of two, with dashes between them. -/
def IsDate (s : Text) : Prop :=
  ∃ year month day : Text, s = year ++ '-' :: month ++ '-' :: day ∧
    IsNumeral 4 year ∧ IsNumeral 2 month ∧ IsNumeral 2 day

theorem isDate_iff {s : Text} : isDate s = true ↔ IsDate s := by
  constructor
  · intro h
    unfold isDate at h
    split at h
    · rename_i y₁ y₂ y₃ y₄ s₁ m₁ m₂ s₂ d₁ d₂
      simp only [List.all_cons, List.all_nil, Bool.and_true, Bool.and_eq_true, beq_iff_eq] at h
      obtain ⟨⟨⟨hy₁, hy₂, hy₃, hy₄, hm₁, hm₂, hd₁, hd₂⟩, rfl⟩, rfl⟩ := h
      exact ⟨[y₁, y₂, y₃, y₄], [m₁, m₂], [d₁, d₂], rfl, ⟨rfl, by simp [*]⟩, ⟨rfl, by simp [*]⟩,
        ⟨rfl, by simp [*]⟩⟩
    · cases h
  · rintro ⟨year, month, day, rfl, ⟨hyear, hyears⟩, ⟨hmonth, hmonths⟩, ⟨hday, hdays⟩⟩
    match year, hyear with
    | [y₁, y₂, y₃, y₄], _ =>
      match month, hmonth with
      | [m₁, m₂], _ =>
        match day, hday with
        | [d₁, d₂], _ => simp_all [isDate]

theorem IsDate.length_eq {s : Text} (h : IsDate s) : s.length = 10 := by
  obtain ⟨year, month, day, rfl, ⟨hyear, -⟩, ⟨hmonth, -⟩, ⟨hday, -⟩⟩ := h
  simp [hyear, hmonth, hday]

/-! ## Written headings -/

/-- A dated heading and the white space in it: after the hashes, before the dash and after it. -/
@[ext] structure Written where
  heading : ReleaseHeading
  opening : Text
  before : Text
  after : Text
deriving DecidableEq, Repr

namespace Written

def text (w : Written) : Text :=
  '#' :: '#' :: w.opening ++ '[' :: w.heading.version ++ ']' :: w.before ++ '-' :: w.after ++
    w.heading.date

/-- The version has no line feed, and the other parts are in their forms. -/
structure WellFormed (w : Written) : Prop where
  opening : w.opening.IsGap
  version : '\n' ∉ w.heading.version
  before : w.before.IsGap
  after : w.after.IsGap
  date : IsDate w.heading.date

/-- What follows the opening bracket, from its end. -/
def back (w : Written) : Text :=
  w.heading.date.reverse ++ (w.after.reverse ++ '-' :: (w.before.reverse ++
    ']' :: w.heading.version.reverse))

theorem text_eq (w : Written) : w.text = '#' :: '#' :: (w.opening ++ '[' :: w.back.reverse) := by
  simp [text, back]

end Written

/-! ## Reading what is written -/

theorem afterOpening?_eq_some_iff {line rest : Text} :
    afterOpening? line = some rest ↔
      ∃ gap : Text, gap.IsGap ∧ line = '#' :: '#' :: (gap ++ '[' :: rest) := by
  constructor
  · intro h
    obtain ⟨afterHashes, hhashes, h⟩ := Option.bind_eq_some_iff.mp h
    obtain ⟨afterGap, hgap, hbracket⟩ := Option.bind_eq_some_iff.mp h
    obtain ⟨gap, hspaces, rfl⟩ := exists_gap_of_afterSpaces? hgap
    obtain rfl := after?_eq_some_iff.mp hbracket
    exact ⟨gap, hspaces, after?_eq_some_iff.mp hhashes⟩
  · rintro ⟨gap, hgap, rfl⟩
    refine Option.bind_eq_some_iff.mpr ⟨_, after?_eq_some_iff.mpr rfl, ?_⟩
    refine Option.bind_eq_some_iff.mpr ⟨_, afterSpaces?_gap hgap rfl rest, ?_⟩
    exact after?_eq_some_iff.mpr rfl

theorem ofReversed?_back {w : Written} (h : w.WellFormed) :
    ofReversed? w.back = some w.heading := by
  have hlength : w.heading.date.reverse.length = 10 := by
    rw [List.length_reverse, h.date.length_eq]
  have hdate : ((w.back.take 10).reverse) = w.heading.date := by
    rw [Written.back, List.take_left' hlength, List.reverse_reverse]
  have hdrop : w.back.drop 10 = _ := List.drop_left' hlength
  simp only [ofReversed?, hdate, hdrop]
  refine guard_bind_eq_some_iff.mpr ⟨isDate_iff.mpr h.date, ?_⟩
  refine Option.bind_eq_some_iff.mpr ⟨_, afterSpaces?_gap h.after.reverse rfl _, ?_⟩
  refine Option.bind_eq_some_iff.mpr ⟨_, after?_eq_some_iff.mpr rfl, ?_⟩
  refine Option.bind_eq_some_iff.mpr ⟨_, afterSpaces?_gap h.before.reverse rfl _, ?_⟩
  refine Option.bind_eq_some_iff.mpr ⟨_, after?_eq_some_iff.mpr rfl, ?_⟩
  refine guard_bind_eq_some_iff.mpr ⟨by simpa using h.version, ?_⟩
  simp

theorem exists_written_of_ofReversed? {back : Text} {heading : ReleaseHeading}
    (h : ofReversed? back = some heading) {opening : Text} (hopening : opening.IsGap) :
    ∃ w : Written, w.WellFormed ∧ w.back = back ∧ w.heading = heading ∧ w.opening = opening := by
  obtain ⟨hdate, h⟩ := guard_bind_eq_some_iff.mp h
  obtain ⟨_, hspaces, h⟩ := Option.bind_eq_some_iff.mp h
  obtain ⟨_, hdash, h⟩ := Option.bind_eq_some_iff.mp h
  obtain ⟨_, hspaces', h⟩ := Option.bind_eq_some_iff.mp h
  obtain ⟨version, hbracket, h⟩ := Option.bind_eq_some_iff.mp h
  obtain ⟨hversion, h⟩ := guard_bind_eq_some_iff.mp h
  obtain rfl := Option.some.inj h
  obtain ⟨after, hafter, hback⟩ := exists_gap_of_afterSpaces? hspaces
  obtain rfl := after?_eq_some_iff.mp hdash
  obtain ⟨before, hbefore, rfl⟩ := exists_gap_of_afterSpaces? hspaces'
  obtain rfl := after?_eq_some_iff.mp hbracket
  refine ⟨⟨⟨version.reverse, (back.take 10).reverse⟩, opening, before.reverse, after.reverse⟩,
    ⟨hopening, by simpa using hversion, hbefore.reverse, hafter.reverse, isDate_iff.mp hdate⟩,
    ?_, rfl, rfl⟩
  calc _ = back.take 10 ++ back.drop 10 := by simp [Written.back, hback]
    _ = back := List.take_append_drop 10 back

/-- A line is read as a heading exactly if it is a written form of it. -/
theorem parse?_eq_some_iff {line : Text} {heading : ReleaseHeading} :
    parse? line = some heading ↔
      ∃ w : Written, w.WellFormed ∧ w.text = line ∧ w.heading = heading := by
  constructor
  · intro h
    obtain ⟨rest, hopening, hrest⟩ := Option.bind_eq_some_iff.mp h
    obtain ⟨gap, hgap, rfl⟩ := afterOpening?_eq_some_iff.mp hopening
    obtain ⟨w, hw, hback, hheading, rfl⟩ := exists_written_of_ofReversed? hrest hgap
    exact ⟨w, hw, by rw [Written.text_eq, hback, List.reverse_reverse], hheading⟩
  · rintro ⟨w, hw, rfl, rfl⟩
    have hopening : afterOpening? w.text = some w.back.reverse :=
      afterOpening?_eq_some_iff.mpr ⟨w.opening, hw.opening, w.text_eq⟩
    refine Option.bind_eq_some_iff.mpr ⟨_, hopening, ?_⟩
    rw [List.reverse_reverse, ofReversed?_back hw]

/-! ## One way of writing -/

/-- No line has two written forms. -/
theorem Written.eq_of_text_eq {w w' : Written} (h : w.WellFormed) (h' : w'.WellFormed)
    (heq : w.text = w'.text) : w = w' := by
  rw [text_eq, text_eq, List.cons_inj_right, List.cons_inj_right] at heq
  obtain ⟨hopening, hback⟩ := Text.eq_of_gap_append h.opening h'.opening rfl rfl heq
  have hback : w.back = w'.back := by simpa using hback
  have hheading : w.heading = w'.heading := by
    have hread := ofReversed?_back h
    rw [hback, ofReversed?_back h', Option.some.injEq] at hread
    exact hread.symm
  rw [back, back, hheading, List.append_cancel_left_eq] at hback
  obtain ⟨hafter, hback⟩ := Text.eq_of_gap_append h.after.reverse h'.after.reverse rfl rfl hback
  obtain ⟨hbefore, -⟩ := Text.eq_of_gap_append h.before.reverse h'.before.reverse rfl rfl
    (List.cons.inj hback).2
  exact Written.ext hheading hopening (List.reverse_inj.mp hbefore) (List.reverse_inj.mp hafter)

/-! ## The kind of a dated heading -/

/-- White space follows the hashes. -/
theorem Written.exists_space {w : Written} (h : w.WellFormed) :
    ∃ c rest, w.text = '#' :: '#' :: c :: rest ∧ Text.isAsciiSpace c = true := by
  obtain ⟨c, gap, hgap⟩ := List.exists_cons_of_ne_nil h.opening.1
  refine ⟨c, gap ++ '[' :: w.back.reverse, ?_, h.opening.2 c (hgap ▸ List.mem_cons_self)⟩
  rw [text_eq, hgap, List.cons_append]

theorem kind_text {w : Written} (h : w.WellFormed) :
    Line.Kind.ofText w.text = if w.text[2]? = some ' ' then .release else .other := by
  obtain ⟨c, rest, htext, hc⟩ := Written.exists_space h
  have hhash : c ≠ '#' := by
    rintro rfl
    cases hc
  rw [htext]
  by_cases hblank : c = ' '
  · subst hblank
    exact Line.kind_eq_release_iff.mpr (Text.startsWith_iff.mpr ⟨rest, rfl⟩)
  · rw [Line.kind_of_hash rfl]
    simp [hblank, hhash, Text.startsWith, Text.after?]

/-- The parser reads exactly the written headings, each of them back, and none in two ways. A plain
blank after the hashes makes the line head a release, and other white space leaves it as it is. -/
theorem parse?_exact :
    (∀ s heading, parse? s = some heading ↔
      ∃ w : Written, w.WellFormed ∧ w.text = s ∧ w.heading = heading) ∧
    (∀ w : Written, w.WellFormed → parse? w.text = some w.heading) ∧
    (∀ w w' : Written, w.WellFormed → w'.WellFormed → w.text = w'.text → w = w') ∧
    ∀ s heading, parse? s = some heading →
      Line.Kind.ofText s = if s[2]? = some ' ' then .release else .other := by
  refine ⟨fun s heading => parse?_eq_some_iff, ?_, ?_, ?_⟩
  · intro w hw
    exact parse?_eq_some_iff.mpr ⟨w, hw, rfl, rfl⟩
  · intro w w' hw hw' heq
    exact Written.eq_of_text_eq hw hw' heq
  · intro s heading h
    obtain ⟨w, hw, rfl, -⟩ := parse?_eq_some_iff.mp h
    exact kind_text hw

-- A version may end like a heading does.
example : parse? "##\t[1.0] - 2020-01-01] - 2021-02-03".toList =
    some ⟨"1.0] - 2020-01-01".toList, "2021-02-03".toList⟩ := by
  decide

end ReleaseHeading

end ReleaseLog
