import ReleaseLog.Line

/-!
# Kinds of lines

What the kind of a line says about its text. A line with a hash in front is no merge marker, no
blank and no entry.
-/

namespace ReleaseLog.Line

theorem startsWith_of_isTagged {lead s : Text} (h : isTagged lead s = true) :
    s.startsWith lead = true := by
  unfold isTagged at h
  unfold Text.startsWith
  cases hs : s.after? lead with
  | none => simp [hs] at h
  | some rest => rfl

theorem head?_of_startsWith {c : Char} {lead s : Text} (h : s.startsWith (c :: lead) = true) :
    s.head? = some c := by
  obtain ⟨rest, rfl⟩ := Text.startsWith_iff.mp h
  rfl

theorem head?_of_isMarker {s : Text} (h : isMarker s = true) :
    s.head? = some '<' ∨ s.head? = some '=' ∨ s.head? = some '>' := by
  simp only [isMarker, Bool.or_eq_true, beq_iff_eq] at h
  rcases h with (h | h) | h
  · exact .inl (head?_of_startsWith (startsWith_of_isTagged h))
  · exact .inr (.inl (by rw [h]; rfl))
  · exact .inr (.inr (head?_of_startsWith (startsWith_of_isTagged h)))

theorem isMarker_of_head? {c : Char} {s : Text} (h : s.head? = some c)
    (hc : c ≠ '<' ∧ c ≠ '=' ∧ c ≠ '>') : isMarker s = false := by
  apply Bool.eq_false_iff.mpr
  intro hm
  have hhead := head?_of_isMarker hm
  simp only [h, Option.some.injEq] at hhead
  rcases hhead with rfl | rfl | rfl <;> simp at hc

theorem isBlank_of_head? {c : Char} {s : Text} (h : s.head? = some c) (hc : ¬ c ≤ ' ') :
    s.isBlank = false := by
  cases s with
  | nil => simp at h
  | cons d s =>
      obtain rfl : d = c := by simpa using h
      simp [hc]

/-- A line with a hash in front is a heading or something else. -/
theorem kind_of_hash {s : Text} (h : s.head? = some '#') :
    Kind.ofText s =
      if s.startsWith "## ".toList then .release
      else if s.startsWith "### ".toList then .group
      else .other := by
  have hm : isMarker s = false := isMarker_of_head? h (by decide)
  have hb : s.isBlank = false := isBlank_of_head? h (by decide)
  simp [Kind.ofText, hm, hb, h]

/-- What the text of a line of each kind is like. -/
def Kind.Fits (s : Text) : Kind → Prop
  | .marker => isMarker s = true
  | .release => s.startsWith "## ".toList = true
  | .group => s.startsWith "### ".toList = true
  | .blank => s.isBlank = true
  | .entry => s.head? ≠ some '#' ∧ s.head? ≠ some '['
  | .other => s.head? = some '#' ∨ s.head? = some '['

theorem fits_kind (s : Text) : Kind.Fits s (Kind.ofText s) := by
  unfold Kind.ofText
  split
  · assumption
  split
  · assumption
  split
  · assumption
  split
  · assumption
  split
  · assumption
  · rename_i h
    by_cases hs : s.head? = some '#'
    · exact .inl hs
    · by_cases hb : s.head? = some '['
      · exact .inr hb
      · exact (h ⟨hs, hb⟩).elim

theorem fits_of_kind {s : Text} {kind : Kind} (h : Kind.ofText s = kind) : kind.Fits s :=
  h ▸ fits_kind s

theorem kind_eq_release_iff {s : Text} :
    Kind.ofText s = .release ↔ s.startsWith "## ".toList = true := by
  refine ⟨fits_of_kind, ?_⟩
  intro h
  rw [kind_of_hash (head?_of_startsWith h), if_pos h]

theorem kind_eq_group_iff {s : Text} :
    Kind.ofText s = .group ↔ s.startsWith "### ".toList = true := by
  refine ⟨fits_of_kind, ?_⟩
  intro h
  have hrelease : ¬ s.startsWith "## ".toList = true := by
    obtain ⟨rest, rfl⟩ := Text.startsWith_iff.mp h
    simp [Text.startsWith, Text.after?]
  rw [kind_of_hash (head?_of_startsWith h), if_neg hrelease, if_pos h]

/-- The kind of a line is blank exactly when its text is. -/
theorem kind_eq_blank_iff {s : Text} : Kind.ofText s = .blank ↔ s.isBlank = true := by
  refine ⟨fits_of_kind, ?_⟩
  intro h
  have hhead : ∀ c, s.head? = some c → c ≤ ' ' := by
    intro c hc
    by_cases hle : c ≤ ' '
    · exact hle
    · simp [isBlank_of_head? hc hle] at h
  have hmarker : ¬ isMarker s = true := by
    intro hm
    rcases head?_of_isMarker hm with hm | hm | hm <;> exact absurd (hhead _ hm) (by decide)
  have hrelease : ¬ s.startsWith "## ".toList = true := fun hs =>
    absurd (hhead '#' (head?_of_startsWith hs)) (by decide)
  have hgroup : ¬ s.startsWith "### ".toList = true := fun hs =>
    absurd (hhead '#' (head?_of_startsWith hs)) (by decide)
  rw [Kind.ofText, if_neg hmarker, if_neg hrelease, if_neg hgroup, if_pos h]

/-! ## Where the body opens -/

theorem opensBody_of_kind {number : Nat} {s : Text}
    (h : Kind.ofText s = .release ∨ Kind.ofText s = .group) :
    (ofText number s).opensBody = true := by
  have hlead : ∃ lead, s.startsWith ("##".toList ++ lead) = true := by
    rcases h with h | h
    · exact ⟨[' '], fits_of_kind h⟩
    · exact ⟨['#', ' '], fits_of_kind h⟩
  obtain ⟨lead, hs⟩ := hlead
  obtain ⟨rest, rfl⟩ := Text.startsWith_iff.mp hs
  exact Text.startsWith_iff.mpr ⟨lead ++ rest, by simp⟩

/-- Blank lines, entries and merge markers do not open the body. -/
theorem kind_of_opensBody {number : Nat} {s : Text} (h : (ofText number s).opensBody = true) :
    Kind.ofText s = .release ∨ Kind.ofText s = .group ∨ Kind.ofText s = .other := by
  have hs : s.startsWith "##".toList = true := h
  rw [kind_of_hash (head?_of_startsWith hs)]
  split
  · exact .inl rfl
  · split
    · exact .inr (.inl rfl)
    · exact .inr (.inr rfl)

theorem opensBody_of_isBlank {number : Nat} {s : Text} (h : s.isBlank = true) :
    (ofText number s).opensBody = false := by
  have hkind := kind_eq_blank_iff.mpr h
  apply Bool.eq_false_iff.mpr
  intro hopens
  rcases kind_of_opensBody hopens with hother | hother | hother <;> simp [hkind] at hother

end ReleaseLog.Line
