import ReleaseLog.Proofs.Attribution
import ReleaseLog.Proofs.Occurrences

/-!
# Mending the spacing

Each finding on spacing advises to erase or to insert a blank line. To follow the advice never makes
more such findings, and it only moves the findings of the other rules. So mending ends, with the
lines that are not blank as they were and nothing left to mend.
-/

namespace ReleaseLog

namespace Finding

/-- The lines after the advice of a finding is followed. Only findings on spacing give any. -/
def advise : Finding → List Text → List Text
  | .strayBlank n, lines => lines.eraseIdx (n - 1)
  | .missingBlank n, lines => lines.insertIdx (n - 1) []
  | _, lines => lines

theorem advise_strayBlank (front back : List Text) (blank : Text) :
    advise (.strayBlank (front.length + 1)) (front ++ blank :: back) = front ++ back := by
  simp only [advise, Nat.add_sub_cancel]
  rw [List.eraseIdx_append_of_length_le (Nat.le_refl _)]
  simp

theorem advise_missingBlank (front back : List Text) :
    advise (.missingBlank (front.length + 1)) (front ++ back) = front ++ [] :: back := by
  simp only [advise, Nat.add_sub_cancel]
  induction front with
  | nil => rfl
  | cons text front ih => simp [ih]

/-- The new number of a line after the advice of a finding is followed. -/
def shift : Finding → Nat → Nat
  | .strayBlank n => Line.closeGap n
  | .missingBlank n => Line.makeRoom n
  | _ => id

end Finding

/-! ## The findings of the other rules -/

namespace Check

theorem version?_of_isBlank {number : Nat} {text : Text} (h : text.isBlank = true) :
    version? (.ofText number text) = none := by
  rw [version?, Line.opensBody_of_isBlank h]
  rfl

theorem leftovers_map_renumber (f : Nat → Nat) (lines : List Line) :
    leftovers (lines.map (Line.renumber f)) = (leftovers lines).map (Finding.renumber f) := by
  simp only [leftovers, List.filter_map, List.map_map]
  rfl

end Check

namespace Rule

open Check (Context)

/-- Only spacing looks at blank lines. -/
theorem findings_append_blank {r : Rule} (hr : r ≠ .whitespace) {number : Nat} {text : Text}
    (h : text.isBlank = true) (front back : List Line) :
    r.findings (front ++ .ofText number text :: back) = r.findings (front ++ back) := by
  cases r with
  | duplicateVersions => exact Check.repeats_append_cons_of_none (Check.version?_of_isBlank h) _ _
  | gitConflicts =>
      simp [findings, Check.leftovers, Line.kind_eq_blank_iff.mpr h]
  | whitespace => exact (hr rfl).elim

theorem findings_map_renumber {r : Rule} (hr : r ≠ .whitespace) {f : Nat → Nat}
    (hf : ∀ m n, m < n → f m < f n) (texts : List Text) :
    r.findings ((Line.ofTexts texts).map (Line.renumber f)) =
      (r.findings (Line.ofTexts texts)).map (Finding.renumber f) := by
  have hlines := Line.pairwise_numberedFrom 1 texts
  cases r with
  | duplicateVersions =>
      refine Check.repeats_map_renumber hlines ?_
      rw [List.pairwise_map]
      exact hlines.imp fun h => hf _ _ h
  | gitConflicts => exact Check.leftovers_map_renumber f _
  | whitespace => exact (hr rfl).elim

/-- One more blank line moves the findings of the other rules. -/
theorem findings_insert_blank {r : Rule} (hr : r ≠ .whitespace) {text : Text}
    (h : text.isBlank = true) (front back : List Text) :
    r.findings (Line.ofTexts (front ++ text :: back)) =
      (r.findings (Line.ofTexts (front ++ back))).map
        (Finding.renumber (Line.makeRoom (front.length + 1))) := by
  have hlines : Line.ofTexts (front ++ text :: back) =
      Line.ofTexts front ++ .ofText (1 + front.length) text ::
        Line.numberedFrom (front.length + 2) back := by
    rw [Line.ofTexts_append, Line.numberedFrom_cons, Nat.add_comm 1]
  rw [hlines, findings_append_blank hr h, ← Line.map_renumber_makeRoom]
  exact findings_map_renumber hr (fun _ _ => Line.makeRoom_lt_makeRoom _) _

/-- One blank line less moves them back. -/
theorem findings_erase_blank {r : Rule} (hr : r ≠ .whitespace) {text : Text}
    (h : text.isBlank = true) (front back : List Text) :
    r.findings (Line.ofTexts (front ++ back)) =
      (r.findings (Line.ofTexts (front ++ text :: back))).map
        (Finding.renumber (Line.closeGap (front.length + 1))) := by
  rw [findings_insert_blank hr h, List.map_map]
  symm
  refine (List.map_congr_left fun f _ => ?_).trans (List.map_id _)
  rw [Function.comp_apply, Finding.renumber_renumber]
  exact Finding.renumber_eq_self (Line.closeGap_makeRoom _) f

/-! ## The findings on spacing -/

theorem length_whitespace_append (front back : List Text) (n : Nat) :
    (whitespace.findings (Line.ofTexts (front ++ back))).length =
      (whitespace.findings (Line.ofTexts front)).length +
        ((Context.after {} (Line.ofTexts front)).findings (Line.numberedFrom n back)).length := by
  rw [Line.ofTexts_append, Context.length_findings_numberedFrom _ n (1 + front.length)]
  exact (congrArg List.length (Context.findings_append {} _ _)).trans List.length_append

/-- A blank line that is wrong itself can go. -/
theorem length_whitespace_erase {front back : List Text} {blank : Text} {n : Nat} {f : Finding}
    (hblank : blank.isBlank = true)
    (hflaw : (Context.after {} (Line.ofTexts front)).flaw? (.ofText n blank) = some f) :
    (whitespace.findings (Line.ofTexts (front ++ back))).length ≤
      (whitespace.findings (Line.ofTexts (front ++ blank :: back))).length := by
  rw [length_whitespace_append front _ (n + 1), length_whitespace_append front _ n]
  apply Nat.add_le_add_left
  exact Context.length_findings_erase (Line.kind_eq_blank_iff.mpr hblank)
    (Line.opensBody_of_isBlank hblank) (.inl ⟨f, hflaw⟩)

/-- A blank line that makes the next line wrong can go. -/
theorem length_whitespace_erase_before {front back : List Text} {blank text : Text} {n : Nat}
    {f : Finding} (hblank : blank.isBlank = true) (hkind : Line.Kind.ofText text ≠ .blank)
    (hflaw : (Context.after {} (Line.ofTexts (front ++ [blank]))).flaw? (.ofText n text) =
      some f) :
    (whitespace.findings (Line.ofTexts (front ++ text :: back))).length ≤
      (whitespace.findings (Line.ofTexts (front ++ blank :: text :: back))).length := by
  rw [Line.ofTexts_append, Context.after_append] at hflaw
  obtain ⟨g, hg⟩ := Context.exists_flaw?_ofText (2 + front.length) hflaw
  rw [length_whitespace_append front _ (1 + front.length + 1),
    length_whitespace_append front _ (1 + front.length)]
  apply Nat.add_le_add_left
  refine Context.length_findings_erase (Line.kind_eq_blank_iff.mpr hblank)
    (Line.opensBody_of_isBlank hblank) (.inr ⟨_, _, g, rfl, hkind, ?_⟩)
  rw [Nat.add_right_comm]
  exact hg

/-- A blank line can come where it is missing. -/
theorem length_whitespace_insert {front back : List Text} {text : Text} {m n : Nat}
    (hflaw : (Context.after {} (Line.ofTexts front)).flaw? (.ofText (1 + n) text) =
      some (.missingBlank m)) :
    (whitespace.findings (Line.ofTexts (front ++ [] :: text :: back))).length <
      (whitespace.findings (Line.ofTexts (front ++ text :: back))).length := by
  rw [length_whitespace_append front _ n, length_whitespace_append front _ (n + 1)]
  apply Nat.add_lt_add_left
  rw [Nat.add_comm] at hflaw
  have hblank : Text.isBlank [] = true := rfl
  exact Context.length_findings_insert (Line.kind_eq_blank_iff.mpr hblank)
    (Line.opensBody_of_isBlank hblank) hflaw

/-- Each finding on spacing points at a blank line that can go, or at a place where a blank line can
come. -/
theorem exists_of_mem_whitespace {lines : List Text} {f : Finding}
    (h : f ∈ whitespace.findings (Line.ofTexts lines)) :
    (∃ front blank back, lines = front ++ blank :: back ∧ blank.isBlank = true ∧
      f = .strayBlank (front.length + 1) ∧
      (whitespace.findings (Line.ofTexts (front ++ back))).length ≤
        (whitespace.findings (Line.ofTexts lines)).length) ∨
    (∃ front back, lines = front ++ back ∧ f = .missingBlank (front.length + 1) ∧
      (whitespace.findings (Line.ofTexts (front ++ [] :: back))).length <
        (whitespace.findings (Line.ofTexts lines)).length) := by
  obtain ⟨front, text, back, rfl, hflaw⟩ := exists_flaw_of_mem_findings h
  have hbefore : (Context.after {} (Line.ofTexts front)).previous = some .blank →
      f = .strayBlank (1 + front.length - 1) → Line.Kind.ofText text ≠ .blank →
      ∃ first blank rest, front ++ text :: back = first ++ blank :: rest ∧
        blank.isBlank = true ∧ f = .strayBlank (first.length + 1) ∧
        (whitespace.findings (Line.ofTexts (first ++ rest))).length ≤
          (whitespace.findings (Line.ofTexts (front ++ text :: back))).length := by
    intro hprevious hf hkind
    obtain ⟨first, blank, rfl, hlast⟩ := Context.exists_of_previous hprevious
    have hblank : blank.isBlank = true := Line.kind_eq_blank_iff.mp hlast
    refine ⟨first, blank, text :: back, by simp, hblank, by simp [hf], ?_⟩
    rw [List.append_assoc]
    exact length_whitespace_erase_before hblank hkind hflaw
  cases (Context.flaw?_eq_some_iff.mp hflaw).2 with
  | blankBeforeEntry hkind hprevious =>
      have hentry : Line.Kind.ofText text = .entry := hkind
      exact .inl (hbefore hprevious rfl (by simp [hentry]))
  | blankUnderRelease hkind hprevious _ =>
      have hgroup : Line.Kind.ofText text = .group := hkind
      exact .inl (hbefore hprevious rfl (by simp [hgroup]))
  | blankAfterBlank hkind _ =>
      have hblank : text.isBlank = true := Line.kind_eq_blank_iff.mp hkind
      exact .inl ⟨front, text, back, rfl, hblank, by simp [Nat.add_comm],
        length_whitespace_erase hblank hflaw⟩
  | crowdedRelease _ _ _ | crowdedGroup _ _ _ =>
      exact .inr ⟨front, text :: back, rfl, by simp [Nat.add_comm],
        length_whitespace_insert hflaw⟩

end Rule

/-! ## Mending step by step -/

namespace RuleSet

variable {rules : RuleSet}

def spacing (rules : RuleSet) (lines : List Text) : List Finding :=
  (rules.checkLines lines).ofRule .whitespace

/-- The lines after one of the findings on spacing is mended. -/
inductive Mends (rules : RuleSet) (lines : List Text) : List Text → Prop
  | advised {f : Finding} (h : f ∈ rules.spacing lines) : Mends rules lines (f.advise lines)

/-- The lines after so many findings are mended, each found in the lines as they were then. -/
inductive Mending (rules : RuleSet) : List Text → Nat → List Text → Prop
  | done (lines : List Text) : Mending rules lines 0 lines
  | step {lines next last : List Text} {steps : Nat} (h : Mends rules lines next)
      (rest : Mending rules next steps last) : Mending rules lines (steps + 1) last

theorem isOn_of_mem_spacing {lines : List Text} {f : Finding} (h : f ∈ rules.spacing lines) :
    rules.isOn .whitespace = true := by
  by_cases hon : rules.isOn .whitespace = true
  · exact hon
  · simp [spacing, ofRule_checkLines, hon] at h

theorem spacing_of_isOn (hon : rules.isOn .whitespace = true) (lines : List Text) :
    rules.spacing lines = Rule.whitespace.findings (Line.ofTexts lines) := by
  rw [spacing, ofRule_checkLines, if_pos hon]

/-- The advice of a finding erases a blank line, or inserts one. -/
theorem advise_cases {lines : List Text} {f : Finding} (h : f ∈ rules.spacing lines) :
    (∃ front blank back, lines = front ++ blank :: back ∧ blank.isBlank = true ∧
      f = .strayBlank (front.length + 1) ∧ f.advise lines = front ++ back ∧
      (rules.spacing (front ++ back)).length ≤ (rules.spacing lines).length) ∨
    (∃ front back, lines = front ++ back ∧
      f = .missingBlank (front.length + 1) ∧ f.advise lines = front ++ [] :: back ∧
      (rules.spacing (front ++ [] :: back)).length < (rules.spacing lines).length) := by
  have hon := isOn_of_mem_spacing h
  simp only [spacing_of_isOn hon] at h ⊢
  rcases Rule.exists_of_mem_whitespace h with
    ⟨front, blank, back, rfl, hblank, rfl, hle⟩ | ⟨front, back, rfl, rfl, hlt⟩
  · exact .inl ⟨front, blank, back, rfl, hblank, rfl, Finding.advise_strayBlank .., hle⟩
  · exact .inr ⟨front, back, rfl, rfl, Finding.advise_missingBlank .., hlt⟩

theorem ofRule_advise {lines : List Text} {f : Finding} (h : f ∈ rules.spacing lines) {r : Rule}
    (hr : r ≠ .whitespace) :
    (rules.checkLines (f.advise lines)).ofRule r =
      ((rules.checkLines lines).ofRule r).map (Finding.renumber f.shift) := by
  rw [ofRule_checkLines, ofRule_checkLines]
  split
  · rcases advise_cases h with
      ⟨front, blank, back, rfl, hblank, rfl, hadvise, -⟩ | ⟨front, back, rfl, rfl, hadvise, -⟩
    · rw [hadvise]
      exact Rule.findings_erase_blank hr hblank front back
    · rw [hadvise]
      exact Rule.findings_insert_blank hr rfl front back
  · rfl

/-- What each step of mending makes smaller: an erased blank line counts once, and a finding that an
inserted one mends counts twice. -/
def effort (rules : RuleSet) (lines : List Text) : Nat :=
  2 * (rules.spacing lines).length + lines.countP Text.isBlank

theorem Mends.effort_lt {lines next : List Text} (h : Mends rules lines next) :
    rules.effort next < rules.effort lines := by
  obtain ⟨hf⟩ := h
  rcases advise_cases hf with
    ⟨front, blank, back, rfl, hblank, -, hadvise, hle⟩ | ⟨front, back, rfl, -, hadvise, hlt⟩
  · have hcount : (front ++ blank :: back).countP Text.isBlank =
        (front ++ back).countP Text.isBlank + 1 := by
      simp [hblank, Nat.add_assoc]
    rw [hadvise, effort, effort, hcount]
    omega
  · have hcount : (front ++ [] :: back).countP Text.isBlank =
        (front ++ back).countP Text.isBlank + 1 := by
      simp [List.countP_cons, Nat.add_assoc]
    rw [hadvise, effort, effort, hcount]
    omega

/-- Only blank lines come and go. -/
theorem Mends.filter_eq {lines next : List Text} (h : Mends rules lines next) :
    next.filter (!·.isBlank) = lines.filter (!·.isBlank) := by
  obtain ⟨hf⟩ := h
  rcases advise_cases hf with
    ⟨front, blank, back, rfl, hblank, -, hadvise, -⟩ | ⟨front, back, rfl, -, hadvise, -⟩
  · simp [hadvise, hblank]
  · simp [hadvise]

theorem Mending.le_effort {lines last : List Text} {steps : Nat}
    (h : Mending rules lines steps last) : steps ≤ rules.effort lines := by
  induction h with
  | done lines => exact Nat.zero_le _
  | step h _ ih =>
      have := h.effort_lt
      omega

theorem Mending.filter_eq {lines last : List Text} {steps : Nat}
    (h : Mending rules lines steps last) :
    last.filter (!·.isBlank) = lines.filter (!·.isBlank) := by
  induction h with
  | done lines => rfl
  | step h _ ih => rw [ih, h.filter_eq]

theorem spacing_eq_nil_iff {lines : List Text} :
    rules.spacing lines = [] ↔ ∀ next, ¬ Mends rules lines next := by
  constructor
  · rintro h next ⟨hf⟩
    simp [h] at hf
  · intro h
    apply List.eq_nil_iff_forall_not_mem.mpr
    intro f hf
    exact h _ (.advised hf)

/-- Mending can go on until nothing is left to mend. -/
theorem exists_mending (rules : RuleSet) (lines : List Text) :
    ∃ steps last, Mending rules lines steps last ∧ rules.spacing last = [] := by
  induction hn : rules.effort lines using Nat.strongRecOn generalizing lines with
  | _ n ih =>
      cases hfound : rules.spacing lines with
      | nil => exact ⟨0, lines, .done lines, hfound⟩
      | cons f rest =>
          have hmends : Mends rules lines (f.advise lines) := .advised (by simp [hfound])
          obtain ⟨steps, last, hmending, hnone⟩ := ih _ (hn ▸ hmends.effort_lt) _ rfl
          exact ⟨steps + 1, last, .step hmends hmending, hnone⟩

/-- To follow the advice of a finding makes no more of them, and fewer if it inserts a blank line.
The findings of the other rules only move. -/
structure Helps (rules : RuleSet) (lines : List Text) (f : Finding) : Prop where
  blank : ∀ n, f = .strayBlank n → 0 < n ∧ ∃ text, lines[n - 1]? = some text ∧ text.isBlank = true
  length_le : (rules.spacing (f.advise lines)).length ≤ (rules.spacing lines).length
  length_lt : ∀ n, f = .missingBlank n →
    (rules.spacing (f.advise lines)).length < (rules.spacing lines).length
  others : ∀ r, r ≠ .whitespace → (rules.checkLines (f.advise lines)).ofRule r =
    ((rules.checkLines lines).ofRule r).map (Finding.renumber f.shift)

/-- Mending ends after a bounded number of steps, it can only end where nothing is left to mend, and
the lines that are not blank stay as they were. -/
structure Ends (rules : RuleSet) (lines : List Text) (steps : Nat) (last : List Text) : Prop where
  bounded : steps ≤ 2 * (rules.spacing lines).length + lines.countP Text.isBlank
  kept : last.filter (!·.isBlank) = lines.filter (!·.isBlank)
  stuck_iff : (∀ next, ¬ Mends rules last next) ↔ rules.spacing last = []

/-- The findings on spacing never contradict each other, however they are picked. -/
structure Converges (rules : RuleSet) (lines : List Text) : Prop where
  helps : ∀ f ∈ rules.spacing lines, Helps rules lines f
  ends : ∀ steps last, Mending rules lines steps last → Ends rules lines steps last
  mended : ∃ steps last, Mending rules lines steps last ∧ rules.spacing last = []

theorem helps_of_mem_spacing {lines : List Text} {f : Finding} (hf : f ∈ rules.spacing lines) :
    Helps rules lines f := by
  have hother : ∀ r, r ≠ .whitespace → (rules.checkLines (f.advise lines)).ofRule r =
      ((rules.checkLines lines).ofRule r).map (Finding.renumber f.shift) :=
    fun r hr => ofRule_advise hf hr
  rcases advise_cases hf with
    ⟨front, blank, back, rfl, hblank, rfl, hadvise, hle⟩ | ⟨front, back, rfl, rfl, hadvise, hlt⟩
  · refine ⟨?_, by rwa [hadvise], by simp, hother⟩
    intro n hn
    obtain rfl := Finding.strayBlank.inj hn
    exact ⟨Nat.succ_pos _, blank, by simp, hblank⟩
  · refine ⟨by simp, ?_, ?_, hother⟩
    · rw [hadvise]
      exact Nat.le_of_lt hlt
    · intro n _
      rwa [hadvise]

theorem mending_converges (rules : RuleSet) (lines : List Text) : Converges rules lines where
  helps := fun _ hf => helps_of_mem_spacing hf
  ends := fun _ _ h => ⟨h.le_effort, h.filter_eq, spacing_eq_nil_iff.symm⟩
  mended := exists_mending rules lines

-- To mend one finding can make another one: the group now follows the blank line below its release.
example :
    ({} : RuleSet).spacing ["## [1]".toList, [], [], "### Added".toList] = [.strayBlank 3] ∧
      ({} : RuleSet).spacing ["## [1]".toList, [], "### Added".toList] = [.strayBlank 2] := by
  decide +kernel

end RuleSet

end ReleaseLog
