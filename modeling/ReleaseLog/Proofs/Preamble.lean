import ReleaseLog.Proofs.Attribution
import ReleaseLog.Proofs.Placement

/-!
# Preambles

Of the lines before the body, the scan for spacing sees the kind of the last one and nothing else.
So two preambles that end alike differ in the numbers of the lines that are found, and none of these
is in a preamble.
-/

namespace ReleaseLog

/-- There are some lines, and none of them opens the body. -/
structure IsPreamble (texts : List Text) : Prop where
  ne_nil : texts ≠ []
  closed : ∀ text ∈ texts, text.startsWith "##".toList = false

theorem IsPreamble.findIdx?_eq_none {texts : List Text} (h : IsPreamble texts) :
    texts.findIdx? (·.startsWith "##".toList) = none :=
  List.findIdx?_eq_none_iff.mpr h.closed

namespace Check.Context

variable {c d : Context} {line : Line} {f : Finding}

/-! ## Other numbers -/

theorem Flaw.add {n : Nat} {text : Text} (h : c.Flaw (.ofText (n + 1) text) f) (k : Nat) :
    c.Flaw (.ofText (n + k + 1) text) (f.renumber (· + k)) := by
  have hnumber : n + 1 + k = n + k + 1 := Nat.add_right_comm n 1 k
  cases h with
  | blankBeforeEntry hkind hprevious => exact .blankBeforeEntry hkind hprevious
  | blankAfterBlank hkind hprevious =>
      rw [Finding.renumber, Line.number_ofText, hnumber]
      exact .blankAfterBlank hkind hprevious
  | blankUnderRelease hkind hprevious htwoBack =>
      exact .blankUnderRelease hkind hprevious htwoBack
  | crowdedRelease hkind hprevious hne =>
      rw [Finding.renumber, Line.number_ofText, hnumber]
      exact .crowdedRelease hkind hprevious hne
  | crowdedGroup hkind hprevious hne =>
      rw [Finding.renumber, Line.number_ofText, hnumber]
      exact .crowdedGroup hkind hprevious hne

theorem flaw?_ofText_add (c : Context) (n k : Nat) (text : Text) :
    c.flaw? (.ofText (n + k + 1) text) =
      (c.flaw? (.ofText (n + 1) text)).map (Finding.renumber (· + k)) := by
  cases h : c.flaw? (.ofText (n + 1) text) with
  | none =>
      cases hmoved : c.flaw? (.ofText (n + k + 1) text) with
      | none => rfl
      | some f =>
          obtain ⟨g, hg⟩ := exists_flaw?_ofText (n + 1) hmoved
          simp [h] at hg
  | some f =>
      obtain ⟨hbody, hflaw⟩ := flaw?_eq_some_iff.mp h
      exact flaw?_eq_some_iff.mpr ⟨hbody, hflaw.add k⟩

theorem findings_numberedFrom_add (c : Context) (n k : Nat) (texts : List Text) :
    c.findings (Line.numberedFrom (n + k + 1) texts) =
      (c.findings (Line.numberedFrom (n + 1) texts)).map (Finding.renumber (· + k)) := by
  induction texts generalizing c n with
  | nil => rfl
  | cons text rest ih =>
      have hrest := ih (c.next (.ofText (n + 1) text)) (n + 1)
      have hnumber : n + 1 + k + 1 = n + k + 1 + 1 := by omega
      rw [hnumber] at hrest
      rw [Line.numberedFrom_cons, Line.numberedFrom_cons, findings_cons, findings_cons,
        List.map_append, ← hrest, flaw?_ofText_add, Option.toList_map]
      rfl

/-! ## The first line of the body -/

/-- From the first line of the body on, all that matters is the kind of the line before it. -/
theorem findings_of_opensBody (hopens : line.opensBody = true)
    (hprevious : c.previous = d.previous) (hc : c.twoBack ≠ some .release)
    (hd : d.twoBack ≠ some .release) (lines : List Line) :
    c.findings (line :: lines) = d.findings (line :: lines) := by
  have hnext : c.next line = d.next line := by simp [next, hopens, hprevious]
  have hflaw : c.flaw? line = d.flaw? line := by
    apply Option.ext
    intro f
    rw [flaw?_eq_some_iff, flaw?_eq_some_iff, hnext]
    exact and_congr_right fun _ =>
      ⟨.of_previous hprevious.symm fun _ hrelease => (hc hrelease).elim,
        .of_previous hprevious fun _ hrelease => (hd hrelease).elim⟩
  rw [findings_cons, findings_cons, hflaw, hnext]

/-! ## After a preamble -/

theorem findings_preamble {texts : List Text}
    (h : ∀ text ∈ texts, text.startsWith "##".toList = false) (hc : c.inBody = false)
    (first : Nat) : c.findings (Line.numberedFrom first texts) = [] := by
  induction texts generalizing c first with
  | nil => rfl
  | cons text rest ih =>
      obtain ⟨htext, hrest⟩ := List.forall_mem_cons.mp h
      have hbody : (c.inBody || (Line.ofText first text).opensBody) = false := by
        rw [hc]
        exact htext
      have hflaw : c.flaw? (.ofText first text) = none := by simp [flaw?, hbody]
      rw [Line.numberedFrom_cons, findings_cons, hflaw, ih hrest hbody]
      rfl

theorem previous_after_preamble {texts : List Text} (h : IsPreamble texts) :
    (after {} (Line.ofTexts texts)).previous = some (.ofText (texts.getLast h.ne_nil)) := by
  obtain ⟨front, last, rfl⟩ := List.eq_nil_or_concat texts |>.resolve_left h.ne_nil
  simp [List.concat_eq_append, Line.ofTexts_append, after_append, next]

/-- No line of a preamble is a release. -/
theorem twoBack_after_preamble {texts : List Text} (h : IsPreamble texts) :
    (after {} (Line.ofTexts texts)).twoBack ≠ some .release := by
  intro hrelease
  have hafter : after {} (Line.ofTexts texts) = before texts texts.length := by
    rw [← after_take texts (Nat.le_refl _), List.take_length]
  rw [hafter] at hrelease
  obtain ⟨k, hk, -⟩ := exists_bodyStart_le hrelease (.inl rfl)
  rw [bodyStart?, h.findIdx?_eq_none] at hk
  simp at hk

/-- All that the scan keeps of a preamble is the kind of its last line. -/
theorem spacing_append_preamble {texts rest : List Text} {first : Text} (h : IsPreamble texts)
    (hfirst : first.startsWith "##".toList = true) :
    spacing (Line.ofTexts (texts ++ first :: rest)) =
      (findings { previous := some (.ofText (texts.getLast h.ne_nil)) }
        (Line.ofTexts (first :: rest))).map (Finding.renumber (· + texts.length)) := by
  have hopens : (Line.ofText (1 + texts.length) first).opensBody = true := hfirst
  have hbody := findings_of_opensBody hopens (previous_after_preamble h) (twoBack_after_preamble h)
    (d := { previous := some (.ofText (texts.getLast h.ne_nil)) }) (by simp)
    (Line.numberedFrom (1 + texts.length + 1) rest)
  have hnumber : 1 + texts.length = 0 + texts.length + 1 := by omega
  rw [Line.ofTexts_append, spacing_eq, findings_append, Line.ofTexts,
    findings_preamble h.closed rfl, List.nil_append, ← Line.ofTexts, Line.numberedFrom_cons, hbody,
    ← Line.numberedFrom_cons, hnumber]
  exact findings_numberedFrom_add _ 0 texts.length (first :: rest)

/-- Nothing is found before the body. -/
theorem bodyStart_le_of_mem_spacing {texts : List Text} (h : f ∈ spacing (Line.ofTexts texts)) :
    ∃ k n, bodyStart? texts = some k ∧ f.line? = some n ∧ k ≤ n := by
  rw [spacing_ofTexts] at h
  obtain ⟨i, -, hi⟩ := List.mem_filterMap.mp h
  obtain ⟨n, rfl | rfl, hn, -⟩ := exists_line?_of_flawAt? hi
  · obtain ⟨-, -, ⟨hkind, -⟩ | ⟨hkind, -⟩⟩ := flawAt?_eq_missingBlank_iff.mp hi
    · obtain ⟨k, hk, hle⟩ := exists_bodyStart_le hkind (.inl rfl)
      exact ⟨k, n, hk, hn, hle⟩
    · obtain ⟨k, hk, hle⟩ := exists_bodyStart_le hkind (.inr rfl)
      exact ⟨k, n, hk, hn, hle⟩
  · obtain ⟨-, ⟨⟨k, hk, hlt⟩, -⟩, -⟩ | ⟨-, ⟨⟨k, hk, hlt⟩, -⟩, -⟩ := flawAt?_eq_strayBlank_iff.mp hi
    · exact ⟨k, n, hk, hn, Nat.le_of_lt hlt⟩
    · exact ⟨k, n, hk, hn, Nat.le_of_lt hlt⟩

theorem length_lt_of_mem_spacing {texts rest : List Text} {first : Text} (h : IsPreamble texts)
    (hfirst : first.startsWith "##".toList = true)
    (hf : f ∈ spacing (Line.ofTexts (texts ++ first :: rest))) :
    ∃ n, f.line? = some n ∧ texts.length < n := by
  obtain ⟨k, n, hk, hn, hle⟩ := bodyStart_le_of_mem_spacing hf
  have hstart : bodyStart? (texts ++ first :: rest) = some (texts.length + 1) := by
    rw [bodyStart?, List.findIdx?_append, h.findIdx?_eq_none, List.findIdx?_cons, if_pos hfirst]
    simp
  obtain rfl := Option.some.inj (hstart.symm.trans hk)
  exact ⟨n, hn, hle⟩

end Check.Context

namespace RuleSet

/-- Where the preambles end alike, the same lines of the body are found, and none before it. -/
theorem whitespace_ignores_preamble (rules : RuleSet) {before other : List Text}
    (hbefore : IsPreamble before) (hother : IsPreamble other)
    (hkind : Line.Kind.ofText (before.getLast hbefore.ne_nil) =
      Line.Kind.ofText (other.getLast hother.ne_nil))
    {first : Text} (hfirst : first.startsWith "##".toList = true) (rest : List Text) :
    (rules.checkLines (other ++ first :: rest)).ofRule .whitespace =
        ((rules.checkLines (before ++ first :: rest)).ofRule .whitespace).map
          (Finding.renumber fun n => n + other.length - before.length) ∧
      (∀ f ∈ (rules.checkLines (before ++ first :: rest)).ofRule .whitespace,
        ∃ n, f.line? = some n ∧ before.length < n) ∧
      ∀ f ∈ (rules.checkLines (other ++ first :: rest)).ofRule .whitespace,
        ∃ n, f.line? = some n ∧ other.length < n := by
  rw [ofRule_checkLines, ofRule_checkLines]
  split
  · refine ⟨?_, fun f => Check.Context.length_lt_of_mem_spacing hbefore hfirst,
      fun f => Check.Context.length_lt_of_mem_spacing hother hfirst⟩
    have hmove : ∀ n, n + before.length + other.length - before.length = n + other.length := by
      omega
    simp only [Rule.findings]
    rw [Check.Context.spacing_append_preamble hother hfirst,
      Check.Context.spacing_append_preamble hbefore hfirst, ← hkind, List.map_map]
    refine List.map_congr_left fun f _ => ?_
    simp only [Function.comp_apply, Finding.renumber_renumber, hmove]
  · simp

/-- A title stands for a longer preamble. -/
theorem whitespace_ignores_title :
    let before := ["# Changelog".toList, "All changes.".toList]
    let other := ["Changes".toList]
    let body := ["## [1]".toList, [], "### Added".toList, "- a".toList, [], "- b".toList]
    IsPreamble before ∧ IsPreamble other ∧
      (({} : RuleSet).checkLines (before ++ body)).ofRule .whitespace =
        [.missingBlank 3, .strayBlank 4, .strayBlank 7] ∧
      (({} : RuleSet).checkLines (other ++ body)).ofRule .whitespace =
        [.missingBlank 2, .strayBlank 3, .strayBlank 6] := by
  intro before other body
  have hbefore : IsPreamble before := ⟨by simp [before], by decide⟩
  have hother : IsPreamble other := ⟨by simp [other], by decide⟩
  have hkind : Line.Kind.ofText (before.getLast hbefore.ne_nil) =
      Line.Kind.ofText (other.getLast hother.ne_nil) := rfl
  have hfirst : Text.startsWith "## [1]".toList "##".toList = true := by decide
  have hfound : (({} : RuleSet).checkLines (before ++ body)).ofRule .whitespace =
      [.missingBlank 3, .strayBlank 4, .strayBlank 7] := by
    decide +kernel
  obtain ⟨hsame, -, -⟩ := whitespace_ignores_preamble {} hbefore hother hkind hfirst body.tail
  exact ⟨hbefore, hother, hfound, hsame.trans (congrArg _ hfound)⟩

end RuleSet

end ReleaseLog
