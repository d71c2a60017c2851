import ReleaseLog.Check
import ReleaseLog.Proofs.Kinds
import ReleaseLog.Proofs.Numbering

/-!
# The spacing scan

The scan carries a context from line to line: whether the body has begun, and the kinds of the last
two lines. What it finds in some lines is what it finds in their first part, followed by what it
finds in the rest from the context that the first part leaves behind.
-/

namespace ReleaseLog.Check

open Line (Kind)

/-- What the scan knows of the lines before the next one. -/
structure Context where
  inBody : Bool := false
  previous : Option Kind := none
  twoBack : Option Kind := none

namespace Context

def next (c : Context) (line : Line) : Context :=
  ⟨c.inBody || line.opensBody, some line.kind, c.previous⟩

def after (c : Context) (lines : List Line) : Context :=
  lines.foldl next c

/-- What is wrong with the next line. Before the body nothing is. -/
def flaw? (c : Context) (line : Line) : Option Finding :=
  if c.inBody || line.opensBody then spacingOf line c.previous c.twoBack else none

def findings (c : Context) (lines : List Line) : List Finding :=
  spacingFrom c.inBody c.previous c.twoBack lines

theorem spacing_eq (lines : List Line) : spacing lines = findings {} lines := rfl

@[simp] theorem after_nil (c : Context) : c.after [] = c := rfl

@[simp] theorem after_cons (c : Context) (line : Line) (lines : List Line) :
    c.after (line :: lines) = (c.next line).after lines := rfl

theorem after_append (c : Context) (xs ys : List Line) :
    c.after (xs ++ ys) = (c.after xs).after ys := by
  simp [after]

@[simp] theorem findings_nil (c : Context) : c.findings [] = [] := rfl

theorem findings_cons (c : Context) (line : Line) (lines : List Line) :
    c.findings (line :: lines) = (c.flaw? line).toList ++ (c.next line).findings lines := by
  simp only [findings, spacingFrom, flaw?, next]
  split <;> rfl

theorem findings_append (c : Context) (xs ys : List Line) :
    c.findings (xs ++ ys) = c.findings xs ++ (c.after xs).findings ys := by
  induction xs generalizing c with
  | nil => rfl
  | cons x xs ih => simp only [List.cons_append, findings_cons, ih, after_cons, List.append_assoc]

theorem mem_findings {c : Context} {first : Nat} {texts : List Text} {f : Finding} :
    f ∈ c.findings (Line.numberedFrom first texts) ↔
      ∃ front text back, texts = front ++ text :: back ∧
        (c.after (Line.numberedFrom first front)).flaw?
          (.ofText (first + front.length) text) = some f := by
  induction texts generalizing c first with
  | nil => simp
  | cons text rest ih =>
      simp only [Line.numberedFrom_cons, findings_cons, List.mem_append, Option.mem_toList, ih]
      constructor
      · rintro (h | ⟨front, t, back, rfl, h⟩)
        · exact ⟨[], text, rest, rfl, h⟩
        · refine ⟨text :: front, t, back, rfl, ?_⟩
          rw [Nat.add_assoc, Nat.add_comm 1] at h
          exact h
      · rintro ⟨front, t, back, heq, h⟩
        cases front with
        | nil =>
            obtain ⟨rfl, rfl⟩ := List.cons.inj heq
            exact .inl h
        | cons u front =>
            obtain ⟨rfl, rfl⟩ := List.cons.inj heq
            refine .inr ⟨front, t, back, rfl, ?_⟩
            rw [Nat.add_assoc, Nat.add_comm 1]
            exact h

theorem exists_flaw?_of_mem_findings {c : Context} {lines : List Line} {f : Finding}
    (h : f ∈ c.findings lines) : ∃ (d : Context) (line : Line), d.flaw? line = some f := by
  induction lines generalizing c with
  | nil => simp at h
  | cons line lines ih =>
      rw [findings_cons, List.mem_append, Option.mem_toList] at h
      rcases h with h | h
      · exact ⟨c, line, h⟩
      · exact ih h

/-- The kind before the next line is that of the last line, if there is one. -/
theorem exists_of_previous {texts : List Text} {first : Nat} {kind : Kind}
    (h : (Context.after {} (Line.numberedFrom first texts)).previous = some kind) :
    ∃ front last, texts = front ++ [last] ∧ Kind.ofText last = kind := by
  rcases List.eq_nil_or_concat texts with rfl | ⟨front, last, rfl⟩
  · simp at h
  · refine ⟨front, last, List.concat_eq_append, ?_⟩
    simpa [List.concat_eq_append, Line.numberedFrom_append, after_append, next] using h

/-! ## What can be wrong with a line -/

/-- The five ways in which blank lines are misplaced or missing. -/
inductive Flaw (c : Context) (line : Line) : Finding → Prop
  /-- Entries do not follow a blank line. -/
  | blankBeforeEntry (hkind : line.kind = .entry) (hprevious : c.previous = some .blank) :
      Flaw c line (.strayBlank (line.number - 1))
  /-- Blank lines come one at a time. -/
  | blankAfterBlank (hkind : line.kind = .blank) (hprevious : c.previous = some .blank) :
      Flaw c line (.strayBlank line.number)
  /-- The first group stands right under its release. -/
  | blankUnderRelease (hkind : line.kind = .group) (hprevious : c.previous = some .blank)
      (htwoBack : c.twoBack = some .release) : Flaw c line (.strayBlank (line.number - 1))
  /-- A release that is not the first line follows a blank one. -/
  | crowdedRelease {kind : Kind} (hkind : line.kind = .release) (hprevious : c.previous = some kind)
      (hne : kind ≠ .blank) : Flaw c line (.missingBlank line.number)
  /-- A group follows a blank line, its release or a merge marker. -/
  | crowdedGroup {kind : Kind} (hkind : line.kind = .group) (hprevious : c.previous = some kind)
      (hne : kind ≠ .blank ∧ kind ≠ .release ∧ kind ≠ .marker) :
      Flaw c line (.missingBlank line.number)

theorem flaw_of_spacingOf {c : Context} {line : Line} {f : Finding}
    (h : spacingOf line c.previous c.twoBack = some f) : c.Flaw line f := by
  unfold spacingOf at h
  split at h
  · rename_i hkind hprevious
    obtain rfl := Option.some.inj h
    exact .blankBeforeEntry hkind hprevious
  · rename_i hkind hprevious
    obtain rfl := Option.some.inj h
    exact .blankAfterBlank hkind hprevious
  · rename_i kind hkind hprevious
    split at h
    · simp at h
    · rename_i hne
      obtain rfl := Option.some.inj h
      exact .crowdedRelease hkind hprevious hne
  · rename_i hkind hprevious
    split at h
    · rename_i htwoBack
      obtain rfl := Option.some.inj h
      exact .blankUnderRelease hkind hprevious htwoBack
    · simp at h
  · rename_i kind hblank hkind hprevious
    split at h
    · simp at h
    · rename_i hne
      obtain ⟨hrelease, hmarker⟩ := not_or.mp hne
      obtain rfl := Option.some.inj h
      refine .crowdedGroup hkind hprevious ⟨?_, hrelease, hmarker⟩
      rintro rfl
      exact hblank rfl
  · simp at h

theorem spacingOf_of_flaw {c : Context} {line : Line} {f : Finding} (h : c.Flaw line f) :
    spacingOf line c.previous c.twoBack = some f := by
  cases h with
  | blankBeforeEntry hkind hprevious => simp only [spacingOf, hkind, hprevious]
  | blankAfterBlank hkind hprevious => simp only [spacingOf, hkind, hprevious]
  | blankUnderRelease hkind hprevious htwoBack =>
      simp only [spacingOf, hkind, hprevious, htwoBack, if_true]
  | crowdedRelease hkind hprevious hne => simp only [spacingOf, hkind, hprevious, if_neg hne]
  | @crowdedGroup kind hkind hprevious hne =>
      obtain ⟨hblank, hrelease, hmarker⟩ := hne
      cases kind with
      | blank => exact (hblank rfl).elim
      | release => exact (hrelease rfl).elim
      | marker => exact (hmarker rfl).elim
      | _ => simp [spacingOf, hkind, hprevious]

/-- In the body, and only there, a line is found wrong in one of the five ways. -/
theorem flaw?_eq_some_iff {c : Context} {line : Line} {f : Finding} :
    c.flaw? line = some f ↔ (c.next line).inBody = true ∧ c.Flaw line f := by
  unfold flaw?
  split
  · rename_i hbody
    exact ⟨fun h => ⟨hbody, flaw_of_spacingOf h⟩, fun h => spacingOf_of_flaw h.2⟩
  · rename_i hbody
    exact ⟨fun h => by simp at h, fun h => (hbody h.1).elim⟩

theorem flaw?_eq_none {c : Context} {line : Line} (h : ∀ f, ¬ c.Flaw line f) :
    c.flaw? line = none := by
  cases hflaw : c.flaw? line with
  | none => rfl
  | some f => exact (h f (flaw?_eq_some_iff.mp hflaw).2).elim

/-! ## How many findings there are -/

theorem length_findings_cons (c : Context) (line : Line) (lines : List Line) :
    (c.findings (line :: lines)).length =
      (c.flaw? line).toList.length + ((c.next line).findings lines).length := by
  rw [findings_cons, List.length_append]

theorem length_flaw?_le (c : Context) (line : Line) : (c.flaw? line).toList.length ≤ 1 := by
  cases c.flaw? line <;> simp

/-- Numbers do not matter to whether a line is wrong. -/
theorem exists_flaw?_ofText {c : Context} {m : Nat} {text : Text} {f : Finding} (n : Nat)
    (h : c.flaw? (.ofText m text) = some f) : ∃ g, c.flaw? (.ofText n text) = some g := by
  obtain ⟨hbody, hflaw⟩ := flaw?_eq_some_iff.mp h
  have hother : ∃ g, c.Flaw (.ofText n text) g := by
    cases hflaw with
    | blankBeforeEntry hkind hprevious => exact ⟨_, .blankBeforeEntry hkind hprevious⟩
    | blankAfterBlank hkind hprevious => exact ⟨_, .blankAfterBlank hkind hprevious⟩
    | blankUnderRelease hkind hprevious htwoBack =>
        exact ⟨_, .blankUnderRelease hkind hprevious htwoBack⟩
    | crowdedRelease hkind hprevious hne => exact ⟨_, .crowdedRelease hkind hprevious hne⟩
    | crowdedGroup hkind hprevious hne => exact ⟨_, .crowdedGroup hkind hprevious hne⟩
  obtain ⟨g, hg⟩ := hother
  exact ⟨g, flaw?_eq_some_iff.mpr ⟨hbody, hg⟩⟩

theorem length_flaw?_ofText (c : Context) (m n : Nat) (text : Text) :
    (c.flaw? (.ofText m text)).toList.length = (c.flaw? (.ofText n text)).toList.length := by
  cases hm : c.flaw? (.ofText m text) with
  | none =>
      cases hn : c.flaw? (.ofText n text) with
      | none => rfl
      | some g =>
          obtain ⟨f, hf⟩ := exists_flaw?_ofText m hn
          simp [hm] at hf
  | some f =>
      obtain ⟨g, hg⟩ := exists_flaw?_ofText n hm
      rw [hg]
      rfl

theorem length_findings_numberedFrom (c : Context) (m n : Nat) (texts : List Text) :
    (c.findings (Line.numberedFrom m texts)).length =
      (c.findings (Line.numberedFrom n texts)).length := by
  induction texts generalizing c m n with
  | nil => rfl
  | cons text rest ih =>
      simp only [Line.numberedFrom_cons, length_findings_cons]
      rw [length_flaw?_ofText c m n, ih (c.next (.ofText m text)) (m + 1) (n + 1)]
      rfl

/-! ## A blank line more or less -/

/-- The kind of the line before the last one matters to at most the next line. -/
theorem length_findings_twoBack (c : Context) (twoBack : Option Kind) (lines : List Line) :
    (c.findings lines).length ≤ (findings { c with twoBack := twoBack } lines).length + 1 := by
  cases lines with
  | nil => simp
  | cons line lines =>
      have hflaw := length_flaw?_le c line
      have htail : (c.next line).findings lines =
          (next { c with twoBack := twoBack } line).findings lines := rfl
      rw [length_findings_cons, length_findings_cons, htail]
      omega

/-- The line before the last one matters only if it is a release and the last one is blank. -/
theorem Flaw.of_previous {c d : Context} {line : Line} {f : Finding}
    (hprevious : d.previous = c.previous)
    (htwoBack : c.previous = some .blank → c.twoBack = some .release → d.twoBack = some .release)
    (h : c.Flaw line f) : d.Flaw line f := by
  cases h with
  | blankBeforeEntry hkind hblank => exact .blankBeforeEntry hkind (hprevious.trans hblank)
  | blankAfterBlank hkind hblank => exact .blankAfterBlank hkind (hprevious.trans hblank)
  | blankUnderRelease hkind hblank hrelease =>
      exact .blankUnderRelease hkind (hprevious.trans hblank) (htwoBack hblank hrelease)
  | crowdedRelease hkind hkinds hne => exact .crowdedRelease hkind (hprevious.trans hkinds) hne
  | crowdedGroup hkind hkinds hne => exact .crowdedGroup hkind (hprevious.trans hkinds) hne

theorem findings_twoBack {c : Context} (hne : c.previous ≠ some .blank) (twoBack : Option Kind)
    (lines : List Line) : findings { c with twoBack := twoBack } lines = c.findings lines := by
  cases lines with
  | nil => rfl
  | cons line lines =>
      have hflaw : flaw? { c with twoBack := twoBack } line = c.flaw? line := by
        apply Option.ext
        intro f
        rw [flaw?_eq_some_iff, flaw?_eq_some_iff]
        exact and_congr_right fun _ => ⟨.of_previous rfl fun hblank => (hne hblank).elim,
          .of_previous rfl fun hblank => (hne hblank).elim⟩
      rw [findings_cons, findings_cons, hflaw]
      rfl

/-- Past a line that is not blank itself, a blank line in front of it no longer matters. -/
theorem findings_next_next {c : Context} {blank line : Line} (hopens : blank.opensBody = false)
    (hkind : line.kind ≠ .blank) (lines : List Line) :
    ((c.next blank).next line).findings lines = (c.next line).findings lines := by
  have hnext : (c.next blank).next line = { c.next line with twoBack := some blank.kind } := by
    simp [next, hopens]
  have hprevious : (c.next line).previous ≠ some .blank := by
    simpa [next] using hkind
  rw [hnext, findings_twoBack hprevious]

/-- Without a blank line that is wrong itself, or makes the next line wrong, there are no more
findings than with it. -/
theorem length_findings_erase {c : Context} {blank : Line} {rest : List Line}
    (hblank : blank.kind = .blank) (hopens : blank.opensBody = false)
    (h : (∃ f, c.flaw? blank = some f) ∨
      ∃ line lines f, rest = line :: lines ∧ line.kind ≠ .blank ∧
        (c.next blank).flaw? line = some f) :
    (c.findings rest).length ≤ (c.findings (blank :: rest)).length := by
  rw [length_findings_cons]
  rcases h with ⟨f, hf⟩ | ⟨line, lines, f, rfl, hkind, hf⟩
  · have hprevious : c.previous = some .blank := by
      cases (flaw?_eq_some_iff.mp hf).2 with
      | blankAfterBlank _ hprevious => exact hprevious
      | blankBeforeEntry hkind | blankUnderRelease hkind | crowdedRelease hkind
      | crowdedGroup hkind => simp [hblank] at hkind
    have hnext : c.next blank = { c with twoBack := some .blank } := by
      obtain ⟨inBody, previous, twoBack⟩ := c
      obtain rfl : previous = some .blank := hprevious
      simp [next, hblank, hopens]
    have hmore := length_findings_twoBack c (some .blank) rest
    rw [hf, hnext]
    simp only [Option.toList_some, List.length_singleton]
    omega
  · have hline := length_flaw?_le c line
    rw [length_findings_cons, length_findings_cons, findings_next_next hopens hkind, hf]
    simp only [Option.toList_some, List.length_singleton]
    omega

/-- A blank line in front of a line that misses it leaves one finding less. -/
theorem length_findings_insert {c : Context} {blank line : Line} {lines : List Line} {n : Nat}
    (hblank : blank.kind = .blank) (hopens : blank.opensBody = false)
    (h : c.flaw? line = some (.missingBlank n)) :
    (c.findings (blank :: line :: lines)).length < (c.findings (line :: lines)).length := by
  obtain ⟨kind, hprevious, hkept, hline⟩ : ∃ kind, c.previous = some kind ∧ kind ≠ .blank ∧
      (line.kind = .release ∨ line.kind = .group ∧ kind ≠ .release) := by
    cases (flaw?_eq_some_iff.mp h).2 with
    | crowdedRelease hkind hprevious hne => exact ⟨_, hprevious, hne, .inl hkind⟩
    | crowdedGroup hkind hprevious hne => exact ⟨_, hprevious, hne.1, .inr ⟨hkind, hne.2.1⟩⟩
  have hfirst : c.flaw? blank = none := by
    apply flaw?_eq_none
    intro f hf
    cases hf with
    | blankAfterBlank _ hafter => exact hkept (Option.some.inj (hprevious.symm.trans hafter))
    | blankBeforeEntry hkind | blankUnderRelease hkind | crowdedRelease hkind
    | crowdedGroup hkind => simp [hblank] at hkind
  have hsecond : (c.next blank).flaw? line = none := by
    have hfollows : some Kind.blank = (c.next blank).previous := by rw [next, hblank]
    apply flaw?_eq_none
    intro f hf
    cases hf with
    | blankBeforeEntry hkind | blankAfterBlank hkind => simp [hkind] at hline
    | blankUnderRelease hkind _ htwoBack =>
        have hrelease : kind = .release := Option.some.inj (hprevious.symm.trans htwoBack)
        simp [hkind, hrelease] at hline
    | crowdedRelease _ hafter hne => exact hne (Option.some.inj (hfollows.trans hafter)).symm
    | crowdedGroup _ hafter hne => exact hne.1 (Option.some.inj (hfollows.trans hafter)).symm
  have hkind : line.kind ≠ .blank := by
    rcases hline with hkind | ⟨hkind, -⟩ <;> simp [hkind]
  rw [length_findings_cons, length_findings_cons, length_findings_cons, hfirst, hsecond, h,
    findings_next_next hopens hkind]
  simp

end Context

end ReleaseLog.Check
