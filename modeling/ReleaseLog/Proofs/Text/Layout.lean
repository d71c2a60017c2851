import ReleaseLog.Editor.Diagnostic
import ReleaseLog.Editor.Outline
import Mathlib.Logic.ExistsUnique

/-!
# Layouts

A layout is a text cut at its terminators. Each text has exactly one layout, and its lines are the
lines of the layout. So nothing that is read off the lines of a changelog depends on how they end.
-/

namespace ReleaseLog

namespace Text

/-- What ends a line. -/
inductive Stop
  | feed
  | returnFeed
  | loneReturn
deriving DecidableEq, Repr

def Stop.text : Stop → Text
  | .feed => ['\n']
  | .returnFeed => ['\r', '\n']
  | .loneReturn => ['\r']

/-- There is no line feed and no carriage return. -/
def Unbroken (s : Text) : Prop :=
  '\n' ∉ s ∧ '\r' ∉ s

instance (s : Text) : Decidable (Unbroken s) :=
  inferInstanceAs (Decidable (_ ∧ _))

/-- Lines with their terminators, and what follows the last of these. -/
inductive Layout
  | rest (s : Text)
  | line (s : Text) (stop : Stop) (more : Layout)
deriving DecidableEq, Repr

namespace Layout

def text : Layout → Text
  | rest s => s
  | line s stop more => s ++ (stop.text ++ more.text)

/-- The lines of a layout. What follows the last terminator is a line unless it is empty. -/
def lines : Layout → List Text
  | rest s => if s = [] then [] else [s]
  | line s _ more => s :: more.lines

/-- Only terminators break the text, and no line feed follows a carriage return that ends a line by
itself. -/
def WellFormed : Layout → Prop
  | rest s => Unbroken s
  | line s stop more =>
    Unbroken s ∧ (stop = .loneReturn → more.text.head? ≠ some '\n') ∧ more.WellFormed

instance decidableWellFormed : (p : Layout) → Decidable p.WellFormed
  | rest s => inferInstanceAs (Decidable (Unbroken s))
  | line _ _ more =>
    have := decidableWellFormed more
    inferInstanceAs (Decidable (_ ∧ _ ∧ _))

end Layout

/-! ## Texts without breaks -/

theorem unbroken_nil : Unbroken [] := by
  simp [Unbroken]

theorem unbroken_cons {c : Char} {s : Text} :
    Unbroken (c :: s) ↔ (c ≠ '\n' ∧ c ≠ '\r') ∧ Unbroken s := by
  simp only [Unbroken, List.mem_cons, not_or, ne_eq, eq_comm (a := c)]
  exact and_and_and_comm

theorem lines_of_unbroken {s : Text} (h : Unbroken s) : s.lines = if s = [] then [] else [s] := by
  induction s with
  | nil => exact lines_nil
  | cons c s ih =>
      obtain ⟨⟨hn, hr⟩, hs⟩ := unbroken_cons.mp h
      rw [lines_cons hn hr, ih hs]
      cases s with
      | nil => rfl
      | cons d s => rfl

/-! ## Reading one line -/

/-- A terminator ends an empty line in front of the others. -/
theorem lines_stop {stop : Stop} {s : Text} (h : stop = .loneReturn → s.head? ≠ some '\n') :
    (stop.text ++ s).lines = [] :: s.lines := by
  cases stop with
  | feed => exact lines_feed s
  | returnFeed => exact lines_return_feed s
  | loneReturn =>
      apply lines_return
      rintro t rfl
      exact h rfl rfl

/-- The first line ends at the first terminator, and the others are those of what follows. -/
theorem lines_line {line s : Text} {stop : Stop} (hline : Unbroken line)
    (h : stop = .loneReturn → s.head? ≠ some '\n') :
    (line ++ (stop.text ++ s)).lines = line :: s.lines := by
  induction line with
  | nil => exact lines_stop h
  | cons c line ih =>
      obtain ⟨⟨hn, hr⟩, htail⟩ := unbroken_cons.mp hline
      rw [List.cons_append, lines_cons hn hr, ih htail]
      rfl

/-! ## Cutting off the first line -/

theorem Stop.exists_text (stop : Stop) : ∃ c t, stop.text = c :: t ∧ ¬ Unbroken [c] := by
  cases stop with
  | feed => exact ⟨'\n', [], rfl, by decide⟩
  | returnFeed => exact ⟨'\r', ['\n'], rfl, by decide⟩
  | loneReturn => exact ⟨'\r', [], rfl, by decide⟩

theorem not_unbroken_append_stop (s : Text) (stop : Stop) (x : Text) :
    ¬ Unbroken (s ++ (stop.text ++ x)) := by
  cases stop <;> simp [Unbroken, Stop.text]

/-- The first line of a text goes up to the first break. -/
theorem eq_of_append_break {s t x y : Text} {c d : Char} (hs : Unbroken s) (ht : Unbroken t)
    (hc : ¬ Unbroken [c]) (hd : ¬ Unbroken [d]) (h : s ++ c :: x = t ++ d :: y) :
    s = t ∧ c :: x = d :: y := by
  induction s generalizing t with
  | nil =>
      cases t with
      | nil => exact ⟨rfl, h⟩
      | cons e t =>
          obtain ⟨rfl, -⟩ := List.cons.inj h
          exact (hc (unbroken_cons.mpr ⟨(unbroken_cons.mp ht).1, unbroken_nil⟩)).elim
  | cons b s ih =>
      obtain ⟨hb, hs⟩ := unbroken_cons.mp hs
      cases t with
      | nil =>
          obtain ⟨rfl, -⟩ := List.cons.inj h
          exact (hd (unbroken_cons.mpr ⟨hb, unbroken_nil⟩)).elim
      | cons e t =>
          rw [List.cons_append, List.cons_append] at h
          obtain ⟨rfl, htail⟩ := List.cons.inj h
          obtain ⟨rfl, hrest⟩ := ih hs (unbroken_cons.mp ht).2 htail
          exact ⟨rfl, hrest⟩

/-- A carriage return and a line feed are one terminator, so a terminator is read in one way. -/
theorem Stop.eq_of_append {x y : Text} {first second : Stop}
    (hx : first = .loneReturn → x.head? ≠ some '\n')
    (hy : second = .loneReturn → y.head? ≠ some '\n')
    (h : first.text ++ x = second.text ++ y) : first = second ∧ x = y := by
  cases first with
  | feed => cases second <;> simp_all [Stop.text]
  | returnFeed =>
      cases second with
      | loneReturn =>
          have hfeed : '\n' :: x = y := (List.cons.inj h).2
          exact (hy rfl (by rw [← hfeed]; rfl)).elim
      | _ => simp_all [Stop.text]
  | loneReturn =>
      cases second with
      | returnFeed =>
          have hfeed : x = '\n' :: y := (List.cons.inj h).2
          exact (hx rfl (by rw [hfeed]; rfl)).elim
      | _ => simp_all [Stop.text]

namespace Layout

/-! ## The lines of a layout -/

theorem lines_text {p : Layout} (h : p.WellFormed) : p.text.lines = p.lines := by
  induction p with
  | rest s => exact lines_of_unbroken h
  | line s stop more ih =>
      obtain ⟨hs, hstop, hmore⟩ := h
      rw [text, lines_line hs hstop, ih hmore]
      rfl

/-! ## Each text has a layout -/

def push (c : Char) : Layout → Layout
  | rest s => rest (c :: s)
  | line s stop more => line (c :: s) stop more

theorem text_push (c : Char) (p : Layout) : (p.push c).text = c :: p.text := by
  cases p <;> rfl

theorem WellFormed.push {c : Char} (hn : c ≠ '\n') (hr : c ≠ '\r') {p : Layout}
    (h : p.WellFormed) : (p.push c).WellFormed := by
  cases p with
  | rest s => exact unbroken_cons.mpr ⟨⟨hn, hr⟩, h⟩
  | line s stop more =>
      obtain ⟨hs, hmore⟩ := h
      exact ⟨unbroken_cons.mpr ⟨⟨hn, hr⟩, hs⟩, hmore⟩

theorem exists_wellFormed (text : Text) : ∃ p : Layout, p.WellFormed ∧ p.text = text := by
  fun_induction Text.lines text with
  | case1 => exact ⟨rest [], unbroken_nil, rfl⟩
  | case2 s ih =>
      obtain ⟨p, hp, rfl⟩ := ih
      exact ⟨line [] .feed p, ⟨unbroken_nil, by simp, hp⟩, rfl⟩
  | case3 s ih =>
      obtain ⟨p, hp, rfl⟩ := ih
      exact ⟨line [] .returnFeed p, ⟨unbroken_nil, by simp, hp⟩, rfl⟩
  | case4 s hfeed ih =>
      obtain ⟨p, hp, rfl⟩ := ih
      refine ⟨line [] .loneReturn p, ⟨unbroken_nil, ?_, hp⟩, rfl⟩
      intro _ hhead
      obtain ⟨t, ht⟩ := List.head?_eq_some_iff.mp hhead
      exact hfeed t ht
  | case5 c s hn _ hr ih =>
      obtain ⟨p, hp, rfl⟩ := ih
      exact ⟨p.push c, hp.push hn hr, text_push c p⟩

/-! ## No text has two layouts -/

theorem eq_of_text_eq {p q : Layout} (hp : p.WellFormed) (hq : q.WellFormed)
    (h : p.text = q.text) : p = q := by
  induction p generalizing q with
  | rest s =>
      cases q with
      | rest t => exact congrArg rest h
      | line t stop more =>
          have hs : Unbroken s := hp
          rw [show s = t ++ (stop.text ++ more.text) from h] at hs
          exact (not_unbroken_append_stop _ _ _ hs).elim
  | line s first more ih =>
      obtain ⟨hs, hfirst, hmore⟩ := hp
      cases q with
      | rest t =>
          have ht : Unbroken t := hq
          rw [← show s ++ (first.text ++ more.text) = t from h] at ht
          exact (not_unbroken_append_stop _ _ _ ht).elim
      | line t second others =>
          obtain ⟨ht, hsecond, hothers⟩ := hq
          obtain ⟨c, c', hc, hbreak⟩ := first.exists_text
          obtain ⟨d, d', hd, hbreak'⟩ := second.exists_text
          have hsplit : s = t ∧ first.text ++ more.text = second.text ++ others.text := by
            rw [text, text] at h
            rw [hc, hd] at h ⊢
            exact eq_of_append_break hs ht hbreak hbreak' h
          obtain ⟨rfl, hstop⟩ := hsplit
          obtain ⟨rfl, htext⟩ := Stop.eq_of_append hfirst hsecond hstop
          rw [ih hmore hothers htext]

end Layout

/-- The lines of a text are those of its only layout. Texts with the same lines have the same
findings, diagnostics and outline, whatever terminators they have, and with or without one after the
last line. -/
theorem lines_exact (text : Text) :
    (∃! p : Layout, p.WellFormed ∧ p.text = text) ∧
    (∀ ls, ls = text.lines ↔ ∃ p : Layout, p.WellFormed ∧ p.text = text ∧ p.lines = ls) ∧
    ∀ p : Layout, p.WellFormed → p.lines = text.lines → ∀ rules : RuleSet,
      rules.checkText p.text = rules.checkText text ∧
      Editor.Outline.ofText p.text = Editor.Outline.ofText text ∧
      Editor.Diagnostic.ofText rules p.text = Editor.Diagnostic.ofText rules text := by
  obtain ⟨p, hp, rfl⟩ := Layout.exists_wellFormed text
  refine ⟨⟨p, ⟨hp, rfl⟩, fun q hq => Layout.eq_of_text_eq hq.1 hp hq.2⟩, ?_, ?_⟩
  · intro ls
    constructor
    · rintro rfl
      exact ⟨p, hp, rfl, (Layout.lines_text hp).symm⟩
    · rintro ⟨q, hq, htext, rfl⟩
      rw [← htext, Layout.lines_text hq]
  · intro q hq hlines rules
    have hsame : q.text.lines = p.text.lines := (Layout.lines_text hq).trans hlines
    refine ⟨?_, ?_, ?_⟩
    · rw [RuleSet.checkText, RuleSet.checkText, hsame]
    · rw [Editor.Outline.ofText, Editor.Outline.ofText, hsame]
    · rw [Editor.Diagnostic.ofText, Editor.Diagnostic.ofText, RuleSet.checkText, RuleSet.checkText,
        hsame]

/-- A carriage return, both terminators, and no terminator at the end. -/
def mixed : Layout :=
  .line "## [1.0.0]".toList .loneReturn <| .line [] .returnFeed <| .rest "- 🎉".toList

theorem mixed_lines_exact :
    mixed.text = "## [1.0.0]\r\r\n- 🎉".toList ∧ mixed.WellFormed ∧
    mixed.lines = lines "## [1.0.0]\n\n- 🎉\n".toList ∧
    ({} : RuleSet).checkText mixed.text =
      ({} : RuleSet).checkText "## [1.0.0]\n\n- 🎉\n".toList := by
  have hwell : mixed.WellFormed := by decide
  have hlines : mixed.lines = lines "## [1.0.0]\n\n- 🎉\n".toList := by decide
  exact ⟨by decide, hwell, hlines, ((lines_exact _).2.2 mixed hwell hlines {}).1⟩

end Text

end ReleaseLog
