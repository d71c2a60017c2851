import ReleaseLog.Proofs.Attribution
import ReleaseLog.Proofs.Occurrences

/-!
# Where findings point

Every finding of a rule points at a line that the changelog has. A repeated version has the lines of
at least two of its headings, in ascending order, and points at the second.
-/

namespace ReleaseLog

/-- These are lines with headings of the version, at least two and in ascending order. -/
structure Repetition (texts : List Text) (version : Text) (lines : List Nat) : Prop where
  two_le : 2 ≤ lines.length
  ascending : lines.Pairwise (· < ·)
  heads : ∀ n ∈ lines, 1 ≤ n ∧
    ∃ text, texts[n - 1]? = some text ∧ Check.version? (.ofText n text) = some version

namespace Check

theorem pairwise_linesOf {lines : List Line} (h : lines.Pairwise (·.number < ·.number))
    (v : Text) : (linesOf v lines).Pairwise (· < ·) := by
  rw [linesOf, List.pairwise_map]
  exact h.sublist List.filter_sublist

theorem repetition_of_mem_repeatedVersions {texts : List Text} {v : Text}
    (h : v ∈ repeatedVersions (Line.ofTexts texts)) :
    Repetition texts v (linesOf v (Line.ofTexts texts)) where
  two_le := mem_repeatedVersions.mp h
  ascending := pairwise_linesOf (Line.pairwise_numberedFrom 1 texts) v
  heads := by
    intro n hn
    obtain ⟨line, hline, hversion, rfl⟩ := mem_linesOf.mp hn
    obtain ⟨i, text, htext, rfl⟩ := Line.mem_numberedFrom.mp hline
    rw [Line.number_ofText, Nat.add_sub_cancel_left]
    exact ⟨Nat.le_add_right 1 i, text, htext, hversion⟩

end Check

namespace Rule

theorem exists_second_of_mem_findings {texts : List Text} {f : Finding}
    (h : f ∈ duplicateVersions.findings (Line.ofTexts texts)) :
    ∃ v ns n, f = .repeatedVersion v ns ∧ Repetition texts v ns ∧ ns[1]? = some n ∧ n ∈ ns := by
  have hrepeats : f ∈ Check.repeats (Line.ofTexts texts) := h
  rw [Check.repeats_ofTexts] at hrepeats
  obtain ⟨v, hv, rfl⟩ := List.mem_map.mp hrepeats
  have hrepetition := Check.repetition_of_mem_repeatedVersions hv
  have hsecond := List.getElem?_eq_getElem (Nat.lt_of_succ_le hrepetition.two_le)
  exact ⟨v, _, _, rfl, hrepetition, hsecond, List.mem_of_getElem? hsecond⟩

theorem exists_marker_of_mem_findings {texts : List Text} {f : Finding}
    (h : f ∈ gitConflicts.findings (Line.ofTexts texts)) :
    ∃ i text, f = .mergeLeftover (1 + i) text ∧ texts[i]? = some text := by
  obtain ⟨line, hline, rfl⟩ := List.mem_map.mp h
  obtain ⟨i, text, htext, rfl⟩ := Line.mem_numberedFrom.mp (List.mem_filter.mp hline).1
  exact ⟨i, text, rfl, htext⟩

theorem exists_place_of_mem_findings {texts : List Text} {f : Finding}
    (h : f ∈ whitespace.findings (Line.ofTexts texts)) :
    ∃ i text, f.line? = some (1 + i) ∧ texts[i]? = some text := by
  obtain ⟨front, text, back, rfl, hflaw⟩ := exists_flaw_of_mem_findings h
  have hself : (front ++ text :: back)[front.length]? = some text := by simp
  have hbefore : (Check.Context.after {} (Line.ofTexts front)).previous = some .blank →
      ∃ i before, 1 + front.length - 1 = 1 + i ∧
        (front ++ text :: back)[i]? = some before := by
    intro hprevious
    obtain ⟨first, blank, rfl, -⟩ := Check.Context.exists_of_previous hprevious
    exact ⟨first.length, blank, by simp [Nat.add_comm], by simp⟩
  cases (Check.Context.flaw?_eq_some_iff.mp hflaw).2 with
  | blankBeforeEntry _ hprevious | blankUnderRelease _ hprevious _ =>
      obtain ⟨i, before, hnumber, hget⟩ := hbefore hprevious
      exact ⟨i, before, congrArg some hnumber, hget⟩
  | blankAfterBlank _ _ | crowdedRelease _ _ _ | crowdedGroup _ _ _ =>
      exact ⟨front.length, text, rfl, hself⟩

/-- Every finding points at a line that there is. -/
theorem exists_line_of_mem_findings {r : Rule} {texts : List Text} {f : Finding}
    (h : f ∈ r.findings (Line.ofTexts texts)) :
    ∃ n text, f.line? = some n ∧ 1 ≤ n ∧ texts[n - 1]? = some text := by
  cases r with
  | duplicateVersions =>
      obtain ⟨v, ns, n, rfl, hrepetition, hsecond, hmem⟩ := exists_second_of_mem_findings h
      obtain ⟨hn, text, htext, -⟩ := hrepetition.heads n hmem
      exact ⟨n, text, by simp [Finding.line?, hsecond], hn, htext⟩
  | gitConflicts =>
      obtain ⟨i, text, rfl, htext⟩ := exists_marker_of_mem_findings h
      exact ⟨1 + i, text, rfl, Nat.le_add_right 1 i, by rwa [Nat.add_sub_cancel_left]⟩
  | whitespace =>
      obtain ⟨i, text, hline, htext⟩ := exists_place_of_mem_findings h
      exact ⟨1 + i, text, hline, Nat.le_add_right 1 i, by rwa [Nat.add_sub_cancel_left]⟩

end Rule

end ReleaseLog
