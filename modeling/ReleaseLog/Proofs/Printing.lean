import ReleaseLog.FileSystem.Basic
import ReleaseLog.Proofs.Grouping
import ReleaseLog.Proofs.Headings
import ReleaseLog.Proofs.Listing
import ReleaseLog.Proofs.Text.Malformed
import ReleaseLog.Proofs.Wording
import Mathlib.Algebra.GroupWithZero.Nat

/-!
# The lines of a text report

A text report has one line for each finding and one for the summary. Versions and marker lines are
copied into it, but none of them has a line feed, whatever the changelog is like.
-/

namespace ReleaseLog

/-! ## Findings on one line -/

namespace Finding

/-- What a finding copies has no line feed. -/
def Plain : Finding → Prop
  | .repeatedVersion version _ => '\n' ∉ version
  | .mergeLeftover _ content => '\n' ∉ content
  | .strayBlank _ | .missingBlank _ => True
  | .unreadable path => '\n' ∉ path.display

theorem feed_not_mem_decimal (n : Nat) : '\n' ∉ Text.decimal n := fun h =>
  absurd (Text.isDigit_of_mem_decimal h) (by decide)

theorem feed_not_mem_append {s t : Text} (hs : '\n' ∉ s) (ht : '\n' ∉ t) : '\n' ∉ s ++ t :=
  fun h => (List.mem_append.mp h).elim hs ht

theorem feed_not_mem_message {f : Finding} (h : f.Plain) : '\n' ∉ f.message := by
  cases f with
  | repeatedVersion version lines =>
      have hlines : '\n' ∉ Text.joinWith ", ".toList (lines.map Text.decimal) := fun h =>
        absurd (isListed_of_mem_joinWith h) (by decide)
      have hversion := feed_not_mem_append (show '\n' ∉ "Version ".toList by decide) h
      have hwords := feed_not_mem_append hversion
        (show '\n' ∉ " appeared multiple lines @ line ".toList by decide)
      exact feed_not_mem_append hwords hlines
  | mergeLeftover line content =>
      have hplace := feed_not_mem_append
        (show '\n' ∉ "Found git merge leftover at line ".toList by decide)
        (feed_not_mem_decimal line)
      exact feed_not_mem_append (feed_not_mem_append (feed_not_mem_append hplace (by decide)) h)
        (by decide)
  | strayBlank line => exact feed_not_mem_append (by decide) (feed_not_mem_decimal line)
  | missingBlank line =>
      exact feed_not_mem_append (feed_not_mem_append (by decide) (feed_not_mem_decimal line))
        (by decide)
  | unreadable path => exact feed_not_mem_append (by decide) h

end Finding

theorem Line.feed_not_mem_of_isMarker {s : Text} (h : isMarker s = true) : '\n' ∉ s := by
  have htagged : ∀ lead : Text, '\n' ∉ lead → isTagged lead s = true → '\n' ∉ s := by
    intro lead hlead h
    rw [isTagged] at h
    split at h
    · rename_i rest hrest
      rw [Text.after?_eq_some_iff] at hrest
      simp_all
    · cases h
  simp only [isMarker, Bool.or_eq_true, beq_iff_eq] at h
  rcases h with (h | rfl) | h
  · exact htagged _ (by decide) h
  · decide
  · exact htagged _ (by decide) h

theorem Rule.plain_of_mem_findings {r : Rule} {texts : List Text} {f : Finding}
    (h : f ∈ r.findings (Line.ofTexts texts)) : f.Plain := by
  cases r with
  | duplicateVersions =>
      obtain ⟨v, ns, n, rfl, hrepetition, -, hn⟩ := exists_second_of_mem_findings h
      obtain ⟨-, text, -, hversion⟩ := hrepetition.heads n hn
      rw [Check.version?_eq, Option.map_eq_some_iff] at hversion
      obtain ⟨heading, hparse, rfl⟩ := hversion
      obtain ⟨w, hw, -, rfl⟩ := ReleaseHeading.parse?_eq_some_iff.mp hparse
      exact hw.version
  | gitConflicts =>
      obtain ⟨line, hline, rfl⟩ := List.mem_map.mp h
      obtain ⟨hline, hkind⟩ := List.mem_filter.mp hline
      obtain ⟨i, text, -, rfl⟩ := Line.mem_numberedFrom.mp hline
      have hmarker : Line.isMarker text = true := Line.fits_of_kind (of_decide_eq_true hkind)
      exact Line.feed_not_mem_of_isMarker hmarker
  | whitespace =>
      have hrule := rule?_of_mem_findings h
      cases f with
      | strayBlank | missingBlank => trivial
      | _ => cases hrule

theorem RuleSet.plain_of_mem_checkText {rules : RuleSet} {s : Text} {f : Finding}
    (h : f ∈ (rules.checkText s).findings) : f.Plain := by
  obtain ⟨r, -, hmem⟩ := mem_findings_checkLines.mp h
  exact Rule.plain_of_mem_findings hmem

theorem RuleSet.plain_of_mem_checkContent {rules : RuleSet} {path : Path} {content : Option Bytes}
    {f : Finding} (hpath : 0x0A ∉ path.bytes)
    (h : f ∈ (rules.checkContent path content).findings) : f.Plain := by
  cases content with
  | none =>
      obtain rfl := List.mem_singleton.mp h
      exact fun hfeed => hpath (Utf8.mem_of_mem_decodeLossy (by decide) hfeed)
  | some bytes => exact plain_of_mem_checkText h

/-! ## The lines of a report -/

namespace Report

/-- The verdict was reached on some text, or on what could be read at the path of the report. -/
inductive Checked (report : Report) : Prop
  | text (rules : RuleSet) (s : Text) (h : report.verdict = rules.checkText s)
  | file (rules : RuleSet) (disk : Disk)
      (h : report.verdict = rules.checkContent report.path (disk.read? report.path))

/-- The line of a finding: where it is, what it weighs and how it is worded. -/
def entryLine (path : Path) (f : Finding) : Text :=
  path.display ++ (f.line?.map (':' :: Text.decimal ·)).getD [] ++ ": ".toList ++
    f.severity.name ++ ": ".toList ++ f.message

def total (reports : List Report) : Nat :=
  (reports.map (·.verdict.size)).sum

def lines (reports : List Report) : List Text :=
  (entries reports).map (fun entry => entryLine entry.1 entry.2) ++
    [Text.decimal (total reports) ++ " problem(s) in ".toList ++ Text.decimal reports.length ++
      " file(s)".toList]

theorem length_entries (reports : List Report) : (entries reports).length = total reports := by
  simp [entries, total, Verdict.size, List.length_flatMap]

theorem length_lines (reports : List Report) : (lines reports).length = total reports + 1 := by
  rw [lines, List.length_append, List.length_map, length_entries, List.length_singleton]

theorem text_eq_lines (reports : List Report) :
    text reports = (lines reports).flatMap (· ++ ['\n']) := by
  have hentry : ∀ path f, entryText path f = entryLine path f ++ ['\n'] := by
    intro path f
    rw [entryText, entryLine]
    cases f.line? <;> rfl
  have hsummary : ∀ n m, summary n m = Text.decimal n ++ " problem(s) in ".toList ++
      Text.decimal m ++ " file(s)".toList ++ ['\n'] := by
    intro n m
    rw [List.append_assoc (_ ++ Text.decimal m)]
    rfl
  rw [text, lines, List.flatMap_append, List.flatMap_singleton, List.flatMap_map, hsummary,
    length_entries]
  simp only [hentry]

/-- Where no line has a line feed, there is one for each line. -/
theorem count_feed {lines : List Text} (h : ∀ line ∈ lines, '\n' ∉ line) :
    (lines.flatMap (· ++ ['\n'])).count '\n' = lines.length := by
  induction lines with
  | nil => rfl
  | cons line lines ih =>
      obtain ⟨hline, hlines⟩ := List.forall_mem_cons.mp h
      rw [List.flatMap_cons, List.count_append, ih hlines, List.count_append,
        List.count_eq_zero_of_not_mem hline, List.length_cons, Nat.add_comm]
      rfl

theorem feed_not_mem_entryLine {path : Path} {f : Finding} (hpath : 0x0A ∉ path.bytes)
    (hf : f.Plain) : '\n' ∉ entryLine path f := by
  have hdisplay : '\n' ∉ path.display := fun h =>
    hpath (Utf8.mem_of_mem_decodeLossy (by decide) h)
  have hplace : '\n' ∉ (f.line?.map (':' :: Text.decimal ·)).getD [] := by
    cases f.line? with
    | none => exact List.not_mem_nil
    | some n => simpa using Finding.feed_not_mem_decimal n
  have hseverity : '\n' ∉ f.severity.name := by
    cases f.severity <;> decide
  simp only [entryLine, List.mem_append, not_or]
  exact ⟨⟨⟨⟨⟨hdisplay, hplace⟩, by decide⟩, hseverity⟩, by decide⟩, Finding.feed_not_mem_message hf⟩

theorem Checked.plain {report : Report} (h : report.Checked) (hpath : 0x0A ∉ report.path.bytes)
    {f : Finding} (hf : f ∈ report.verdict.findings) : f.Plain := by
  cases h with
  | text rules s h => exact RuleSet.plain_of_mem_checkText (h ▸ hf)
  | file rules disk h => exact RuleSet.plain_of_mem_checkContent hpath (h ▸ hf)

theorem feed_not_mem_lines {reports : List Report}
    (h : ∀ report ∈ reports, report.Checked ∧ 0x0A ∉ report.path.bytes) :
    ∀ line ∈ lines reports, '\n' ∉ line := by
  intro line hline
  rcases List.mem_append.mp hline with hline | hline
  · obtain ⟨⟨path, f⟩, hentry, rfl⟩ := List.mem_map.mp hline
    obtain ⟨v, hreport, hf⟩ := mem_entries.mp hentry
    obtain ⟨hchecked, hpath⟩ := h _ hreport
    exact feed_not_mem_entryLine hpath (hchecked.plain hpath hf)
  · rw [List.mem_singleton.mp hline]
    simp only [List.mem_append, not_or]
    exact ⟨⟨⟨Finding.feed_not_mem_decimal _, by decide⟩, Finding.feed_not_mem_decimal _⟩, by decide⟩

theorem total_eq_zero_iff {reports : List Report} :
    total reports = 0 ↔ allClean reports = true := by
  rw [← length_entries, List.length_eq_zero_iff, entries_eq_nil_iff]

/-- Each finding has one line of the text, in order, and the summary has the last one. There is no
other line feed in it. Nothing but the summary is written exactly if all changelogs are clean. -/
theorem text_one_line_each {reports : List Report}
    (h : ∀ report ∈ reports, report.Checked ∧ 0x0A ∉ report.path.bytes) :
    text reports = (lines reports).flatMap (· ++ ['\n']) ∧
    (∀ line ∈ lines reports, '\n' ∉ line) ∧
    (lines reports).length = total reports + 1 ∧
    (text reports).count '\n' = total reports + 1 ∧
    (total reports = 0 ↔ allClean reports = true) := by
  have hplain := feed_not_mem_lines h
  refine ⟨text_eq_lines reports, hplain, length_lines reports, ?_, total_eq_zero_iff⟩
  rw [text_eq_lines, count_feed hplain, length_lines]

/-- Reports of a text with carriage returns and a merge marker, below a malformed path, and of a
file that is missing. -/
def ragged : List Report :=
  [⟨⟨[0x61, 0xFF]⟩, ({} : RuleSet).checkText "## [1]\r=======\r\n- a\r\r- b".toList⟩,
    ⟨.ofString "b.md", ({} : RuleSet).checkContent (.ofString "b.md") none⟩]

theorem ragged_one_line_each :
    (∀ report ∈ ragged, report.Checked ∧ 0x0A ∉ report.path.bytes) ∧
    lines ragged =
      ["a\uFFFD:2: error: Found git merge leftover at line 2: '======='".toList,
        "a\uFFFD:4: warning: Unexpected whitespace @ line 4".toList,
        "b.md: error: File does not exist: b.md".toList,
        "3 problem(s) in 2 file(s)".toList] ∧
    (text ragged).count '\n' = 4 := by
  have h : ∀ report ∈ ragged, report.Checked ∧ 0x0A ∉ report.path.bytes := by
    simp only [ragged, List.forall_mem_cons]
    exact ⟨⟨.text {} _ rfl, by decide⟩,
      ⟨.file {} ⟨fun _ => none, fun _ => false⟩ rfl, by decide⟩, by simp⟩
  have htotal : total ragged = 3 := by decide +kernel
  refine ⟨h, by decide +kernel, ?_⟩
  rw [(text_one_line_each h).2.2.2.1, htotal]

end Report

end ReleaseLog
