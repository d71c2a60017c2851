import ReleaseLog.Editor.Encoding
import ReleaseLog.Proofs.Location
import ReleaseLog.Proofs.Rendering
import ReleaseLog.Proofs.Text.Encoded
import ReleaseLog.Report
import ReleaseLog.Run
import Mathlib.Algebra.Group.Nat.Defs
import Mathlib.Data.List.Forall2

/-!
# Editors and reports agree

An editor shows each finding on a line that the document has, over its whole length. A JSON report
on the same text lists the same findings in the same order.
-/

namespace ReleaseLog.Editor

/-- The finding points at line `n` of the document, and is shown on all of it and nothing else. A
repeated version points at the second of its headings. -/
structure Located (lines : List Text) (f : Finding) (n : Nat) : Prop where
  points : f.line? = some n
  one_le : 1 ≤ n
  le_length : n ≤ lines.length
  shown : ∃ text, lines[n - 1]? = some text ∧
    (Diagnostic.ofFinding lines f).range = ⟨⟨n - 1, 0⟩, ⟨n - 1, text.units⟩⟩
  second : ∀ v ns, f = .repeatedVersion v ns → Repetition lines v ns ∧ ns[1]? = some n

theorem Located.of_mem_findings {r : Rule} {lines : List Text} {f : Finding}
    (hlength : lines.length < 2 ^ 32) (hunits : ∀ text ∈ lines, text.units < 2 ^ 32)
    (h : f ∈ r.findings (Line.ofTexts lines)) : ∃ n, Located lines f n := by
  obtain ⟨n, text, hline, hn, htext⟩ := Rule.exists_line_of_mem_findings h
  have hlt : n - 1 < lines.length := (List.getElem?_eq_some_iff.mp htext).1
  have hrange : (Diagnostic.ofFinding lines f).range = ⟨⟨n - 1, 0⟩, ⟨n - 1, text.units⟩⟩ := by
    simp only [Diagnostic.ofFinding, hline, Option.getD_some, htext, Range.lines]
    rw [Position.cut_of_lt (by omega) (by omega),
      Position.cut_of_lt (by omega) (hunits text (List.mem_of_getElem? htext))]
  refine ⟨n, hline, hn, by omega, ⟨text, htext, hrange⟩, ?_⟩
  rintro v ns rfl
  obtain rfl : r = .duplicateVersions := by
    simpa [Finding.rule?] using (Rule.rule?_of_mem_findings h).symm
  obtain ⟨w, ms, m, heq, hrepetition, hsecond, -⟩ := Rule.exists_second_of_mem_findings h
  obtain ⟨rfl, rfl⟩ := Finding.repeatedVersion.inj heq
  have hnm : m = n := by simpa [Finding.line?, hsecond] using hline
  exact ⟨hrepetition, hnm ▸ hsecond⟩

/-! ## The written forms -/

/-- What an editor is shown and what a report lists are the same finding: they have the same
wording, line, severity and rule, each in its own form. -/
structure Agrees (published entry : Json) : Prop where
  message : ∃ message, published.field? "message" = some (.str message) ∧
    entry.field? "message" = some (.str message)
  line : ∃ range start n, published.field? "range" = some range ∧
    range.field? "start" = some start ∧ start.field? "line" = some (.ofNat n) ∧
    entry.field? "line" = some (.ofNat (n + 1))
  severity : published.field? "severity" = some (.int 1) ∧
      entry.field? "severity" = some (.ofString "error") ∨
    published.field? "severity" = some (.int 2) ∧
      entry.field? "severity" = some (.ofString "warning")
  rule : ∃ r : Rule, published.field? "code" = some (.str r.name) ∧
    entry.field? "rule" = some (.str r.name)

theorem Diagnostic.json_of_code {d : Diagnostic} {r : Rule} (h : d.code = some r) :
    d.json = .obj [("range".toList, d.range.json),
      ("severity".toList, .ofNat (severityNumber d.severity)), ("code".toList, .str r.name),
      ("source".toList, .str source), ("message".toList, .str d.message)] := by
  rw [Diagnostic.json, h]
  rfl

theorem exists_entry_agrees {lines : List Text} {f : Finding} {n : Nat} {r : Rule}
    (h : Located lines f n) (hr : f.rule? = some r) {path : Path} {file : Text}
    (hpath : path.text? = some file) :
    ∃ entry, Report.entryJson path f = .ok entry ∧
      Agrees (Diagnostic.ofFinding lines f).json entry := by
  have hpublished := Diagnostic.json_of_code (d := .ofFinding lines f) hr
  obtain ⟨text, -, hrange⟩ := h.shown
  rw [hrange] at hpublished
  refine ⟨_, by rw [Report.entryJson, hpath], ?_⟩
  rw [hpublished, h.points, hr]
  refine ⟨⟨f.message, rfl, rfl⟩, ⟨_, _, n - 1, rfl, rfl, rfl, ?_⟩, ?_, ⟨r, rfl, rfl⟩⟩
  · rw [Nat.sub_add_cancel h.one_le]
    rfl
  · have hseverity : (Diagnostic.ofFinding lines f).severity = f.severity := rfl
    rw [hseverity]
    cases f.severity with
    | error => exact .inl ⟨rfl, rfl⟩
    | warning => exact .inr ⟨rfl, rfl⟩

/-! ## The same text in both -/

theorem reports_of_encoded {rules : RuleSet} {text : Text} {disk : Disk} {path : Path}
    (hdisk : disk.read? path = some (Utf8.encode text)) :
    Run.reports disk rules [path] = [⟨path, rules.checkText text⟩] := by
  simp only [Run.reports, List.map_cons, List.map_nil, hdisk, RuleSet.checkContent,
    Utf8.decodeLossy_encode]

/-- Lines are numbered from one, so that one can be taken off each number. Findings have lines that
exist, and the editor lists them in the same order as the report on a file with the same text. -/
theorem diagnostics_agree_with_report {rules : RuleSet} {text : Text} {disk : Disk} {path : Path}
    {file : Text} (hlength : text.lines.length < 2 ^ 32)
    (hunits : ∀ line ∈ text.lines, line.units < 2 ^ 32) (hpath : path.text? = some file)
    (hdisk : disk.read? path = some (Utf8.encode text)) :
    (∀ line ∈ Line.ofTexts text.lines, 1 ≤ line.number) ∧
    (∀ f ∈ (rules.checkText text).findings, ∃ n, Located text.lines f n) ∧
    ∃ entries, Report.json (Run.reports disk rules [path]) = .ok (.arr entries) ∧
      Report.render .json (Run.reports disk rules [path]) = .ok (Json.pretty 0 (.arr entries)) ∧
      List.Forall₂ Agrees ((Diagnostic.ofText rules text).map (·.json)) entries := by
  refine ⟨fun line hline => (Line.le_number_of_mem_numberedFrom hline).1, ?_, ?_⟩
  · intro f hf
    obtain ⟨r, -, hmem⟩ := RuleSet.mem_findings_checkLines.mp hf
    exact Located.of_mem_findings hlength hunits hmem
  · have hentries : ∀ x ∈ Report.entries (Run.reports disk rules [path]), ∃ entry,
        Report.entryJson x.1 x.2 = .ok entry ∧
          Agrees (Diagnostic.ofFinding text.lines x.2).json entry := by
      intro x hx
      simp only [Report.entries, reports_of_encoded hdisk, List.flatMap_cons, List.flatMap_nil,
        List.append_nil, List.mem_map] at hx
      obtain ⟨f, hf, rfl⟩ := hx
      obtain ⟨r, -, hmem⟩ := RuleSet.mem_findings_checkLines.mp hf
      obtain ⟨n, hlocated⟩ := Located.of_mem_findings hlength hunits hmem
      exact exists_entry_agrees hlocated (Rule.rule?_of_mem_findings hmem) hpath
    obtain ⟨entries, hmapM, hagree⟩ := exists_mapM_of_forall hentries
    have hjson : Report.json (Run.reports disk rules [path]) = .ok (.arr entries) := by
      rw [Report.json, hmapM]
      rfl
    refine ⟨entries, hjson, by rw [Report.render, hjson]; rfl, ?_⟩
    have hdiagnostics : (Diagnostic.ofText rules text).map (·.json) =
        (Report.entries (Run.reports disk rules [path])).map fun x =>
          (Diagnostic.ofFinding text.lines x.2).json := by
      simp [Diagnostic.ofText, Report.entries, reports_of_encoded hdisk]
    rw [hdiagnostics, List.forall₂_map_left_iff]
    exact hagree

/-- A changelog with findings of every rule and a character outside the basic plane. -/
def crowded : Text :=
  "## [1.0.0] - 2019-02-15\n\n### Added 🎉\n=======\n## [1.0.0] - 2019-02-15\n".toList

theorem crowded_agrees :
    crowded.lines.length < 2 ^ 32 ∧ (∀ line ∈ crowded.lines, line.units < 2 ^ 32) ∧
    (Path.ofString "C.md").text? = some "C.md".toList ∧
    (({} : RuleSet).checkText crowded).findings.map (·.line?) =
      [some 5, some 4, some 2, some 5] ∧
    (∀ f ∈ (({} : RuleSet).checkText crowded).findings, ∃ n, Located crowded.lines f n) ∧
    ∃ entries, List.Forall₂ Agrees ((Diagnostic.ofText {} crowded).map (·.json)) entries := by
  have hlength : crowded.lines.length < 2 ^ 32 := by decide
  have hunits : ∀ line ∈ crowded.lines, line.units < 2 ^ 32 := by decide
  have hpath : (Path.ofString "C.md").text? = some "C.md".toList := by decide
  obtain ⟨-, hlocated, entries, -, -, hagree⟩ :=
    @diagnostics_agree_with_report {} crowded
      ⟨fun _ => some (Utf8.encode crowded), fun _ => true⟩ (.ofString "C.md") "C.md".toList
      hlength hunits hpath rfl
  exact ⟨hlength, hunits, hpath, by decide +kernel, hlocated, entries, hagree⟩

end ReleaseLog.Editor
