import ReleaseLog.Proofs.Json.RoundTrip
import ReleaseLog.Proofs.Rendering
import ReleaseLog.Proofs.Text.Decoded

/-!
# What a JSON report lists

A JSON report is an array with one object for each finding, in the order of the findings. Each
object gives back the path of the changelog and what there is to say of the finding. There is no
such report if a changelog with findings has a malformed path, and only then.
-/

namespace ReleaseLog.Report

/-! ## One finding -/

/-- A JSON value is an object that says of a finding where it is, what it weighs, which rule it
breaks and how it is worded. -/
structure Lists (entry : Path × Finding) (item : Json) : Prop where
  names : ∃ fields, item = .obj fields ∧ fields.map Prod.fst =
    ["file".toList, "line".toList, "severity".toList, "rule".toList, "message".toList]
  file : ∃ s, item.field? "file" = some (.str s) ∧ entry.1 = .ofText s
  line : item.field? "line" =
    match entry.2.line? with
    | some line => some (.int line)
    | none => some .null
  severity : item.field? "severity" = some (.str entry.2.severity.name)
  rule : item.field? "rule" =
    match entry.2.rule? with
    | some r => some (.str r.name)
    | none => some .null
  message : item.field? "message" = some (.str entry.2.message)

/-- A finding can be listed if its changelog has a well-formed path. -/
theorem exists_entryJson_of_ofText (s : Text) (f : Finding) :
    ∃ item, entryJson (.ofText s) f = .ok item ∧ Lists (.ofText s, f) item := by
  have hfile : (Path.ofText s).text? = some s := Path.text?_eq_some_iff.mpr rfl
  rw [entryJson, hfile]
  refine ⟨_, rfl, ⟨⟨_, rfl, rfl⟩, ⟨s, rfl, rfl⟩, ?_, rfl, ?_, rfl⟩⟩
  · cases f.line? <;> rfl
  · cases f.rule? <;> rfl

/-! ## All findings -/

/-- A report without findings lists no path. The path of any other one has to be well-formed. -/
def Listable (report : Report) : Prop :=
  report.verdict.findings = [] ∨ ∃ s, report.path = .ofText s

theorem listable_iff {report : Report} :
    report.Listable ↔ ∀ f ∈ report.verdict.findings, report.path.text?.isSome = true := by
  rw [Listable, List.eq_nil_iff_forall_not_mem]
  simp only [Option.isSome_iff_exists, Path.text?_eq_some_iff]
  constructor
  · rintro (hnone | hpath) f hf
    · exact (hnone f hf).elim
    · exact hpath
  · intro h
    by_cases hpath : ∃ s, report.path = .ofText s
    · exact .inr hpath
    · exact .inl fun f hf => hpath (h f hf)

theorem nameable_iff_forall_listable {reports : List Report} :
    Nameable reports ↔ ∀ report ∈ reports, report.Listable := by
  simp only [Nameable, listable_iff, Prod.forall, mem_entries]
  constructor
  · rintro h ⟨path, v⟩ hreport f hf
    exact h path f ⟨v, hreport, hf⟩
  · rintro h path f ⟨v, hreport, hf⟩
    exact h ⟨path, v⟩ hreport f hf

theorem entries_eq_nil_iff {reports : List Report} :
    entries reports = [] ↔ allClean reports = true := by
  simp [entries, allClean, Verdict.isClean]

/-- Each finding takes a line, so the summary has a line of its own. -/
theorem exists_text_eq (reports : List Report) :
    ∃ body, text reports = body ++ summary (entries reports).length reports.length ∧
      ∀ c ∈ body.getLast?, c = '\n' := by
  refine ⟨_, rfl, ?_⟩
  obtain hnil | ⟨front, last, hlast⟩ := (entries reports).eq_nil_or_concat
  · simp [hnil]
  · rw [hlast, List.concat_eq_append, List.flatMap_append, List.flatMap_singleton]
    simp only [entryText, ← List.append_assoc, List.getLast?_concat, Option.mem_some_iff]
    rintro c rfl
    rfl

/-- The text is an array that lists the findings of all reports. Their number is the one in the
summary of the same reports. -/
structure Listing (reports : List Report) (output : Text) (items : List Json) : Prop where
  array : Json.parse? output = some (.arr items)
  lists : List.Forall₂ Lists (entries reports) items
  counted : ∃ body, text reports = body ++ summary items.length reports.length ∧
    ∀ c ∈ body.getLast?, c = '\n'
  clean : items = [] ↔ allClean reports = true

/-- What can be listed is written and read back. -/
theorem exists_listing {reports : List Report} (h : ∀ report ∈ reports, report.Listable) :
    ∃ output items, render .json reports = .ok output ∧ Listing reports output items := by
  have hentry : ∀ entry ∈ entries reports,
      ∃ item, entryJson entry.1 entry.2 = .ok item ∧ Lists entry item := by
    intro entry hentry
    have hname := nameable_iff_forall_listable.mpr h entry hentry
    obtain ⟨s, hs⟩ := Option.isSome_iff_exists.mp hname
    rw [← Prod.eta entry, Path.text?_eq_some_iff.mp hs]
    exact exists_entryJson_of_ofText s entry.2
  obtain ⟨items, hitems, hlists⟩ := exists_mapM_of_forall hentry
  have hrender : render .json reports = .ok (Json.pretty 0 (.arr items)) := by
    rw [render, json_eq, hitems]
    rfl
  have hlength := hlists.length_eq
  refine ⟨_, items, hrender, Json.parse?_pretty (.arr items), hlists, ?_, ?_⟩
  · rw [← hlength]
    exact exists_text_eq reports
  · rw [← entries_eq_nil_iff, ← List.length_eq_zero_iff, ← hlength, List.length_eq_zero_iff]

/-- A JSON report is refused exactly for a finding whose changelog has a malformed path. Every other
one is read back as what it lists. -/
theorem render_json_faithful (reports : List Report) :
    ((∃ e, render .json reports = .error e) ↔ ∃ report ∈ reports, ¬ report.Listable) ∧
      ((∀ report ∈ reports, report.Listable) →
        ∃ output items, render .json reports = .ok output ∧ Listing reports output items) := by
  refine ⟨?_, exists_listing⟩
  have hwritten : (∃ output, render .json reports = .ok output) ↔ Nameable reports := by
    simp [exists_render_iff]
  calc (∃ e, render .json reports = .error e)
      ↔ ¬ ∃ output, render .json reports = .ok output := by
        cases render .json reports <;> simp
    _ ↔ ¬ ∀ report ∈ reports, report.Listable := by rw [hwritten, nameable_iff_forall_listable]
    _ ↔ ∃ report ∈ reports, ¬ report.Listable := by simp only [not_forall, exists_prop]

/-- Reports of a file that is missing, of findings with quotes, backslashes, control characters and
characters outside of the basic plane, and of no findings below a malformed path. -/
def motley : List Report :=
  [⟨.ofString "docs/été.md", ⟨[.unreadable (.ofString "docs/été.md")]⟩⟩,
    ⟨.ofString "a \"b\\c\".md", ⟨[.mergeLeftover 3 "<<<<<<< \"\\\t\x01\x7f 𝄞😀".toList,
      .strayBlank 9]⟩⟩,
    ⟨⟨[0xFF]⟩, {}⟩]

theorem motley_listing : (∀ report ∈ motley, report.Listable) ∧
    ∃ output items, render .json motley = .ok output ∧ Listing motley output items := by
  have h : ∀ report ∈ motley, report.Listable := by
    simp only [motley, List.forall_mem_cons]
    exact ⟨.inr ⟨_, rfl⟩, .inr ⟨_, rfl⟩, .inl rfl, by simp⟩
  exact ⟨h, (render_json_faithful motley).2 h⟩

end ReleaseLog.Report
