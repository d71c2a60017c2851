import ReleaseLog.Proofs.Failure
import ReleaseLog.Report

/-!
# Which reports can be written

Text can be written of all reports. JSON can be written where each changelog with findings has a
well-formed path.
-/

namespace ReleaseLog

namespace Report

theorem mem_entries {reports : List Report} {path : Path} {f : Finding} :
    (path, f) ∈ entries reports ↔ ∃ v, ⟨path, v⟩ ∈ reports ∧ f ∈ v.findings := by
  simp only [entries, List.mem_flatMap, List.mem_map, Prod.mk.injEq]
  constructor
  · rintro ⟨report, hreport, g, hg, rfl, rfl⟩
    exact ⟨report.verdict, hreport, hg⟩
  · rintro ⟨v, hreport, hf⟩
    exact ⟨_, hreport, f, hf, rfl, rfl⟩

/-- Each changelog with findings has a path that JSON can name. -/
def Nameable (reports : List Report) : Prop :=
  ∀ entry ∈ entries reports, entry.1.text?.isSome = true

theorem exists_entryJson_iff {path : Path} {f : Finding} :
    (∃ value, entryJson path f = .ok value) ↔ path.text?.isSome = true := by
  rw [entryJson]
  cases path.text? with
  | none => simp
  | some file => simp

theorem json_eq (reports : List Report) :
    json reports =
      ((entries reports).mapM fun entry => entryJson entry.1 entry.2).map .arr := by
  have hjson : json reports =
      ((entries reports).mapM fun entry => entryJson entry.1 entry.2) >>= fun items =>
        .ok (.arr items) := rfl
  rw [hjson]
  cases (entries reports).mapM fun entry => entryJson entry.1 entry.2 <;> rfl

theorem exists_json_iff {reports : List Report} :
    (∃ value, json reports = .ok value) ↔ Nameable reports := by
  have hitems : (∃ value, json reports = .ok value) ↔
      ∃ items, ((entries reports).mapM fun entry => entryJson entry.1 entry.2) = .ok items := by
    rw [json_eq]
    cases (entries reports).mapM fun entry => entryJson entry.1 entry.2 with
    | error e => simp [Except.map]
    | ok items => simp [Except.map]
  rw [hitems, exists_mapM_iff]
  simp only [exists_entryJson_iff, Nameable]

/-- Reports are written or refused for a malformed path. -/
theorem exists_render_iff {format : Format} {reports : List Report} :
    (∃ s, render format reports = .ok s) ↔ (format = .json → Nameable reports) := by
  cases format with
  | text => simp [render]
  | json =>
      rw [render, ← exists_json_iff]
      cases json reports with
      | error e => simp [Except.map]
      | ok value => simp [Except.map]

end Report

end ReleaseLog
