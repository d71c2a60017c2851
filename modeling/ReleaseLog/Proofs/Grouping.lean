import ReleaseLog.Proofs.Appending
import ReleaseLog.Proofs.Headings
import ReleaseLog.Proofs.Location

/-!
# Grouping by version

A version that heads two dated releases or more has one finding, with all its lines. Neither the
dates nor the order in which the collected versions are visited matter.
-/

namespace ReleaseLog

/-! ## Dated headings -/

namespace ReleaseHeading

theorem startsWith_of_parse? {text : Text} {heading : ReleaseHeading}
    (h : parse? text = some heading) : text.startsWith "##".toList = true := by
  obtain ⟨w, -, rfl, -⟩ := parse?_eq_some_iff.mp h
  exact Text.startsWith_iff.mpr ⟨_, w.text_eq⟩

end ReleaseHeading

/-- Line `n` is a dated heading of the version. Lines count from one. -/
def Heads (texts : List Text) (version : Text) (n : Nat) : Prop :=
  1 ≤ n ∧ ∃ text heading, texts[n - 1]? = some text ∧
    ReleaseHeading.parse? text = some heading ∧ heading.version = version

/-- The number of the first line of a repeated version. -/
def Finding.first? : Finding → Option Nat
  | .repeatedVersion _ lines => lines.head?
  | _ => none

namespace Check

theorem version?_eq (line : Line) :
    version? line = (ReleaseHeading.parse? line.text).map (·.version) := by
  cases h : ReleaseHeading.parse? line.text with
  | none =>
      rw [version?, h]
      cases line.opensBody <;> rfl
  | some heading =>
      have hopens : line.opensBody = true := ReleaseHeading.startsWith_of_parse? h
      rw [version?, h, hopens]
      rfl

theorem mem_linesOf_ofTexts {texts : List Text} {v : Text} {n : Nat} :
    n ∈ linesOf v (Line.ofTexts texts) ↔ Heads texts v n := by
  rw [mem_linesOf]
  constructor
  · rintro ⟨line, hline, hversion, rfl⟩
    obtain ⟨i, text, htext, rfl⟩ := Line.mem_numberedFrom.mp hline
    rw [version?_eq, Option.map_eq_some_iff] at hversion
    obtain ⟨heading, hparse, hv⟩ := hversion
    exact ⟨Nat.le_add_right 1 i, text, heading, by simpa using htext, hparse, hv⟩
  · rintro ⟨hn, text, heading, htext, hparse, hv⟩
    refine ⟨.ofText n text, Line.mem_numberedFrom.mpr ⟨n - 1, text, htext, ?_⟩, ?_, rfl⟩
    · rw [Nat.add_sub_cancel' hn]
    · rw [version?_eq, Line.text_ofText, hparse, ← hv]
      rfl

/-- The lines of a version are the only ascending list of its headings. -/
theorem eq_linesOf_ofTexts_iff {texts : List Text} {v : Text} {ns : List Nat} :
    ns = linesOf v (Line.ofTexts texts) ↔
      ns.Pairwise (· < ·) ∧ ∀ n, n ∈ ns ↔ Heads texts v n := by
  have hlines : (linesOf v (Line.ofTexts texts)).Pairwise (· < ·) :=
    pairwise_linesOf (Line.pairwise_numberedFrom 1 texts) v
  constructor
  · rintro rfl
    exact ⟨hlines, fun n => mem_linesOf_ofTexts⟩
  · rintro ⟨hns, hmem⟩
    have hperm : ns.Perm (linesOf v (Line.ofTexts texts)) := by
      rw [List.perm_ext_iff_of_nodup (hns.imp Nat.ne_of_lt) (hlines.imp Nat.ne_of_lt)]
      intro n
      rw [hmem, mem_linesOf_ofTexts]
    exact hperm.eq_of_pairwise (fun a b _ _ hab hba => absurd hab (Nat.lt_asymm hba)) hns hlines

theorem mem_repeatedVersions_ofTexts {texts : List Text} {v : Text} {m n : Nat} (hlt : m < n)
    (hm : Heads texts v m) (hn : Heads texts v n) :
    v ∈ repeatedVersions (Line.ofTexts texts) := by
  rw [mem_repeatedVersions]
  have hmem := mem_linesOf_ofTexts.mpr hm
  have hmem' := mem_linesOf_ofTexts.mpr hn
  match hl : linesOf v (Line.ofTexts texts) with
  | [] => simp [hl] at hmem
  | [k] =>
      simp only [hl, List.mem_singleton] at hmem hmem'
      omega
  | _ :: _ :: _ => simp

/-! ## The order of the visits -/

theorem head?_linesOf {v : Text} {lines : List Line} (h : v ∈ versions lines) :
    (linesOf v lines).head? = some ((linesOf v lines).headD 0) := by
  cases hl : linesOf v lines with
  | nil => exact (linesOf_ne_nil h hl).elim
  | cons n ns => rfl

theorem pairwise_occurrences {lines : List Line} (h : lines.Pairwise (·.number < ·.number)) :
    (occurrences lines).Pairwise fun a b => a.2.headD 0 < b.2.headD 0 := by
  rw [occurrences_eq, List.pairwise_map]
  exact pairwise_versions h

/-- No two versions have the same first line, so that there is one way to sort them. -/
theorem repeated_eq_of_perm {lines : List Line} (h : lines.Pairwise (·.number < ·.number))
    {visited : List (Text × List Nat)} (hperm : visited.Perm (occurrences lines)) :
    repeated visited = repeated (occurrences lines) := by
  have hsorted : ∀ found : List (Text × List Nat),
      (repeated found).Pairwise fun a b => decide (a.2.headD 0 ≤ b.2.headD 0) = true := by
    intro found
    apply List.pairwise_mergeSort
    · intro a b c hab hbc
      simp only [decide_eq_true_eq] at hab hbc ⊢
      omega
    · intro a b
      simp only [Bool.or_eq_true, decide_eq_true_eq]
      omega
  have hmem : ∀ found : List (Text × List Nat), ∀ e ∈ repeated found, e ∈ found := by
    intro found e he
    exact (List.mem_filter.mp ((List.mergeSort_perm _ _).mem_iff.mp he)).1
  have hinj := List.inj_on_of_nodup_map (f := fun e : Text × List Nat => e.2.headD 0)
    ((List.pairwise_map.mpr (pairwise_occurrences h)).imp Nat.ne_of_lt)
  refine List.Perm.eq_of_pairwise ?_ (hsorted visited) (hsorted (occurrences lines)) ?_
  · intro a b ha hb hab hba
    simp only [decide_eq_true_eq] at hab hba
    exact hinj (hperm.mem_iff.mp (hmem _ a ha)) (hmem _ b hb) (Nat.le_antisymm hab hba)
  · exact (List.mergeSort_perm _ _).trans
      ((hperm.filter _).trans (List.mergeSort_perm _ _).symm)

/-! ## What the pass reads -/

theorem map_version?_numberedFrom (first : Nat) (texts : List Text) :
    (Line.numberedFrom first texts).map (fun line => (version? line, line.number)) =
      (texts.map fun text => (ReleaseHeading.parse? text).map (·.version)).zipIdx first := by
  induction texts generalizing first with
  | nil => rfl
  | cons text rest ih => simp [version?_eq, ← ih]

theorem occurrences_eq_foldl (lines : List Line) :
    occurrences lines =
      (lines.map fun line => (version? line, line.number)).foldl (fun found pair =>
        match pair.1 with
        | some version => addOccurrence version pair.2 found
        | none => found) [] := by
  rw [List.foldl_map]
  rfl

/-- Of a line that is a dated heading, only its version counts. -/
theorem repeats_ofTexts_congr {texts others : List Text}
    (h : others.map (fun text => (ReleaseHeading.parse? text).map (·.version)) =
      texts.map fun text => (ReleaseHeading.parse? text).map (·.version)) :
    repeats (Line.ofTexts others) = repeats (Line.ofTexts texts) := by
  rw [repeats, repeats, occurrences_eq_foldl, occurrences_eq_foldl, Line.ofTexts, Line.ofTexts,
    map_version?_numberedFrom, map_version?_numberedFrom, h]

/-! ## The findings -/

theorem repeatedVersion_mem_repeats_iff {texts : List Text} {v : Text} {ns : List Nat} :
    .repeatedVersion v ns ∈ repeats (Line.ofTexts texts) ↔
      2 ≤ ns.length ∧ ns.Pairwise (· < ·) ∧ ∀ n, n ∈ ns ↔ Heads texts v n := by
  rw [mem_repeats_ofTexts, ← eq_linesOf_ofTexts_iff, mem_repeatedVersions]
  constructor
  · rintro ⟨hlength, rfl⟩
    exact ⟨hlength, rfl⟩
  · rintro ⟨hlength, rfl⟩
    exact ⟨hlength, rfl⟩

theorem pairwise_first?_repeats (texts : List Text) :
    (repeats (Line.ofTexts texts)).Pairwise fun f g =>
      ∃ m n, f.first? = some m ∧ g.first? = some n ∧ m < n := by
  have hversions := pairwise_versions (Line.pairwise_numberedFrom 1 texts)
  rw [repeats_ofTexts, List.pairwise_map]
  refine (hversions.sublist List.filter_sublist).imp_of_mem ?_
  intro v w hv hw hlt
  exact ⟨_, _, head?_linesOf (List.mem_filter.mp hv).1, head?_linesOf (List.mem_filter.mp hw).1,
    hlt⟩

/-- The findings tell each version with two dated headings or more once, with the ascending list of
all their lines, and nothing else. They are in the order of the first lines. -/
structure TellsRepeats (texts : List Text) (found : List Finding) : Prop where
  versions : ∀ f ∈ found, ∃ v ns, f = .repeatedVersion v ns
  mem_iff : ∀ v ns, .repeatedVersion v ns ∈ found ↔
    2 ≤ ns.length ∧ ns.Pairwise (· < ·) ∧ ∀ n, n ∈ ns ↔ Heads texts v n
  once : ∀ v m n, m < n → Heads texts v m → Heads texts v n →
    ∃ ns, found.filter (·.version? = some v) = [.repeatedVersion v ns]
  ordered : found.Pairwise fun f g => ∃ m n, f.first? = some m ∧ g.first? = some n ∧ m < n

theorem tellsRepeats (texts : List Text) : TellsRepeats texts (repeats (Line.ofTexts texts)) where
  versions := by
    intro f hf
    obtain ⟨found, -, rfl⟩ := List.mem_map.mp hf
    exact ⟨_, _, rfl⟩
  mem_iff := fun _ _ => repeatedVersion_mem_repeats_iff
  once := fun _ _ _ hlt hm hn =>
    ⟨_, filter_repeats_ofTexts (mem_repeatedVersions_ofTexts hlt hm hn)⟩
  ordered := pairwise_first?_repeats texts

/-- The findings on repeated versions are exact. They are the same in whatever order the collected
versions are visited, no dated heading is passed over, and dates do not matter. -/
theorem repeats_exact (texts : List Text) :
    TellsRepeats texts (repeats (Line.ofTexts texts)) ∧
    (∀ visited, visited.Perm (occurrences (Line.ofTexts texts)) →
      (repeated visited).map (fun (version, numbers) => .repeatedVersion version numbers) =
        repeats (Line.ofTexts texts)) ∧
    (occurrences (Line.ofTexts texts)).Pairwise (fun a b =>
      ∃ m n, a.2.head? = some m ∧ b.2.head? = some n ∧ m ≠ n) ∧
    (∀ text heading, ReleaseHeading.parse? text = some heading →
      text.startsWith "##".toList = true) ∧
    ∀ others : List Text,
      others.map (fun text => (ReleaseHeading.parse? text).map (·.version)) =
        texts.map (fun text => (ReleaseHeading.parse? text).map (·.version)) →
      repeats (Line.ofTexts others) = repeats (Line.ofTexts texts) := by
  refine ⟨tellsRepeats texts, ?_, ?_, fun _ _ => ReleaseHeading.startsWith_of_parse?,
    fun _ => repeats_ofTexts_congr⟩
  · intro visited hperm
    rw [repeated_eq_of_perm (Line.pairwise_numberedFrom 1 texts) hperm]
    rfl
  · rw [occurrences_eq, List.pairwise_map]
    refine (pairwise_versions (Line.pairwise_numberedFrom 1 texts)).imp_of_mem ?_
    intro v w hv hw hlt
    exact ⟨_, _, head?_linesOf hv, head?_linesOf hw, Nat.ne_of_lt hlt⟩

end Check

end ReleaseLog
