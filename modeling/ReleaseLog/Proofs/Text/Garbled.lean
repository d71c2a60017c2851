import ReleaseLog.Proofs.Classification
import ReleaseLog.Proofs.Grouping
import ReleaseLog.Proofs.Placement
import ReleaseLog.Proofs.Text.Pieces

/-!
# Findings on malformed lines

A malformed line is checked as its decoded text. All that a rule asks of a line is ASCII, but for
the version of a heading, its title and what stands behind the tag of a merge marker. So malformed
octets are found only there, and then the finding has U+FFFD for them.
-/

namespace ReleaseLog

namespace Utf8

/-! ## Where a decoded text splits -/

/-- Octets whose text has no U+FFFD are well-formed. -/
theorem decode?_of_replacement_not_mem {bytes : Bytes} (h : replacement ∉ decodeLossy bytes) :
    decode? bytes = some (decodeLossy bytes) := by
  have hsome : ∀ item ∈ items bytes, some (item.getD replacement) = id item := by
    intro item hitem
    cases item with
    | none => exact (h (List.mem_map.mpr ⟨none, hitem, rfl⟩)).elim
    | some c => rfl
  rw [decode?, mapM_id_eq_some_iff, decodeLossy, List.map_map]
  exact ((List.map_congr_left hsome).trans (List.map_id _)).symm

theorem eq_encode_of_decodeLossy {bytes : Bytes} {s : Text} (h : decodeLossy bytes = s)
    (hs : replacement ∉ s) : bytes = encode s := by
  subst h
  exact decode?_eq_some_iff.mp (decode?_of_replacement_not_mem hs)

/-- Where the decoded text has a character of ASCII, the octets have it as well, with the octets of
the rest on either side. -/
theorem exists_of_decodeLossy_eq_append_cons {a : UInt8} (ha : a < 0x80) {bytes : Bytes}
    {s t : Text} (h : decodeLossy bytes = s ++ Char.ofNat a.toNat :: t) :
    ∃ front back, bytes = front ++ a :: back ∧ decodeLossy front = s ∧ decodeLossy back = t := by
  induction hlength : bytes.length using Nat.strong_induction_on generalizing bytes s with
  | _ length ih =>
      have hmem : a ∈ bytes := mem_of_mem_decodeLossy ha (by rw [h]; simp)
      obtain ⟨front, back, rfl, hfirst⟩ := List.eq_append_cons_of_mem hmem
      rw [decodeLossy_append_ascii ha] at h
      have hnot : Char.ofNat a.toNat ∉ decodeLossy front := fun hc =>
        hfirst (mem_of_mem_decodeLossy ha hc)
      rcases List.append_eq_append_iff.mp h with ⟨later, hs, hrest⟩ | ⟨later, hfront, hrest⟩
      · cases later with
        | nil =>
            rw [List.append_nil] at hs
            exact ⟨front, back, rfl, hs.symm, (List.cons.inj hrest).2⟩
        | cons c later =>
            obtain ⟨rfl, hback⟩ := List.cons.inj hrest
            obtain ⟨middle, rest, rfl, hmiddle, ht⟩ :=
              ih back.length (by simp [← hlength]; omega) hback rfl
            refine ⟨front ++ a :: middle, rest, by simp, ?_, ht⟩
            rw [decodeLossy_append_ascii ha, hmiddle, hs]
      · cases later with
        | nil =>
            rw [List.append_nil] at hfront
            exact ⟨front, back, rfl, hfront, (List.cons.inj hrest).2.symm⟩
        | cons c later =>
            obtain ⟨rfl, -⟩ := List.cons.inj hrest
            exact (hnot (by rw [hfront]; simp)).elim

/-- A lead that ends with a blank, such as the tag of a marker, is encoded in front. -/
theorem exists_of_decodeLossy_eq_lead {bytes : Bytes} {lead t : Text}
    (hlead : replacement ∉ lead) (hblank : lead.getLast? = some ' ')
    (h : decodeLossy bytes = lead ++ t) :
    ∃ rest, bytes = encode lead ++ rest ∧ decodeLossy rest = t := by
  obtain ⟨tag, rfl⟩ := List.getLast?_eq_some_iff.mp hblank
  rw [List.append_assoc, List.singleton_append] at h
  obtain ⟨front, rest, rfl, hfront, hrest⟩ :=
    exists_of_decodeLossy_eq_append_cons (a := 0x20) (by decide) h
  have htag : replacement ∉ tag := fun hmem => hlead (List.mem_append_left _ hmem)
  refine ⟨rest, ?_, hrest⟩
  rw [eq_encode_of_decodeLossy hfront htag, encode_append, List.append_assoc]
  rfl

end Utf8

/-! ## Dated headings -/

namespace ReleaseHeading

open Utf8 (replacement decodeLossy decode? encode)

/-- The octets of a written heading in which these octets stand for the version. -/
def Written.octets (w : Written) (version : Bytes) : Bytes :=
  encode ('#' :: '#' :: w.opening) ++ 0x5B :: (version ++ 0x5D ::
    encode (w.before ++ '-' :: (w.after ++ w.heading.date)))

theorem replacement_not_mem_gap {gap : Text} (h : gap.IsGap) : replacement ∉ gap :=
  fun hmem => absurd (h.2 _ hmem) (by decide)

theorem replacement_not_mem_date {date : Text} (h : IsDate date) : replacement ∉ date := by
  obtain ⟨year, month, day, rfl, ⟨-, hyear⟩, ⟨-, hmonth⟩, ⟨-, hday⟩⟩ := h
  have hnot : replacement.isDigit = false := rfl
  have hdigit : ∀ digits : Text, (∀ c ∈ digits, c.isDigit = true) → replacement ∉ digits :=
    fun digits hdigits hmem => Bool.false_ne_true (hnot.symm.trans (hdigits _ hmem))
  have hdash : replacement ≠ '-' := by decide
  simp [hdigit year hyear, hdigit month hmonth, hdigit day hday, hdash]

/-- Only the version of a written heading may have U+FFFD. -/
theorem Written.WellFormed.replacement_not_mem {w : Written} (hw : w.WellFormed)
    (h : replacement ∉ w.heading.version) : replacement ∉ w.text := by
  obtain ⟨hhash, hopen, hclose, hdash⟩ : replacement ≠ '#' ∧ replacement ≠ '[' ∧
      replacement ≠ ']' ∧ replacement ≠ '-' := by decide
  simp [text, h, hhash, hopen, hclose, hdash, replacement_not_mem_gap hw.opening,
    replacement_not_mem_gap hw.before, replacement_not_mem_gap hw.after,
    replacement_not_mem_date hw.date]

theorem Written.text_eq_octets (w : Written) :
    w.text = ('#' :: '#' :: w.opening) ++ '[' :: (w.heading.version ++ ']' ::
      (w.before ++ '-' :: (w.after ++ w.heading.date))) := by
  simp [text]

theorem Written.decodeLossy_octets {w : Written} {version : Bytes}
    (h : decodeLossy version = w.heading.version) : decodeLossy (w.octets version) = w.text := by
  have hopen : ∀ front back, decodeLossy (front ++ 0x5B :: back) =
      decodeLossy front ++ '[' :: decodeLossy back := Utf8.decodeLossy_append_ascii (by decide)
  have hclose : ∀ front back, decodeLossy (front ++ 0x5D :: back) =
      decodeLossy front ++ ']' :: decodeLossy back := Utf8.decodeLossy_append_ascii (by decide)
  rw [octets, hopen, hclose, Utf8.decodeLossy_encode, Utf8.decodeLossy_encode, h, text_eq_octets]

/-- Malformed octets of a written heading stand in its version. -/
theorem Written.exists_octets {w : Written} (hw : w.WellFormed) {piece : Bytes}
    (h : decodeLossy piece = w.text) :
    ∃ version, piece = w.octets version ∧ decodeLossy version = w.heading.version := by
  have hlead : replacement ∉ '#' :: '#' :: w.opening := by
    have hhash : replacement ≠ '#' := by decide
    simp [hhash, replacement_not_mem_gap hw.opening]
  have htail : replacement ∉ w.before ++ '-' :: (w.after ++ w.heading.date) := by
    have hdash : replacement ≠ '-' := by decide
    simp [hdash, replacement_not_mem_gap hw.before, replacement_not_mem_gap hw.after,
      replacement_not_mem_date hw.date]
  rw [text_eq_octets] at h
  obtain ⟨front, rest, rfl, hfront, hrest⟩ :=
    Utf8.exists_of_decodeLossy_eq_append_cons (a := 0x5B) (by decide) h
  obtain ⟨version, back, rfl, hversion, hback⟩ :=
    Utf8.exists_of_decodeLossy_eq_append_cons (a := 0x5D) (by decide) hrest
  refine ⟨version, ?_, hversion⟩
  rw [octets, Utf8.eq_encode_of_decodeLossy hfront hlead, Utf8.eq_encode_of_decodeLossy hback htail]

/-- Octets are read as a dated heading exactly if they are one but for the octets of the version. -/
theorem parse?_decodeLossy_iff {piece : Bytes} {heading : ReleaseHeading} :
    parse? (decodeLossy piece) = some heading ↔
      ∃ (w : Written) (version : Bytes), w.WellFormed ∧ w.heading = heading ∧
        decodeLossy version = heading.version ∧ piece = w.octets version := by
  rw [parse?_eq_some_iff]
  constructor
  · rintro ⟨w, hw, htext, rfl⟩
    obtain ⟨version, hpiece, hversion⟩ := w.exists_octets hw htext.symm
    exact ⟨w, version, hw, rfl, hversion, hpiece⟩
  · rintro ⟨w, version, hw, rfl, hversion, rfl⟩
    exact ⟨w, hw, (w.decodeLossy_octets hversion).symm, rfl⟩

end ReleaseHeading

/-! ## Findings -/

namespace Utf8

/-- The octets of line `n`. Lines count from one. -/
def lineAt? (bytes : Bytes) : Nat → Option Bytes
  | 0 => none
  | n + 1 => (cut 0x0A 0x0D bytes)[n]?

theorem exists_lineAt? {bytes : Bytes} {n : Nat} {text : Text} (hn : 1 ≤ n)
    (h : (decodeLossy bytes).lines[n - 1]? = some text) :
    ∃ piece, lineAt? bytes n = some piece ∧ decodeLossy piece = text := by
  obtain ⟨i, rfl⟩ : ∃ i, n = i + 1 := ⟨n - 1, (Nat.sub_add_cancel hn).symm⟩
  rw [Nat.add_sub_cancel, lines_decodeLossy, List.getElem?_map] at h
  exact Option.map_eq_some_iff.mp h

theorem decode?_append_encode {bytes : Bytes} {lead : Text} (h : replacement ∉ decodeLossy bytes) :
    decode? (encode lead ++ bytes) = some (lead ++ decodeLossy bytes) := by
  rw [decode?_eq_some_iff, encode_append, ← eq_encode_of_decodeLossy rfl h]

/-- The octets of a merge marker have the tag of a marker in front. -/
theorem exists_of_isMarker {piece : Bytes} (h : Line.isMarker (decodeLossy piece) = true) :
    piece = encode "=======".toList ∨
      ∃ lead ∈ Line.sides, ∃ rest, piece = encode lead ++ rest := by
  rcases Line.isMarker_iff.mp h with hbare | ⟨lead, hlead, rest, htext, -⟩
  · exact .inl (eq_encode_of_decodeLossy hbare (by decide))
  · have hsides : ∀ lead ∈ Line.sides, replacement ∉ lead ∧ lead.getLast? = some ' ' := by decide
    obtain ⟨back, hpiece, -⟩ :=
      exists_of_decodeLossy_eq_lead (hsides lead hlead).1 (hsides lead hlead).2 htext
    exact .inr ⟨lead, hlead, back, hpiece⟩

end Utf8

namespace RuleSet

open Utf8 (replacement decodeLossy decode? encode lineAt? exists_lineAt?)

variable {rules : RuleSet} {path : Path} {bytes : Bytes}

theorem exists_rule_of_mem_checkContent {f : Finding}
    (h : f ∈ (rules.checkContent path (some bytes)).findings) {r : Rule} (hr : f.rule? = some r) :
    f ∈ r.findings (Line.ofTexts (decodeLossy bytes).lines) := by
  obtain ⟨s, -, hs⟩ := mem_findings_checkLines.mp h
  obtain rfl : s = r := Option.some.inj ((Rule.rule?_of_mem_findings hs).symm.trans hr)
  exact hs

/-- Every line of a repeated version is a heading of it. Malformed octets are in its version. -/
theorem exists_version_of_repeatedVersion {v : Text} {ns : List Nat}
    (h : .repeatedVersion v ns ∈ (rules.checkContent path (some bytes)).findings) {n : Nat}
    (hn : n ∈ ns) :
    ∃ (w : ReleaseHeading.Written) (version : Bytes), w.WellFormed ∧ w.heading.version = v ∧
      lineAt? bytes n = some (w.octets version) ∧ decodeLossy version = v := by
  obtain ⟨_, _, _, heq, hrepetition, -⟩ :=
    Rule.exists_second_of_mem_findings (exists_rule_of_mem_checkContent h rfl)
  obtain ⟨rfl, rfl⟩ := Finding.repeatedVersion.inj heq
  obtain ⟨hone, text, htext, hversion⟩ := hrepetition.heads n hn
  obtain ⟨piece, hpiece, rfl⟩ := exists_lineAt? hone htext
  rw [Check.version?_eq, Option.map_eq_some_iff] at hversion
  obtain ⟨heading, hparse, rfl⟩ := hversion
  obtain ⟨w, version, hw, rfl, hdecoded, rfl⟩ :=
    ReleaseHeading.parse?_decodeLossy_iff.mp hparse
  exact ⟨w, version, hw, rfl, hpiece, hdecoded⟩

theorem exists_lineAt?_of_mergeLeftover {n : Nat} {content : Text}
    (h : .mergeLeftover n content ∈ (rules.checkContent path (some bytes)).findings) :
    ∃ piece, lineAt? bytes n = some piece ∧ decodeLossy piece = content ∧
      Line.isMarker content = true := by
  obtain ⟨line, hline, heq⟩ := List.mem_map.mp (exists_rule_of_mem_checkContent h rfl)
  obtain ⟨rfl, rfl⟩ := Finding.mergeLeftover.inj heq
  obtain ⟨hmem, hkind⟩ := List.mem_filter.mp hline
  obtain ⟨i, text, htext, rfl⟩ := Line.mem_numberedFrom.mp hmem
  obtain ⟨piece, hpiece, hdecoded⟩ := exists_lineAt? (Nat.le_add_right 1 i) (by simpa using htext)
  exact ⟨piece, hpiece, hdecoded, Line.fits_of_kind (of_decide_eq_true hkind)⟩

/-- The line that misses a blank one before it starts like a heading. -/
theorem exists_title_of_missingBlank {n : Nat}
    (h : .missingBlank n ∈ (rules.checkContent path (some bytes)).findings) :
    ∃ lead ∈ ["## ".toList, "### ".toList], ∃ title,
      lineAt? bytes n = some (encode lead ++ title) := by
  have hspacing : .missingBlank n ∈ Check.spacing (Line.ofTexts (decodeLossy bytes).lines) :=
    exists_rule_of_mem_checkContent h rfl
  have hmisses : MissesBlank (decodeLossy bytes).lines n := by
    by_contra hnot
    have hcount := Check.Context.count_missingBlank (decodeLossy bytes).lines n
    rw [if_neg hnot, List.count_eq_zero] at hcount
    exact hcount hspacing
  have hkind : ∃ text lead, (decodeLossy bytes).lines[n - 1]? = some text ∧
      lead ∈ ["## ".toList, "### ".toList] ∧ text.startsWith lead = true := by
    obtain ⟨i, rfl⟩ : ∃ i, n = i + 1 := ⟨n - 1, by have := hmisses.1; omega⟩
    rcases hmisses.2 with ⟨hkind, -⟩ | ⟨hkind, -⟩
    · obtain ⟨text, htext, hrelease⟩ := kindAt?_succ_eq_some_iff.mp hkind
      exact ⟨text, _, htext, List.mem_cons_self, Line.kind_eq_release_iff.mp hrelease⟩
    · obtain ⟨text, htext, hgroup⟩ := kindAt?_succ_eq_some_iff.mp hkind
      exact ⟨text, _, htext, List.mem_cons_of_mem _ List.mem_cons_self,
        Line.kind_eq_group_iff.mp hgroup⟩
  obtain ⟨text, lead, htext, hlead, hstarts⟩ := hkind
  obtain ⟨piece, hpiece, rfl⟩ := exists_lineAt? (Nat.le_of_succ_le hmisses.1) htext
  obtain ⟨rest, hrest⟩ := Text.startsWith_iff.mp hstarts
  have hleads : ∀ lead ∈ ["## ".toList, "### ".toList],
      replacement ∉ lead ∧ lead.getLast? = some ' ' := by decide
  obtain ⟨title, rfl, -⟩ :=
    Utf8.exists_of_decodeLossy_eq_lead (hleads lead hlead).1 (hleads lead hlead).2 hrest
  exact ⟨lead, hlead, title, hpiece⟩

/-- Where the version, the content or the title that is found has no U+FFFD, the line is
well-formed, and headings of one version have the same octets for it. Malformed octets are found
only in these, as U+FFFD. -/
theorem malformed_octets_found (rules : RuleSet) (path : Path) (bytes : Bytes) :
    (∀ v ns, .repeatedVersion v ns ∈ (rules.checkContent path (some bytes)).findings → ∀ n ∈ ns,
      ∃ (w : ReleaseHeading.Written) (version : Bytes), w.WellFormed ∧ w.heading.version = v ∧
        lineAt? bytes n = some (w.octets version) ∧ decodeLossy version = v ∧
        (replacement ∉ v → version = encode v ∧ decode? (w.octets version) = some w.text)) ∧
    (∀ n content,
      .mergeLeftover n content ∈ (rules.checkContent path (some bytes)).findings →
      ∃ piece, lineAt? bytes n = some piece ∧ decodeLossy piece = content ∧
        (piece = encode "=======".toList ∨
          ∃ lead ∈ Line.sides, ∃ rest, piece = encode lead ++ rest) ∧
        (replacement ∉ content → decode? piece = some content)) ∧
    ∀ n, .missingBlank n ∈ (rules.checkContent path (some bytes)).findings →
      ∃ lead ∈ ["## ".toList, "### ".toList], ∃ title,
        lineAt? bytes n = some (encode lead ++ title) ∧
        (replacement ∉ decodeLossy title →
          decode? (encode lead ++ title) = some (lead ++ decodeLossy title)) := by
  refine ⟨?_, ?_, ?_⟩
  · intro v ns h n hn
    obtain ⟨w, version, hw, hv, hline, hversion⟩ := exists_version_of_repeatedVersion h hn
    refine ⟨w, version, hw, hv, hline, hversion, fun hplain => ?_⟩
    have hencoded : version = encode v := Utf8.eq_encode_of_decodeLossy hversion hplain
    have htext : decodeLossy (w.octets version) = w.text :=
      w.decodeLossy_octets (hversion.trans hv.symm)
    refine ⟨hencoded, ?_⟩
    rw [← htext]
    apply Utf8.decode?_of_replacement_not_mem
    rw [htext]
    exact hw.replacement_not_mem (hv ▸ hplain)
  · intro n content h
    obtain ⟨piece, hline, rfl, hmarker⟩ := exists_lineAt?_of_mergeLeftover h
    exact ⟨piece, hline, rfl, Utf8.exists_of_isMarker hmarker,
      Utf8.decode?_of_replacement_not_mem⟩
  · intro n h
    obtain ⟨lead, hlead, title, hline⟩ := exists_title_of_missingBlank h
    exact ⟨lead, hlead, title, hline, Utf8.decode?_append_encode⟩

/-- Two headings of versions that differ in a malformed octet. -/
def garbled : Bytes :=
  encode "## [1.".toList ++ 0xFF :: encode "] - 2020-01-01\n\n## [1.".toList ++
    0xFE :: encode "] - 2020-01-02\n".toList

/-- Malformed lines are found: two versions that differ are taken for one. -/
theorem garbled_versions_repeat :
    (({} : RuleSet).checkContent (.ofString "CHANGELOG.md") (some garbled)).findings =
      [.repeatedVersion "1.\uFFFD".toList [1, 3]] ∧
    (∀ n ∈ [1, 3], ∃ piece, lineAt? garbled n = some piece ∧ decode? piece = none) ∧
    ¬ ∀ (path : Path) (bytes : Bytes) (v : Text) (ns : List Nat),
      .repeatedVersion v ns ∈ (({} : RuleSet).checkContent path (some bytes)).findings →
      ∀ n ∈ ns, ∀ piece, lineAt? bytes n = some piece → ∃ s, decode? piece = some s := by
  have hfound : (({} : RuleSet).checkContent (.ofString "CHANGELOG.md") (some garbled)).findings =
      [.repeatedVersion "1.\uFFFD".toList [1, 3]] := by
    decide +kernel
  have hlines : ∀ n ∈ [1, 3], ∃ piece ∈ lineAt? garbled n, decode? piece = none := by
    decide +kernel
  refine ⟨hfound, hlines, fun hquiet => ?_⟩
  obtain ⟨piece, hpiece, hnone⟩ := hlines 1 (by simp)
  have hmem : .repeatedVersion "1.\uFFFD".toList [1, 3] ∈
      (({} : RuleSet).checkContent (.ofString "CHANGELOG.md") (some garbled)).findings :=
    hfound ▸ List.mem_singleton_self _
  obtain ⟨s, hs⟩ := hquiet _ garbled _ _ hmem 1 (by simp) piece hpiece
  rw [hnone] at hs
  cases hs

end RuleSet

end ReleaseLog
