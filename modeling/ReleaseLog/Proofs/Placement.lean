import ReleaseLog.Proofs.Spacing
import Mathlib.Data.List.Basic

/-!
# Where spacing is found

The scan judges a line when it has read it, and may then point at the line before. Told by the line
that is pointed at: which lines are found, how often, and in which order.
-/

namespace ReleaseLog

/-- The kind of line `n`, if there is such a line. Lines count from one. -/
def kindAt? (texts : List Text) : Nat → Option Line.Kind
  | 0 => none
  | n + 1 => texts[n]?.map .ofText

/-- The number of the first line that opens with two hashes. -/
def bodyStart? (texts : List Text) : Option Nat :=
  (texts.findIdx? (·.startsWith "##".toList)).map (· + 1)

/-- The line is a release that does not follow a blank line, or a group that follows neither a blank
line nor its release nor a merge marker. -/
def MissesBlank (texts : List Text) (n : Nat) : Prop :=
  2 ≤ n ∧ (kindAt? texts n = some .release ∧ kindAt? texts (n - 1) ≠ some .blank ∨
    kindAt? texts n = some .group ∧ kindAt? texts (n - 1) ≠ some .blank ∧
      kindAt? texts (n - 1) ≠ some .release ∧ kindAt? texts (n - 1) ≠ some .marker)

/-- The line is a blank one below the first line of the body. -/
def BlankInBody (texts : List Text) (n : Nat) : Prop :=
  (∃ k, bodyStart? texts = some k ∧ k < n) ∧ kindAt? texts n = some .blank

/-- The blank line parts what should stand together. -/
def PartsLines (texts : List Text) (n : Nat) : Prop :=
  kindAt? texts (n + 1) = some .entry ∨
    kindAt? texts (n - 1) = some .release ∧ kindAt? texts (n + 1) = some .group

theorem kindAt?_succ_eq_some_iff {texts : List Text} {i : Nat} {kind : Line.Kind} :
    kindAt? texts (i + 1) = some kind ↔
      ∃ text, texts[i]? = some text ∧ Line.Kind.ofText text = kind :=
  Option.map_eq_some_iff

theorem kindAt?_succ {texts : List Text} {i : Nat} {text : Text} (h : texts[i]? = some text) :
    kindAt? texts (i + 1) = some (.ofText text) :=
  kindAt?_succ_eq_some_iff.mpr ⟨text, h, rfl⟩

theorem one_le_of_kindAt? {texts : List Text} {n : Nat} {kind : Line.Kind}
    (h : kindAt? texts n = some kind) : 1 ≤ n := by
  cases n with
  | zero => simp [kindAt?] at h
  | succ i => exact Nat.le_add_left 1 i

theorem le_length_of_kindAt? {texts : List Text} {n : Nat} {kind : Line.Kind}
    (h : kindAt? texts n = some kind) : n ≤ texts.length := by
  cases n with
  | zero => exact Nat.zero_le _
  | succ i =>
      obtain ⟨text, htext, -⟩ := kindAt?_succ_eq_some_iff.mp h
      exact (List.getElem?_eq_some_iff.mp htext).1

theorem exists_kindAt?_of_le {texts : List Text} {m n : Nat} {kind : Line.Kind}
    (h : kindAt? texts n = some kind) (hm : 1 ≤ m) (hle : m ≤ n) :
    ∃ earlier, kindAt? texts m = some earlier := by
  cases n with
  | zero => omega
  | succ i =>
      have hi : i < texts.length := le_length_of_kindAt? h
      obtain ⟨j, rfl⟩ : ∃ j, m = j + 1 := ⟨m - 1, by omega⟩
      exact ⟨_, kindAt?_succ (List.getElem?_eq_getElem (by omega))⟩

/-! ## Where the body starts -/

theorem any_take_iff {α : Type} (p : α → Bool) (xs : List α) (n : Nat) :
    (xs.take n).any p = true ↔ ∃ k, xs.findIdx? p = some k ∧ k < n := by
  induction xs generalizing n with
  | nil => simp
  | cons x xs ih =>
      cases n with
      | zero => simp
      | succ n =>
          cases hx : p x with
          | true => simp [List.findIdx?_cons, hx]
          | false => simp [List.findIdx?_cons, hx, ih]

theorem any_take_opens_iff (texts : List Text) (n : Nat) :
    (texts.take n).any (·.startsWith "##".toList) = true ↔
      ∃ k, bodyStart? texts = some k ∧ k ≤ n := by
  rw [any_take_iff]
  simp only [bodyStart?, Option.map_eq_some_iff]
  constructor
  · rintro ⟨i, hi, hlt⟩
    exact ⟨i + 1, ⟨i, hi, rfl⟩, hlt⟩
  · rintro ⟨-, ⟨i, hi, rfl⟩, hlt⟩
    exact ⟨i, hi, hlt⟩

theorem exists_bodyStart_le {texts : List Text} {n : Nat} {kind : Line.Kind}
    (h : kindAt? texts n = some kind) (hkind : kind = .release ∨ kind = .group) :
    ∃ k, bodyStart? texts = some k ∧ k ≤ n := by
  obtain ⟨i, rfl⟩ : ∃ i, n = i + 1 := ⟨n - 1, by have := one_le_of_kindAt? h; omega⟩
  obtain ⟨text, htext, rfl⟩ := kindAt?_succ_eq_some_iff.mp h
  have hopens : text.startsWith "##".toList = true := @Line.opensBody_of_kind 0 text hkind
  rw [← any_take_opens_iff, List.take_add_one, htext]
  simp only [Option.toList_some, List.any_append, List.any_cons, hopens, Bool.true_or, Bool.or_true]

/-- The first line of the body is no blank line, no entry and no merge marker. -/
theorem kindAt?_bodyStart {texts : List Text} {k : Nat} (h : bodyStart? texts = some k) :
    kindAt? texts k = some .release ∨ kindAt? texts k = some .group ∨
      kindAt? texts k = some .other := by
  obtain ⟨i, hi, rfl⟩ := Option.map_eq_some_iff.mp h
  obtain ⟨hlt, hopens, -⟩ := List.findIdx?_eq_some_iff_getElem.mp hi
  have htext : kindAt? texts (i + 1) = some (.ofText texts[i]) := by
    rw [kindAt?, List.getElem?_eq_getElem hlt]
    rfl
  simpa [htext] using @Line.kind_of_opensBody 0 texts[i] hopens

theorem bodyStart_lt {texts : List Text} {k n : Nat} {kind : Line.Kind}
    (h : bodyStart? texts = some k) (hle : k ≤ n) (hkind : kindAt? texts n = some kind)
    (hkinds : kind = .blank ∨ kind = .entry) : k < n := by
  refine Nat.lt_of_le_of_ne hle ?_
  rintro rfl
  have hstart := kindAt?_bodyStart h
  rcases hkinds with rfl | rfl <;> simp [hkind] at hstart

instance (texts : List Text) (n : Nat) : Decidable (MissesBlank texts n) :=
  inferInstanceAs (Decidable (_ ∧ _))

instance (texts : List Text) (n : Nat) : Decidable (BlankInBody texts n) :=
  decidable_of_iff ((bodyStart? texts).any (· < n) = true ∧ kindAt? texts n = some .blank)
    (by simp [BlankInBody, Option.any_eq_true])

instance (texts : List Text) (n : Nat) : Decidable (PartsLines texts n) :=
  inferInstanceAs (Decidable (_ ∨ _))

namespace Check.Context

open Line (Kind)

/-! ## The context at a line -/

/-- What the scan knows before it reads line `i + 1`. -/
def before (texts : List Text) (i : Nat) : Context :=
  ⟨(texts.take i).any (·.startsWith "##".toList), kindAt? texts i, kindAt? texts (i - 1)⟩

theorem inBody_next_before {texts : List Text} {i : Nat} {text : Text}
    (htext : texts[i]? = some text) :
    ((before texts i).next (.ofText (i + 1) text)).inBody = true ↔
      ∃ k, bodyStart? texts = some k ∧ k ≤ i + 1 := by
  rw [← any_take_opens_iff, List.take_add_one, htext]
  simp [before, next, Line.opensBody]

theorem after_take (texts : List Text) {i : Nat} (hi : i ≤ texts.length) :
    after {} (Line.ofTexts (texts.take i)) = before texts i := by
  induction i with
  | zero => simp [before, kindAt?, Line.ofTexts]
  | succ i ih =>
      obtain ⟨text, htext⟩ : ∃ text, texts[i]? = some text := ⟨_, List.getElem?_eq_getElem hi⟩
      rw [List.take_add_one, htext, Option.toList_some, Line.ofTexts_append, after_append,
        ih (Nat.le_of_succ_le hi)]
      simp [before, next, kindAt?, htext, List.take_add_one, Line.opensBody]

/-- What is wrong with line `i + 1`. -/
def flawAt? (texts : List Text) (i : Nat) : Option Finding :=
  texts[i]?.bind fun text => (before texts i).flaw? (.ofText (i + 1) text)

/-- The findings are those of the lines, one after another. -/
theorem spacing_take (texts : List Text) {i : Nat} (hi : i ≤ texts.length) :
    spacing (Line.ofTexts (texts.take i)) = (List.range i).filterMap (flawAt? texts) := by
  induction i with
  | zero => rfl
  | succ i ih =>
      have hle : i ≤ texts.length := Nat.le_of_succ_le hi
      obtain ⟨text, htext⟩ : ∃ text, texts[i]? = some text := ⟨_, List.getElem?_eq_getElem hi⟩
      have hlength : 1 + (texts.take i).length = i + 1 := by
        rw [List.length_take_of_le hle, Nat.add_comm]
      have hflaw : [i].filterMap (flawAt? texts) =
          ((before texts i).flaw? (.ofText (i + 1) text)).toList := by
        cases h : (before texts i).flaw? (.ofText (i + 1) text) <;> simp [flawAt?, htext, h]
      rw [List.range_succ, List.filterMap_append, ← ih hle, hflaw, List.take_add_one, htext,
        Option.toList_some, Line.ofTexts_append, spacing_eq, findings_append, after_take texts hle,
        hlength, Line.numberedFrom_cons, findings_cons, Line.numberedFrom_nil, findings_nil,
        List.append_nil, ← spacing_eq]

theorem spacing_ofTexts (texts : List Text) :
    spacing (Line.ofTexts texts) = (List.range texts.length).filterMap (flawAt? texts) := by
  rw [← spacing_take texts (Nat.le_refl _), List.take_length]

/-! ## What is wrong with one line -/

theorem flawAt?_eq_some_iff {texts : List Text} {i : Nat} {f : Finding} :
    flawAt? texts i = some f ↔ ∃ text, texts[i]? = some text ∧
      (∃ k, bodyStart? texts = some k ∧ k ≤ i + 1) ∧
      (before texts i).Flaw (.ofText (i + 1) text) f := by
  simp only [flawAt?, Option.bind_eq_some_iff, flaw?_eq_some_iff]
  refine exists_congr fun text => and_congr_right fun htext => ?_
  rw [inBody_next_before htext]

theorem flawAt?_eq_missingBlank_iff {texts : List Text} {i n : Nat} :
    flawAt? texts i = some (.missingBlank n) ↔ i + 1 = n ∧ MissesBlank texts n := by
  rw [flawAt?_eq_some_iff]
  constructor
  · rintro ⟨text, htext, -, hflaw⟩
    have hself := kindAt?_succ htext
    cases hflaw with
    | crowdedRelease hkind hprevious hne =>
        have htwo := Nat.succ_le_succ (one_le_of_kindAt? hprevious)
        refine ⟨rfl, htwo, .inl ⟨hself.trans (congrArg some hkind), ?_⟩⟩
        exact fun hblank => hne (Option.some.inj (hprevious.symm.trans hblank))
    | crowdedGroup hkind hprevious hne =>
        obtain ⟨hblank, hrelease, hmarker⟩ := hne
        have htwo := Nat.succ_le_succ (one_le_of_kindAt? hprevious)
        refine ⟨rfl, htwo, .inr ⟨hself.trans (congrArg some hkind), ?_, ?_, ?_⟩⟩
        · exact fun h => hblank (Option.some.inj (hprevious.symm.trans h))
        · exact fun h => hrelease (Option.some.inj (hprevious.symm.trans h))
        · exact fun h => hmarker (Option.some.inj (hprevious.symm.trans h))
  · rintro ⟨rfl, htwo, hmisses⟩
    rw [Nat.add_sub_cancel] at hmisses
    have hself : ∃ kind, kindAt? texts (i + 1) = some kind ∧ (kind = .release ∨ kind = .group) := by
      rcases hmisses with ⟨hkind, -⟩ | ⟨hkind, -⟩
      · exact ⟨_, hkind, .inl rfl⟩
      · exact ⟨_, hkind, .inr rfl⟩
    obtain ⟨kind, hkind, hkinds⟩ := hself
    obtain ⟨previous, hprevious⟩ :=
      exists_kindAt?_of_le hkind (Nat.le_of_succ_le_succ htwo) (Nat.le_succ i)
    obtain ⟨text, htext, hof⟩ := kindAt?_succ_eq_some_iff.mp hkind
    refine ⟨text, htext, exists_bodyStart_le hkind hkinds, ?_⟩
    rw [hkind, hprevious] at hmisses
    simp only [ne_eq, Option.some.injEq] at hmisses
    rcases hmisses with ⟨rfl, hblank⟩ | ⟨rfl, hne⟩
    · exact .crowdedRelease hof hprevious hblank
    · exact .crowdedGroup hof hprevious hne

theorem flawAt?_eq_strayBlank_iff {texts : List Text} {i n : Nat} :
    flawAt? texts i = some (.strayBlank n) ↔
      i + 1 = n ∧ BlankInBody texts n ∧ kindAt? texts (n - 1) = some .blank ∨
      i = n ∧ BlankInBody texts n ∧ PartsLines texts n := by
  rw [flawAt?_eq_some_iff]
  constructor
  · rintro ⟨text, htext, ⟨k, hk, hle⟩, hflaw⟩
    have hself := kindAt?_succ htext
    cases hflaw with
    | blankBeforeEntry hkind hprevious =>
        have hentry := hself.trans (congrArg some hkind)
        have hlt := Nat.lt_succ_iff.mp (bodyStart_lt hk hle hentry (.inr rfl))
        have hbody := bodyStart_lt hk hlt hprevious (.inl rfl)
        exact .inr ⟨rfl, ⟨⟨k, hk, hbody⟩, hprevious⟩, .inl hentry⟩
    | blankAfterBlank hkind hprevious =>
        have hblank := hself.trans (congrArg some hkind)
        exact .inl ⟨rfl, ⟨⟨k, hk, bodyStart_lt hk hle hblank (.inl rfl)⟩, hblank⟩, hprevious⟩
    | blankUnderRelease hkind hprevious htwoBack =>
        obtain ⟨start, hstart, hbefore⟩ := exists_bodyStart_le htwoBack (.inl rfl)
        have hlt := bodyStart_lt hstart (Nat.le_trans hbefore (Nat.sub_le i 1)) hprevious (.inl rfl)
        exact .inr ⟨rfl, ⟨⟨start, hstart, hlt⟩, hprevious⟩,
          .inr ⟨htwoBack, hself.trans (congrArg some hkind)⟩⟩
  · rintro (⟨rfl, ⟨⟨k, hk, hlt⟩, hblank⟩, hprevious⟩ | ⟨rfl, ⟨⟨k, hk, hlt⟩, hblank⟩, hparts⟩)
    · obtain ⟨text, htext, hkind⟩ := kindAt?_succ_eq_some_iff.mp hblank
      exact ⟨text, htext, ⟨k, hk, Nat.le_of_lt hlt⟩, .blankAfterBlank hkind hprevious⟩
    · have hle : k ≤ i + 1 := Nat.le_of_lt (Nat.lt_succ_of_lt hlt)
      rcases hparts with hentry | ⟨hrelease, hgroup⟩
      · obtain ⟨text, htext, hkind⟩ := kindAt?_succ_eq_some_iff.mp hentry
        exact ⟨text, htext, ⟨k, hk, hle⟩, .blankBeforeEntry hkind hblank⟩
      · obtain ⟨text, htext, hkind⟩ := kindAt?_succ_eq_some_iff.mp hgroup
        exact ⟨text, htext, ⟨k, hk, hle⟩, .blankUnderRelease hkind hblank hrelease⟩

/-- A line is found at its own number or at that of the line before. -/
theorem exists_line?_of_flawAt? {texts : List Text} {i : Nat} {f : Finding}
    (h : flawAt? texts i = some f) :
    ∃ n, (f = .missingBlank n ∨ f = .strayBlank n) ∧ f.line? = some n ∧ i ≤ n ∧ n ≤ i + 1 := by
  obtain ⟨text, -, -, hflaw⟩ := flawAt?_eq_some_iff.mp h
  cases hflaw with
  | blankBeforeEntry | blankUnderRelease => exact ⟨i, .inr rfl, rfl, Nat.le_refl i, Nat.le_succ i⟩
  | blankAfterBlank => exact ⟨i + 1, .inr rfl, rfl, Nat.le_succ i, Nat.le_refl _⟩
  | crowdedRelease | crowdedGroup => exact ⟨i + 1, .inl rfl, rfl, Nat.le_succ i, Nat.le_refl _⟩

/-! ## How often a line is found -/

theorem countP_or {α : Type} {p q r : α → Bool} (h : ∀ x, p x = true ↔ q x = true ∨ r x = true)
    (hboth : ∀ x, q x = true → r x = false) (xs : List α) :
    xs.countP p = xs.countP q + xs.countP r := by
  induction xs with
  | nil => rfl
  | cons x xs ih =>
      have hx := h x
      have hxboth := hboth x
      rw [List.countP_cons, List.countP_cons, List.countP_cons, ih]
      cases hq : q x with
      | true =>
          simp only [hx.mpr (.inl hq), hxboth hq]
          simp only [if_true, Bool.false_eq_true, if_false]
          omega
      | false =>
          have hp : p x = r x := by rw [Bool.eq_iff_iff, hx, hq]; simp
          simp only [hp, Bool.false_eq_true, if_false]
          omega

theorem countP_range_eq {p : Nat → Bool} {P : Prop} [Decidable P] {m len : Nat}
    (hp : ∀ i, p i = true ↔ i = m ∧ P) (hlen : P → m < len) :
    (List.range len).countP p = if P then 1 else 0 := by
  by_cases hP : P
  · have hcount : (List.range len).countP p = (List.range len).count m := by
      rw [List.count_eq_countP]
      apply List.countP_congr
      intro i _
      simp [hp, hP]
    rw [hcount, List.count_range, if_pos (hlen hP), if_pos hP]
  · rw [if_neg hP, List.countP_eq_zero]
    intro i _ hi
    exact hP ((hp i).mp hi).2

theorem count_spacing (texts : List Text) (f : Finding) :
    (spacing (Line.ofTexts texts)).count f =
      (List.range texts.length).countP fun i => flawAt? texts i == some f := by
  rw [spacing_ofTexts, List.count_filterMap]

theorem count_missingBlank (texts : List Text) (n : Nat) :
    (spacing (Line.ofTexts texts)).count (.missingBlank n) =
      if MissesBlank texts n then 1 else 0 := by
  have hplace : ∀ i, (flawAt? texts i == some (.missingBlank n)) = true ↔
      i = n - 1 ∧ MissesBlank texts n := by
    intro i
    rw [beq_iff_eq, flawAt?_eq_missingBlank_iff]
    refine and_congr_left fun h => ?_
    have := h.1
    omega
  have hlength : MissesBlank texts n → n - 1 < texts.length := by
    rintro ⟨htwo, ⟨hkind, -⟩ | ⟨hkind, -⟩⟩
    · have := le_length_of_kindAt? hkind
      omega
    · have := le_length_of_kindAt? hkind
      omega
  rw [count_spacing, countP_range_eq hplace hlength]

theorem count_strayBlank (texts : List Text) (n : Nat) :
    (spacing (Line.ofTexts texts)).count (.strayBlank n) =
      (if BlankInBody texts n ∧ kindAt? texts (n - 1) = some .blank then 1 else 0) +
        if BlankInBody texts n ∧ PartsLines texts n then 1 else 0 := by
  let after (i : Nat) :=
    decide (i = n - 1 ∧ BlankInBody texts n ∧ kindAt? texts (n - 1) = some .blank)
  let between (i : Nat) := decide (i = n ∧ BlankInBody texts n ∧ PartsLines texts n)
  have hone : BlankInBody texts n → 1 ≤ n := fun h => one_le_of_kindAt? h.2
  have hsplit : ∀ i, (flawAt? texts i == some (.strayBlank n)) = true ↔
      after i = true ∨ between i = true := by
    intro i
    rw [beq_iff_eq, flawAt?_eq_strayBlank_iff, decide_eq_true_eq, decide_eq_true_eq]
    refine or_congr_left (and_congr_left fun h => ?_)
    have := hone h.1
    omega
  have hboth : ∀ i, after i = true → between i = false := by
    intro i hi
    obtain ⟨rfl, hblank, -⟩ := of_decide_eq_true hi
    have := hone hblank
    exact decide_eq_false fun h => by omega
  have hafter :
      BlankInBody texts n ∧ kindAt? texts (n - 1) = some .blank → n - 1 < texts.length := by
    rintro ⟨hblank, -⟩
    have := le_length_of_kindAt? hblank.2
    have := hone hblank
    omega
  have hbetween : BlankInBody texts n ∧ PartsLines texts n → n < texts.length := by
    rintro ⟨-, hkind | ⟨-, hkind⟩⟩
    · exact le_length_of_kindAt? hkind
    · exact le_length_of_kindAt? hkind
  rw [count_spacing, countP_or hsplit hboth, countP_range_eq (fun i => decide_eq_true_iff) hafter,
    countP_range_eq (fun i => decide_eq_true_iff) hbetween]

/-! ## The findings of a changelog -/

theorem pairwise_line?_spacing (texts : List Text) :
    (spacing (Line.ofTexts texts)).Pairwise fun f g =>
      ∃ m n, f.line? = some m ∧ g.line? = some n ∧ m ≤ n := by
  rw [spacing_ofTexts, List.pairwise_filterMap]
  refine List.pairwise_lt_range.imp ?_
  intro i j hlt f hf g hg
  obtain ⟨m, -, hm, -, hle⟩ := exists_line?_of_flawAt? hf
  obtain ⟨n, -, hn, hge, -⟩ := exists_line?_of_flawAt? hg
  exact ⟨m, n, hm, hn, by omega⟩

/-- A missing blank line is found once at each line that misses one. A blank line is found once for
each reason that it should not be there: it follows a blank line, or it parts two other lines. -/
theorem spacing_places (texts : List Text) :
    (∀ f ∈ spacing (Line.ofTexts texts), ∃ n, f = .missingBlank n ∨ f = .strayBlank n) ∧
    (∀ n, (spacing (Line.ofTexts texts)).count (.missingBlank n) =
      if MissesBlank texts n then 1 else 0) ∧
    (∀ n, (spacing (Line.ofTexts texts)).count (.strayBlank n) =
      if BlankInBody texts n ∧ (kindAt? texts (n - 1) = some .blank ∨ PartsLines texts n) then
        if kindAt? texts (n - 1) = some .blank ∧ kindAt? texts (n + 1) = some .entry then 2 else 1
      else 0) ∧
    (spacing (Line.ofTexts texts)).Pairwise (fun f g =>
      ∃ m n, f.line? = some m ∧ g.line? = some n ∧ m ≤ n) ∧
    (bodyStart? texts = none → spacing (Line.ofTexts texts) = []) := by
  have hflaw : ∀ f ∈ spacing (Line.ofTexts texts), ∃ i, flawAt? texts i = some f := by
    intro f hf
    rw [spacing_ofTexts] at hf
    obtain ⟨i, -, hi⟩ := List.mem_filterMap.mp hf
    exact ⟨i, hi⟩
  refine ⟨?_, count_missingBlank texts, ?_, pairwise_line?_spacing texts, ?_⟩
  · intro f hf
    obtain ⟨i, hi⟩ := hflaw f hf
    obtain ⟨n, hn, -⟩ := exists_line?_of_flawAt? hi
    exact ⟨n, hn⟩
  · intro n
    rw [count_strayBlank]
    by_cases hblank : BlankInBody texts n
    · by_cases hprevious : kindAt? texts (n - 1) = some .blank
      · -- Below a blank line there is no group that could be parted from its release.
        have hparts : PartsLines texts n ↔ kindAt? texts (n + 1) = some .entry := by
          simp [PartsLines, hprevious]
        simp only [hblank, hprevious, hparts, true_and, true_or, if_true]
        split <;> rfl
      · simp [hblank, hprevious]
    · simp [hblank]
  · intro hnone
    apply List.eq_nil_iff_forall_not_mem.mpr
    intro f hf
    obtain ⟨i, hi⟩ := hflaw f hf
    obtain ⟨-, -, ⟨k, hk, -⟩, -⟩ := flawAt?_eq_some_iff.mp hi
    simp [hnone] at hk

/-- The second blank line is one too many, and it parts an entry from its group. -/
example : spacing (Line.ofTexts ["## [1.0.0] - 2017-06-20".toList, "### Added".toList, [], [],
    "- a".toList]) = [.strayBlank 4, .strayBlank 4] := by
  decide +kernel

end Check.Context

end ReleaseLog
