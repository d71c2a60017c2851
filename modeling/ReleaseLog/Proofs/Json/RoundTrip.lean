import ReleaseLog.Proofs.Json.Scalars

/-!
# Printed JSON is read back

What the indented form of a value prints is read as that value, whatever its strings hold and
however deep it nests.
-/

namespace ReleaseLog.Json

/-! ## White space and what stands after it -/

def IsBlanks (blanks : Text) : Prop :=
  ∀ c ∈ blanks, isBlank c = true

theorem isBlanks_nil : IsBlanks [] := by
  simp [IsBlanks]

theorem isBlanks_newline (depth : Nat) : IsBlanks (newline depth) := by
  intro c hc
  rcases List.mem_cons.mp hc with rfl | hc
  · rfl
  · rw [List.eq_of_mem_replicate hc]
    rfl

/-- A character where a value may start: no white space, and no end of an array. -/
def Opens (c : Char) : Prop :=
  isBlank c = false ∧ c ≠ ']'

theorem Opens.of_isDigit {c : Char} (h : c.isDigit = true) : Opens c := by
  have hne : ∀ d : Char, d.isDigit = false → c ≠ d := by
    rintro d hd rfl
    simp [hd] at h
  simp [Opens, isBlank, hne]

theorem skip_append {blanks : Text} (h : IsBlanks blanks) (s : Text) :
    skip (blanks ++ s) = skip s :=
  List.dropWhile_append_of_pos h

theorem skip_cons {c : Char} (h : isBlank c = false) (s : Text) : skip (c :: s) = c :: s :=
  List.dropWhile_cons_of_neg (by simp [h])

/-- White space before a value is passed over. -/
theorem value?_append {blanks : Text} (h : IsBlanks blanks) (fuel : Nat) (s : Text) :
    value? fuel (blanks ++ s) = value? fuel s := by
  cases fuel with
  | zero => rw [value?, value?]
  | succ fuel => rw [value?, value?, skip_append h]

theorem exists_cons_pretty (depth : Nat) (v : Json) : ∃ c s, pretty depth v = c :: s ∧ Opens c := by
  have hinteger : ∀ n s, ∃ c t, integer n ++ s = c :: t ∧ Opens c := by
    intro n s
    obtain ⟨c, t, hc, rfl | hdigit⟩ := exists_cons_integer n
    · exact ⟨'-', t ++ s, by rw [hc, List.cons_append], rfl, by decide⟩
    · exact ⟨c, t ++ s, by rw [hc, List.cons_append], .of_isDigit hdigit⟩
  cases v with
  | null => exact ⟨'n', _, rfl, rfl, by decide⟩
  | bool b =>
      cases b with
      | false => exact ⟨'f', _, rfl, rfl, by decide⟩
      | true => exact ⟨'t', _, rfl, rfl, by decide⟩
  | int n =>
      have h := hinteger n []
      rwa [List.append_nil] at h
  | real digits exponent => exact hinteger digits ('e' :: integer exponent)
  | str s => exact ⟨'"', _, rfl, rfl, by decide⟩
  | arr items => cases items <;> exact ⟨'[', _, rfl, rfl, by decide⟩
  | obj fields => cases fields <;> exact ⟨'{', _, rfl, rfl, by decide⟩

/-! ## Values -/

/-- What holds of every value without parts, and of a container if it does of all that is in it,
holds of every value. -/
theorem induction {P : Json → Prop} (null : P .null) (bool : ∀ b, P (.bool b))
    (int : ∀ n, P (.int n)) (real : ∀ digits exponent, P (.real digits exponent))
    (str : ∀ s, P (.str s)) (arr : ∀ items, (∀ v ∈ items, P v) → P (.arr items))
    (obj : ∀ fields, (∀ field ∈ fields, P field.2) → P (.obj fields)) (v : Json) : P v := by
  refine @Json.rec P (fun items => ∀ v ∈ items, P v) (fun fields => ∀ field ∈ fields, P field.2)
    (fun field => P field.2) null bool int real str arr obj ?_ ?_ ?_ ?_ ?_ v
  · simp
  · exact fun v items hv hitems => List.forall_mem_cons.mpr ⟨hv, hitems⟩
  · simp
  · exact fun field fields hfield hfields => List.forall_mem_cons.mpr ⟨hfield, hfields⟩
  · exact fun _ _ hv => hv

/-- A value is read back from its indented form, in whatever text and after whatever white space
that stands. -/
def ReadBack (v : Json) : Prop :=
  ∀ ⦃depth fuel : Nat⦄ ⦃blanks rest : Text⦄, IsBlanks blanks → EndsNumber rest →
    (pretty depth v ++ rest).length < fuel →
    value? fuel (blanks ++ (pretty depth v ++ rest)) = some (v, rest)

/-- To read a value back it is enough to do so without white space before it. -/
theorem ReadBack.of_pretty {v : Json}
    (h : ∀ ⦃depth fuel : Nat⦄ ⦃rest : Text⦄, EndsNumber rest →
      (pretty depth v ++ rest).length ≤ fuel →
      value? (fuel + 1) (pretty depth v ++ rest) = some (v, rest)) : ReadBack v := by
  intro depth fuel blanks rest hblanks hrest hfuel
  rw [value?_append hblanks]
  obtain ⟨fuel, rfl⟩ := Nat.exists_eq_succ_of_ne_zero (Nat.ne_zero_of_lt hfuel)
  exact h hrest (Nat.le_of_lt_succ hfuel)

/-- What starts with a sign or a digit is read as a number. -/
theorem value?_of_number {c : Char} {s : Text} (hc : c = '-' ∨ c.isDigit = true) (fuel : Nat) :
    value? (fuel + 1) (c :: s) = number? (c :: s) := by
  have hne : ∀ d : Char, d ≠ '-' → d.isDigit = false → c ≠ d := by
    rintro d hminus hd rfl
    rcases hc with hc | hc
    · exact hminus hc
    · rw [hc] at hd
      exact Bool.noConfusion hd
  have hafter : ∀ (d : Char) (lead : Text), d ≠ '-' → d.isDigit = false →
      Text.after? (c :: s) (d :: lead) = none := by
    intro d lead hminus hd
    rw [Text.after?, if_neg (hne d hminus hd)]
  have hskip : skip (c :: s) = c :: s := by
    apply skip_cons
    simp [isBlank, hne]
  rw [value?, hskip]
  split
  · rename_i heq
    exact absurd (List.cons.inj heq).1 (hne '"' (by decide) (by decide))
  · rename_i heq
    exact absurd (List.cons.inj heq).1 (hne '[' (by decide) (by decide))
  · rename_i heq
    exact absurd (List.cons.inj heq).1 (hne '{' (by decide) (by decide))
  · have hnull : Text.after? (c :: s) "null".toList = none := hafter 'n' _ (by decide) (by decide)
    have htrue : Text.after? (c :: s) "true".toList = none := hafter 't' _ (by decide) (by decide)
    have hfalse : Text.after? (c :: s) "false".toList = none :=
      hafter 'f' _ (by decide) (by decide)
    simp only [hnull, htrue, hfalse]

theorem value?_quote (fuel : Nat) (s : Text) :
    value? (fuel + 1) ('"' :: s) = (stringTail s).map fun (s, rest) => (.str s, rest) := by
  rw [value?, skip_cons rfl]
  rfl

/-- After a bracket and white space, a character where a value may start begins the first item. -/
theorem value?_bracket {blanks : Text} (hblanks : IsBlanks blanks) {c : Char} (hc : Opens c)
    (fuel : Nat) (s : Text) :
    value? (fuel + 1) ('[' :: (blanks ++ c :: s)) =
      (items? fuel (c :: s)).map fun (items, rest) => (.arr items, rest) := by
  have hskip : skip (blanks ++ c :: s) = c :: s := by rw [skip_append hblanks, skip_cons hc.1]
  rw [value?, skip_cons rfl]
  simp [hskip, hc.2]

theorem value?_brace {blanks : Text} (hblanks : IsBlanks blanks) (fuel : Nat) (s : Text) :
    value? (fuel + 1) ('{' :: (blanks ++ '"' :: s)) =
      (fields? fuel ('"' :: s)).map fun (fields, rest) => (.obj fields, rest) := by
  have hskip : skip (blanks ++ '"' :: s) = '"' :: s := by rw [skip_append hblanks, skip_cons rfl]
  rw [value?, skip_cons rfl]
  simp [hskip]

theorem readBack_null : ReadBack .null := by
  refine ReadBack.of_pretty fun depth fuel rest _ _ => ?_
  show value? (fuel + 1) ('n' :: 'u' :: 'l' :: 'l' :: rest) = some (.null, rest)
  rw [value?, skip_cons rfl]
  simp [Text.after?]

theorem readBack_bool (b : Bool) : ReadBack (.bool b) := by
  refine ReadBack.of_pretty fun depth fuel rest _ _ => ?_
  cases b with
  | false =>
      show value? (fuel + 1) ('f' :: 'a' :: 'l' :: 's' :: 'e' :: rest) = some (.bool false, rest)
      rw [value?, skip_cons rfl]
      simp [Text.after?]
  | true =>
      show value? (fuel + 1) ('t' :: 'r' :: 'u' :: 'e' :: rest) = some (.bool true, rest)
      rw [value?, skip_cons rfl]
      simp [Text.after?]

theorem readBack_int (n : Int) : ReadBack (.int n) := by
  refine ReadBack.of_pretty fun depth fuel rest hrest _ => ?_
  have hread := number?_integer n hrest
  obtain ⟨c, s, hs, hc⟩ := exists_cons_integer n
  show value? (fuel + 1) (integer n ++ rest) = _
  rw [hs, List.cons_append] at hread ⊢
  rw [value?_of_number hc, hread]

theorem readBack_real (digits exponent : Int) : ReadBack (.real digits exponent) := by
  refine ReadBack.of_pretty fun depth fuel rest hrest _ => ?_
  have hread := number?_real digits exponent hrest
  obtain ⟨c, s, hs, hc⟩ := exists_cons_integer digits
  show value? (fuel + 1) (scalar (.real digits exponent) ++ rest) = _
  rw [scalar, hs, List.cons_append, List.cons_append] at hread ⊢
  rw [value?_of_number hc, hread]

theorem quote_append (s rest : Text) :
    quote s ++ rest = '"' :: (s.flatMap escape ++ '"' :: rest) := by
  simp [quote]

theorem readBack_str (s : Text) : ReadBack (.str s) := by
  refine ReadBack.of_pretty fun depth fuel rest _ _ => ?_
  show value? (fuel + 1) (quote s ++ rest) = _
  rw [quote_append, value?_quote, stringTail_quoted, Option.map_some]

/-! ## Containers -/

/-- The last item is followed by a bracket. -/
theorem items?_last {item : Json} (h : ReadBack item) {depth fuel : Nat} {blanks tail rest : Text}
    (hblanks : IsBlanks blanks) (htail : EndsNumber tail) (hskip : skip tail = ']' :: rest)
    (hfuel : (pretty depth item ++ tail).length < fuel) :
    items? (fuel + 1) (blanks ++ (pretty depth item ++ tail)) = some ([item], rest) := by
  rw [items?, h hblanks htail hfuel]
  simp [hskip]

/-- An item with a comma after it is followed by more items. -/
theorem items?_more {item : Json} (h : ReadBack item) {depth fuel : Nat}
    {blanks tail s rest : Text} {more : List Json} (hblanks : IsBlanks blanks)
    (htail : EndsNumber tail) (hskip : skip tail = ',' :: s)
    (hmore : items? fuel s = some (more, rest))
    (hfuel : (pretty depth item ++ tail).length < fuel) :
    items? (fuel + 1) (blanks ++ (pretty depth item ++ tail)) = some (item :: more, rest) := by
  rw [items?, h hblanks htail hfuel]
  simp [hskip, hmore]

/-- What follows the first item of an array up to its end. -/
def itemsTail (depth : Nat) (more : List Json) (rest : Text) : Text :=
  prettyItems (depth + 1) more ++ (newline depth ++ ']' :: rest)

theorem endsNumber_itemsTail (depth : Nat) (more : List Json) (rest : Text) :
    EndsNumber (itemsTail depth more rest) := by
  cases more with
  | nil => exact endsNumber_cons rfl (by decide) _
  | cons next more => exact endsNumber_cons rfl (by decide) _

theorem skip_itemsTail_nil (depth : Nat) (rest : Text) :
    skip (itemsTail depth [] rest) = ']' :: rest := by
  rw [itemsTail, prettyItems, List.nil_append, skip_append (isBlanks_newline depth), skip_cons rfl]

theorem itemsTail_cons (depth : Nat) (next : Json) (more : List Json) (rest : Text) :
    itemsTail depth (next :: more) rest =
      ',' :: (newline (depth + 1) ++ (pretty (depth + 1) next ++ itemsTail depth more rest)) := by
  simp [itemsTail, prettyItems]

/-- The items of an array are read back up to its end. -/
theorem items?_pretty {item : Json} {more : List Json} (h : ∀ v ∈ item :: more, ReadBack v)
    {depth fuel : Nat} {blanks : Text} (hblanks : IsBlanks blanks) (rest : Text)
    (hfuel : (pretty (depth + 1) item ++ itemsTail depth more rest).length < fuel) :
    items? (fuel + 1) (blanks ++ (pretty (depth + 1) item ++ itemsTail depth more rest)) =
      some (item :: more, rest) := by
  induction more generalizing item fuel blanks with
  | nil =>
      exact items?_last (h item List.mem_cons_self) hblanks (endsNumber_itemsTail depth [] rest)
        (skip_itemsTail_nil depth rest) hfuel
  | cons next more ih =>
      have hlength : (pretty (depth + 1) next ++ itemsTail depth more rest).length + 1 < fuel := by
        simp only [itemsTail_cons, List.length_append, List.length_cons] at hfuel ⊢
        omega
      obtain ⟨fuel, rfl⟩ := Nat.exists_eq_succ_of_ne_zero (Nat.ne_zero_of_lt hlength)
      have hmore := ih (fun v hv => h v (List.mem_cons_of_mem item hv))
        (isBlanks_newline (depth + 1)) (Nat.lt_of_succ_lt_succ hlength)
      refine items?_more (h item List.mem_cons_self) hblanks
        (endsNumber_itemsTail depth (next :: more) rest) ?_ hmore hfuel
      rw [itemsTail_cons, skip_cons rfl]

theorem readBack_arr {items : List Json} (h : ∀ v ∈ items, ReadBack v) : ReadBack (.arr items) := by
  refine ReadBack.of_pretty fun depth fuel rest hrest hfuel => ?_
  cases items with
  | nil =>
      show value? (fuel + 1) ('[' :: ']' :: rest) = some (.arr [], rest)
      rw [value?, skip_cons rfl]
      simp [skip_cons, isBlank]
  | cons item more =>
      have htext : pretty depth (.arr (item :: more)) ++ rest =
          '[' :: (newline (depth + 1) ++
            (pretty (depth + 1) item ++ itemsTail depth more rest)) := by
        simp [pretty, itemsTail]
      have hlength : (pretty (depth + 1) item ++ itemsTail depth more rest).length + 1 < fuel := by
        simp only [htext, newline, List.length_cons, List.length_append] at hfuel ⊢
        omega
      obtain ⟨fuel, rfl⟩ := Nat.exists_eq_succ_of_ne_zero (Nat.ne_zero_of_lt hlength)
      have hitems := items?_pretty h isBlanks_nil rest (Nat.lt_of_succ_lt_succ hlength)
      obtain ⟨c, s, hs, hc⟩ := exists_cons_pretty (depth + 1) item
      rw [htext]
      rw [List.nil_append, hs, List.cons_append] at hitems
      rw [hs, List.cons_append, value?_bracket (isBlanks_newline _) hc, hitems, Option.map_some]

theorem isBlanks_space : IsBlanks [' '] := by
  simp [IsBlanks, isBlank]

def fieldText (depth : Nat) (field : Text × Json) (tail : Text) : Text :=
  '"' :: (field.1.flatMap escape ++ '"' :: ':' :: ' ' :: (pretty depth field.2 ++ tail))

theorem skip_fieldText {blanks : Text} (h : IsBlanks blanks) (depth : Nat) (field : Text × Json)
    (tail : Text) : skip (blanks ++ fieldText depth field tail) = fieldText depth field tail := by
  rw [skip_append h, fieldText, skip_cons rfl]

/-- The last field is followed by a brace. -/
theorem fields?_last {field : Text × Json} (h : ReadBack field.2) {depth fuel : Nat}
    {blanks tail rest : Text} (hblanks : IsBlanks blanks) (htail : EndsNumber tail)
    (hskip : skip tail = '}' :: rest) (hfuel : (pretty depth field.2 ++ tail).length < fuel) :
    fields? (fuel + 1) (blanks ++ fieldText depth field tail) = some ([field], rest) := by
  have hvalue : value? fuel (' ' :: (pretty depth field.2 ++ tail)) = some (field.2, tail) :=
    h isBlanks_space htail hfuel
  rw [fields?, skip_fieldText hblanks, fieldText]
  simp [stringTail_quoted, skip_cons, isBlank, hskip, hvalue]

/-- A field with a comma after it is followed by more fields. -/
theorem fields?_more {field : Text × Json} (h : ReadBack field.2) {depth fuel : Nat}
    {blanks tail s rest : Text} {more : List (Text × Json)} (hblanks : IsBlanks blanks)
    (htail : EndsNumber tail) (hskip : skip tail = ',' :: s)
    (hmore : fields? fuel s = some (more, rest))
    (hfuel : (pretty depth field.2 ++ tail).length < fuel) :
    fields? (fuel + 1) (blanks ++ fieldText depth field tail) = some (field :: more, rest) := by
  have hvalue : value? fuel (' ' :: (pretty depth field.2 ++ tail)) = some (field.2, tail) :=
    h isBlanks_space htail hfuel
  rw [fields?, skip_fieldText hblanks, fieldText]
  simp [stringTail_quoted, skip_cons, isBlank, hskip, hvalue, hmore]

/-- What follows the first field of an object up to its end. -/
def fieldsTail (depth : Nat) (more : List (Text × Json)) (rest : Text) : Text :=
  prettyFields (depth + 1) more ++ (newline depth ++ '}' :: rest)

theorem endsNumber_fieldsTail (depth : Nat) (more : List (Text × Json)) (rest : Text) :
    EndsNumber (fieldsTail depth more rest) := by
  cases more with
  | nil => exact endsNumber_cons rfl (by decide) _
  | cons next more => exact endsNumber_cons rfl (by decide) _

theorem skip_fieldsTail_nil (depth : Nat) (rest : Text) :
    skip (fieldsTail depth [] rest) = '}' :: rest := by
  rw [fieldsTail, prettyFields, List.nil_append, skip_append (isBlanks_newline depth),
    skip_cons rfl]

theorem fieldsTail_cons (depth : Nat) (next : Text × Json) (more : List (Text × Json))
    (rest : Text) :
    fieldsTail depth (next :: more) rest =
      ',' :: (newline (depth + 1) ++ fieldText (depth + 1) next (fieldsTail depth more rest)) := by
  simp [fieldsTail, prettyFields, fieldText, quote]

theorem length_fieldText (depth : Nat) (field : Text × Json) (tail : Text) :
    (pretty depth field.2 ++ tail).length < (fieldText depth field tail).length := by
  simp only [fieldText, List.length_cons, List.length_append]
  omega

/-- The fields of an object are read back up to its end. -/
theorem fields?_pretty {field : Text × Json} {more : List (Text × Json)}
    (h : ∀ f ∈ field :: more, ReadBack f.2) {depth fuel : Nat} {blanks : Text}
    (hblanks : IsBlanks blanks) (rest : Text)
    (hfuel : (fieldText (depth + 1) field (fieldsTail depth more rest)).length < fuel) :
    fields? (fuel + 1) (blanks ++ fieldText (depth + 1) field (fieldsTail depth more rest)) =
      some (field :: more, rest) := by
  induction more generalizing field fuel blanks with
  | nil =>
      exact fields?_last (h field List.mem_cons_self) hblanks (endsNumber_fieldsTail depth [] rest)
        (skip_fieldsTail_nil depth rest) (Nat.lt_trans (length_fieldText _ _ _) hfuel)
  | cons next more ih =>
      have hvalue := Nat.lt_trans (length_fieldText (depth + 1) field _) hfuel
      have hlength :
          (fieldText (depth + 1) next (fieldsTail depth more rest)).length + 1 < fuel := by
        simp only [fieldsTail_cons, List.length_append, List.length_cons] at hvalue ⊢
        omega
      obtain ⟨fuel, rfl⟩ := Nat.exists_eq_succ_of_ne_zero (Nat.ne_zero_of_lt hlength)
      have hmore := ih (fun f hf => h f (List.mem_cons_of_mem field hf))
        (isBlanks_newline (depth + 1)) (Nat.lt_of_succ_lt_succ hlength)
      refine fields?_more (h field List.mem_cons_self) hblanks
        (endsNumber_fieldsTail depth (next :: more) rest) ?_ hmore hvalue
      rw [fieldsTail_cons, skip_cons rfl]

theorem readBack_obj {fields : List (Text × Json)} (h : ∀ field ∈ fields, ReadBack field.2) :
    ReadBack (.obj fields) := by
  refine ReadBack.of_pretty fun depth fuel rest hrest hfuel => ?_
  cases fields with
  | nil =>
      show value? (fuel + 1) ('{' :: '}' :: rest) = some (.obj [], rest)
      rw [value?, skip_cons rfl]
      simp [skip_cons, isBlank]
  | cons field more =>
      have htext : pretty depth (.obj (field :: more)) ++ rest =
          '{' :: (newline (depth + 1) ++
            fieldText (depth + 1) field (fieldsTail depth more rest)) := by
        simp [pretty, fieldsTail, fieldText, quote]
      have hlength :
          (fieldText (depth + 1) field (fieldsTail depth more rest)).length + 1 < fuel := by
        simp only [htext, newline, List.length_cons, List.length_append] at hfuel ⊢
        omega
      obtain ⟨fuel, rfl⟩ := Nat.exists_eq_succ_of_ne_zero (Nat.ne_zero_of_lt hlength)
      have hfields := fields?_pretty h isBlanks_nil rest (Nat.lt_of_succ_lt_succ hlength)
      rw [List.nil_append, fieldText] at hfields
      rw [htext, fieldText, value?_brace (isBlanks_newline _), hfields, Option.map_some]

/-! ## Documents -/

theorem ReadBack.all (v : Json) : ReadBack v :=
  induction readBack_null readBack_bool readBack_int readBack_real readBack_str
    (fun _ => readBack_arr) (fun _ => readBack_obj) v

/-- Every value is read back from its indented form. -/
theorem parse?_pretty (v : Json) : parse? (pretty 0 v) = some v := by
  have hends : EndsNumber [] := by simp [EndsNumber]
  have hlength : (pretty 0 v ++ []).length < (pretty 0 v).length + 1 := by simp
  have hread := ReadBack.all v isBlanks_nil hends hlength
  rw [List.nil_append, List.append_nil] at hread
  rw [parse?, hread]
  rfl

end ReleaseLog.Json
