import ReleaseLog.Json.Parser
import ReleaseLog.Json.Printer
import ReleaseLog.Proofs.Text.Numerals
import Mathlib.Data.Option.Basic

/-!
# Printed strings and numbers are read back

Each character of a string is read back from its escaped form. A number is read back where no text
follows that could belong to it.
-/

namespace ReleaseLog.Json

/-! ## Strings -/

theorem hexNumber?_control : ∀ n < 0x20,
    Text.hexNumber? ['0', '0', Nat.digitChar (n / 16), Nat.digitChar (n % 16)] = some n := by
  decide

theorem stringTail_letter {c d : Char} (hc : c ≠ 'u') (h : unescape? c = some d) (rest : Text) :
    stringTail ('\\' :: c :: rest) = (stringTail rest).map fun (s, rest) => (d :: s, rest) := by
  rw [stringTail, h]
  · cases stringTail rest <;> rfl
  · simp [hc]

/-- An escape with four digits that is no surrogate stands for its code point. -/
theorem stringTail_digits {a b c d : Char} {n : Nat} (h : Text.hexNumber? [a, b, c, d] = some n)
    (hn : n < 0xD800) (rest : Text) :
    stringTail ('\\' :: 'u' :: a :: b :: c :: d :: rest) =
      (stringTail rest).map fun (s, rest) => (Char.ofNat n :: s, rest) := by
  rw [stringTail, h]
  simp only [Option.bind_eq_bind, Option.bind_some, hn, true_or, if_true]
  cases stringTail rest <;> rfl

theorem stringTail_plain {c : Char} (hquote : c ≠ '"') (hslash : c ≠ '\\') (hc : 0x20 ≤ c.toNat)
    (rest : Text) :
    stringTail (c :: rest) = (stringTail rest).map fun (s, rest) => (c :: s, rest) := by
  rw [stringTail]
  · simp only [guard, if_pos hc]
    cases stringTail rest <;> rfl
  · exact hquote
  · simp [hslash]
  · simp [hslash]

/-- The characters that are escaped with one letter, and their letters. -/
def letters : List (Char × Char) :=
  [('"', '"'), ('\\', '\\'), ('\x08', 'b'), ('\x0c', 'f'), ('\n', 'n'), ('\r', 'r'), ('\t', 't')]

theorem escape_of_mem_letters : ∀ p ∈ letters,
    escape p.1 = ['\\', p.2] ∧ p.2 ≠ 'u' ∧ unescape? p.2 = some p.1 := by
  decide

/-- The other controls are escaped with their digits, and all else is not escaped. -/
theorem escape_of_forall_ne {c : Char} (h : ∀ p ∈ letters, c ≠ p.1) :
    escape c =
      if c.toNat < 0x20 then
        ['\\', 'u', '0', '0', Nat.digitChar (c.toNat / 16), Nat.digitChar (c.toNat % 16)]
      else [c] := by
  simp only [letters, List.forall_mem_cons] at h
  simp [escape, h]

/-- A character is read back from its escaped form. -/
theorem stringTail_escape (c : Char) (rest : Text) :
    stringTail (escape c ++ rest) = (stringTail rest).map fun (s, rest) => (c :: s, rest) := by
  by_cases hletter : ∃ p ∈ letters, c = p.1
  · obtain ⟨p, hp, rfl⟩ := hletter
    obtain ⟨hescape, hu, hread⟩ := escape_of_mem_letters p hp
    rw [hescape]
    exact stringTail_letter hu hread rest
  · have hne : ∀ p ∈ letters, c ≠ p.1 := fun p hp hc => hletter ⟨p, hp, hc⟩
    rw [escape_of_forall_ne hne]
    split
    · rename_i hcontrol
      have hdigits := stringTail_digits (hexNumber?_control c.toNat hcontrol) (by omega) rest
      rwa [Char.ofNat_toNat] at hdigits
    · have hquote := hne ('"', '"') (by decide)
      have hslash := hne ('\\', '\\') (by decide)
      exact stringTail_plain hquote hslash (by omega) rest

theorem stringTail_quoted (s rest : Text) :
    stringTail (s.flatMap escape ++ '"' :: rest) = some (s, rest) := by
  induction s with
  | nil => rw [List.flatMap_nil, List.nil_append, stringTail]
  | cons c s ih => rw [List.flatMap_cons, List.append_assoc, stringTail_escape, ih, Option.map_some]

/-! ## Numbers -/

/-- A number before this text is over. -/
def EndsNumber (rest : Text) : Prop :=
  ∀ c ∈ rest.head?, c.isDigit = false ∧ c ≠ '.' ∧ c ≠ 'e' ∧ c ≠ 'E'

theorem endsNumber_cons {c : Char} (hdigit : c.isDigit = false)
    (hc : c ≠ '.' ∧ c ≠ 'e' ∧ c ≠ 'E') (s : Text) : EndsNumber (c :: s) := by
  intro d hd
  obtain rfl : c = d := Option.some.inj hd
  exact ⟨hdigit, hc⟩

theorem digits?_append {digits rest : Text} (hne : digits ≠ [])
    (hdigits : ∀ c ∈ digits, c.isDigit = true) (hrest : ∀ c ∈ rest.head?, c.isDigit = false) :
    digits? (digits ++ rest) = some (digits, rest) := by
  have htake : rest.takeWhile Char.isDigit = [] := by
    cases rest with
    | nil => rfl
    | cons c rest => simp [hrest c rfl]
  have hdrop : rest.dropWhile Char.isDigit = rest := by
    cases rest with
    | nil => rfl
    | cons c rest => simp [hrest c rfl]
  rw [digits?, List.takeWhile_append_of_pos hdigits, List.dropWhile_append_of_pos hdigits, htake,
    hdrop, List.append_nil, if_neg (by simpa using hne)]

theorem digits?_decimal (n : Nat) {rest : Text} (h : ∀ c ∈ rest.head?, c.isDigit = false) :
    digits? (Text.decimal n ++ rest) = some (Text.decimal n, rest) :=
  digits?_append (Text.decimal_ne_nil n) (fun _ => Text.isDigit_of_mem_decimal) h

theorem exists_cons_decimal (n : Nat) :
    ∃ c rest, Text.decimal n = c :: rest ∧ c.isDigit = true := by
  obtain ⟨c, rest, h⟩ := List.exists_cons_of_ne_nil (Text.decimal_ne_nil n)
  exact ⟨c, rest, h, Text.isDigit_of_mem_decimal (h ▸ List.mem_cons_self)⟩

/-- An integer starts with a sign or a digit. -/
theorem exists_cons_integer (n : Int) :
    ∃ c s, integer n = c :: s ∧ (c = '-' ∨ c.isDigit = true) := by
  unfold integer
  split
  · exact ⟨'-', _, rfl, .inl rfl⟩
  · obtain ⟨c, s, hs, hc⟩ := exists_cons_decimal n.natAbs
    exact ⟨c, s, hs, .inr hc⟩

theorem exponent?_integer (n : Int) {rest : Text} (h : ∀ c ∈ rest.head?, c.isDigit = false) :
    exponent? ('e' :: integer n ++ rest) = some (n, rest) := by
  have hread := digits?_decimal n.natAbs h
  by_cases hn : n < 0
  · have habs : -(n.natAbs : Int) = n := by omega
    rw [integer, if_pos hn]
    generalize n.natAbs = m at hread habs ⊢
    simp [exponent?, hread, Text.number_decimal, habs]
  · have habs : (n.natAbs : Int) = n := by omega
    obtain ⟨c, digits, hdigits, hc⟩ := exists_cons_decimal n.natAbs
    have hnumber : Text.number (c :: digits) = n.natAbs := by rw [← hdigits, Text.number_decimal]
    have hsign : c ≠ '-' ∧ c ≠ '+' := by
      constructor <;> (rintro rfl; exact absurd hc (by decide))
    rw [hdigits, List.cons_append] at hread
    simp [integer, hn, hdigits, exponent?, hsign, hread, hnumber, habs]

/-- An integer in front of a text without a fraction is the number, or the digits of one with an
exponent. -/
theorem number?_append (n : Int) {rest : Text} (hdigit : ∀ c ∈ rest.head?, c.isDigit = false)
    (hpoint : ∀ tail, rest ≠ '.' :: tail) :
    number? (integer n ++ rest) =
      if rest.head? = some 'e' ∨ rest.head? = some 'E' then
        (exponent? rest).map fun (exponent, rest) => (.real n exponent, rest)
      else some (.int n, rest) := by
  have hmap : (exponent? rest).map (fun (exponent, rest) => (Json.real n exponent, rest)) =
      (exponent? rest).bind fun (exponent, rest) => some (.real n exponent, rest) := by
    cases exponent? rest <;> rfl
  rw [hmap]
  by_cases hn : n < 0
  · have habs : -(n.natAbs : Int) = n := by omega
    have hzero := Text.head?_decimal n.natAbs
    rw [integer, if_pos hn]
    generalize n.natAbs = m at habs hzero ⊢
    simp [number?, digits?_decimal _ hdigit, guard, hzero, Text.number_decimal, habs]
  · have habs : (n.natAbs : Int) = n := by omega
    obtain ⟨c, digits, hdigits, hc⟩ := exists_cons_decimal n.natAbs
    have hminus : c ≠ '-' := by
      rintro rfl
      exact absurd hc (by decide)
    have hread := digits?_decimal n.natAbs hdigit
    rw [hdigits, List.cons_append] at hread
    have hnumber : Text.number (c :: digits) = n.natAbs := by rw [← hdigits, Text.number_decimal]
    have hzero : c ≠ '0' ∨ digits = [] := by simpa [hdigits] using Text.head?_decimal n.natAbs
    simp [integer, hn, hdigits, number?, hminus, hread, guard, hzero, hnumber, habs]

theorem number?_integer (n : Int) {rest : Text} (h : EndsNumber rest) :
    number? (integer n ++ rest) = some (.int n, rest) := by
  rw [number?_append n (fun c hc => (h c hc).1) fun tail htail => (h '.' (by simp [htail])).2.1 rfl]
  apply if_neg
  rintro (he | he)
  · exact (h 'e' he).2.2.1 rfl
  · exact (h 'E' he).2.2.2 rfl

theorem number?_real (digits exponent : Int) {rest : Text} (h : EndsNumber rest) :
    number? (scalar (.real digits exponent) ++ rest) = some (.real digits exponent, rest) := by
  have hexponent := exponent?_integer exponent fun c hc => (h c hc).1
  rw [scalar, List.append_assoc, number?_append digits (by simp) (by simp)]
  simp only [List.cons_append] at hexponent ⊢
  rw [if_pos (.inl rfl), hexponent, Option.map_some]

end ReleaseLog.Json
