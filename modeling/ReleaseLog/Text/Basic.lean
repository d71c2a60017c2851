/-!
# Text

A text is a list of Unicode scalar values. This module has the blank and white-space classes, the
trims built on them, decimal numerals and lengths in UTF-16 code units.
-/

namespace ReleaseLog

/-- A text is the list of its Unicode scalar values. -/
abbrev Text := List Char

namespace Text

/-! ## Classes of white space -/

/-- The six white-space characters of ASCII: tab, line feed, vertical tab, form feed, carriage
return and space. -/
def isAsciiSpace (c : Char) : Bool :=
  c = '\t' || c = '\n' || c = '\x0b' || c = '\x0c' || c = '\r' || c = ' '

/-- The Unicode property `White_Space`. -/
def isSpace (c : Char) : Bool :=
  isAsciiSpace c || c = '\u0085' || c = '\u00a0' || c = '\u1680' ||
    ('\u2000' ≤ c && c ≤ '\u200a') || c = '\u2028' || c = '\u2029' || c = '\u202f' ||
    c = '\u205f' || c = '\u3000'

/-- A blank text has only spaces and control characters up to U+0020. -/
def isBlank (s : Text) : Bool :=
  s.all (· ≤ ' ')

@[simp] theorem isBlank_nil : isBlank [] = true := rfl

@[simp] theorem isBlank_cons (c : Char) (s : Text) :
    isBlank (c :: s) = (decide (c ≤ ' ') && isBlank s) := rfl

/-! ## Leading texts -/

/-- What follows `lead` in a text that starts with it. -/
def after? : Text → (lead : Text) → Option Text
  | s, [] => some s
  | [], _ :: _ => none
  | c :: s, d :: lead => if c = d then after? s lead else none

theorem after?_eq_some_iff {s lead rest : Text} : s.after? lead = some rest ↔ s = lead ++ rest := by
  induction lead generalizing s with
  | nil => simp [after?]
  | cons d lead ih =>
    cases s with
    | nil => simp [after?]
    | cons c s => by_cases h : c = d <;> simp [after?, h, ih]

def startsWith (s lead : Text) : Bool :=
  (s.after? lead).isSome

theorem startsWith_iff {s lead : Text} : s.startsWith lead = true ↔ ∃ rest, s = lead ++ rest := by
  simp [startsWith, Option.isSome_iff_exists, after?_eq_some_iff]

/-- The text without `lead`, as often as it stands in front. -/
def withoutLead (s lead : Text) : Text :=
  Nat.repeat (fun s => (s.after? lead).getD s) s.length s

/-! ## Trimming -/

/-- The text without the characters of a class at both ends. -/
def trimBy (p : Char → Bool) (s : Text) : Text :=
  ((s.dropWhile p).reverse.dropWhile p).reverse

def trim (s : Text) : Text :=
  trimBy isSpace s

/-- What follows a non-empty run of ASCII white space. -/
def afterSpaces? : Text → Option Text
  | [] => none
  | c :: s => if isAsciiSpace c then some (s.dropWhile isAsciiSpace) else none

/-! ## Numerals and lengths -/

def decimal (n : Nat) : Text :=
  Nat.toDigits 10 n

def number (digits : Text) : Nat :=
  digits.foldl (fun n c => 10 * n + (c.toNat - '0'.toNat)) 0

/-- The value of a hexadecimal digit in either case. -/
def hexValue? (c : Char) : Option Nat :=
  if '0' ≤ c ∧ c ≤ '9' then some (c.toNat - '0'.toNat)
  else if 'a' ≤ c ∧ c ≤ 'f' then some (c.toNat - 'a'.toNat + 10)
  else if 'A' ≤ c ∧ c ≤ 'F' then some (c.toNat - 'A'.toNat + 10)
  else none

def hexNumber? (digits : Text) : Option Nat :=
  digits.foldlM (fun n c => (hexValue? c).map (16 * n + ·)) 0

/-- The texts one after another, with a separator between neighbours. -/
def joinWith (separator : Text) : List Text → Text
  | [] => []
  | [s] => s
  | s :: rest => s ++ separator ++ joinWith separator rest

/-- The number of UTF-16 code units of a character: two outside the basic plane. -/
def unitsOf (c : Char) : Nat :=
  if c.val < 0x10000 then 1 else 2

def units (s : Text) : Nat :=
  s.foldr (fun c n => unitsOf c + n) 0

@[simp] theorem units_nil : units [] = 0 := rfl

@[simp] theorem units_cons (c : Char) (s : Text) : units (c :: s) = unitsOf c + units s := rfl

end Text

end ReleaseLog
