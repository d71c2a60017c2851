import ReleaseLog.Text.Basic

/-!
# Numbers, dates and times in TOML

A recogniser takes a text and returns what is left after the longest form that it knows.
-/

namespace ReleaseLog.Toml.Plain

/-- The text after digits of a class, which single underscores may separate. -/
def moreDigits (p : Char → Bool) : Text → Text
  | '_' :: c :: rest => if p c then moreDigits p rest else '_' :: c :: rest
  | c :: rest => if p c then moreDigits p rest else c :: rest
  | [] => []

def digits? (p : Char → Bool) : Text → Option Text
  | c :: rest => if p c then some (moreDigits p rest) else none
  | [] => none

def unsigned : Text → Text
  | '+' :: rest => rest
  | '-' :: rest => rest
  | rest => rest

/-- Decimal digits without a leading zero. -/
def whole? : Text → Option Text
  | '0' :: rest => some rest
  | rest => digits? Char.isDigit rest

/-- A number with a prefix for its base. -/
def isBased : Text → Bool
  | '0' :: 'x' :: rest => digits? (Text.hexValue? · |>.isSome) rest == some []
  | '0' :: 'o' :: rest => digits? (fun c => '0' ≤ c && c ≤ '7') rest == some []
  | '0' :: 'b' :: rest => digits? (fun c => c = '0' || c = '1') rest == some []
  | _ => false

/-- An optional exponent up to the end. -/
def isExponent : Text → Bool
  | [] => true
  | c :: rest => (c = 'e' || c = 'E') && digits? Char.isDigit (unsigned rest) == some []

/-- An optional fraction and exponent up to the end. -/
def isTail : Text → Bool
  | '.' :: rest =>
    match digits? Char.isDigit rest with
    | some rest => isExponent rest
    | none => false
  | rest => isExponent rest

def isNumber (s : Text) : Bool :=
  isBased s ||
    (unsigned s == "inf".toList || unsigned s == "nan".toList ||
      match whole? (unsigned s) with
      | some rest => isTail rest
      | none => false)

def two? (a b : Char) : Option Nat :=
  if a.isDigit && b.isDigit then some (Text.number [a, b]) else none

def daysOf (year month : Nat) : Nat :=
  if month = 2 then
    if year % 4 = 0 ∧ (year % 100 ≠ 0 ∨ year % 400 = 0) then 29 else 28
  else if month = 4 ∨ month = 6 ∨ month = 9 ∨ month = 11 then 30
  else 31

def date? : Text → Option Text
  | y₁ :: y₂ :: y₃ :: y₄ :: '-' :: m₁ :: m₂ :: '-' :: d₁ :: d₂ :: rest => do
    let century ← two? y₁ y₂
    let year ← two? y₃ y₄
    let month ← two? m₁ m₂
    let day ← two? d₁ d₂
    guard (1 ≤ month ∧ month ≤ 12 ∧ 1 ≤ day ∧ day ≤ daysOf (100 * century + year) month)
    return rest
  | _ => none

/-- The text after optional seconds and their fraction. -/
def seconds? : Text → Option Text
  | ':' :: a :: b :: rest => do
    guard ((← two? a b) ≤ 60)
    match rest with
    | '.' :: c :: rest => if c.isDigit then return rest.dropWhile Char.isDigit else none
    | rest => return rest
  | rest => some rest

def time? : Text → Option Text
  | h₁ :: h₂ :: ':' :: m₁ :: m₂ :: rest => do
    guard ((← two? h₁ h₂) ≤ 23 ∧ (← two? m₁ m₂) ≤ 59)
    seconds? rest
  | _ => none

/-- An optional offset from universal time up to the end. -/
def isOffset : Text → Bool
  | [] => true
  | [z] => z = 'Z' || z = 'z'
  | [s, h₁, h₂, ':', m₁, m₂] =>
    (s = '+' || s = '-') && (two? h₁ h₂).any (· ≤ 23) && (two? m₁ m₂).any (· ≤ 59)
  | _ => false

/-- A date, a time, or both with an optional offset. -/
def isDateTime (s : Text) : Bool :=
  time? s == some [] ||
    match date? s with
    | some [] => true
    | some (c :: rest) =>
      (c = 'T' || c = 't' || c = ' ') &&
        match time? rest with
        | some rest => isOffset rest
        | none => false
    | none => false

/-- A character that may stand in a number or a date. -/
def isPart (c : Char) : Bool :=
  c.isAlphanum || c = '_' || c = '+' || c = '-' || c = '.' || c = ':'

/-- The number or date at the start of a text. A blank may stand between a date and a time. -/
def take? (s : Text) : Option (Text × Text) :=
  let first := s.takeWhile isPart
  let rest := s.dropWhile isPart
  let (written, rest) :=
    match rest with
    | ' ' :: c :: more =>
      if date? first = some [] ∧ c.isDigit then
        (first ++ ' ' :: (c :: more).takeWhile isPart, (c :: more).dropWhile isPart)
      else (first, rest)
    | _ => (first, rest)
  if isNumber written || isDateTime written then some (written, rest) else none

end ReleaseLog.Toml.Plain
