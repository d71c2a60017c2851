import ReleaseLog.Json.Basic

/-!
# Reading JSON

Every reader takes the text that is left and returns what it read with the text after it. A nested
value costs one unit of fuel, and so does each item or field; a text of length `n` never needs more
than `n + 1`.
-/

namespace ReleaseLog.Json

def isBlank (c : Char) : Bool :=
  c = ' ' || c = '\t' || c = '\n' || c = '\r'

def skip (s : Text) : Text :=
  s.dropWhile isBlank

def unescape? (c : Char) : Option Char :=
  if c = '"' ∨ c = '\\' ∨ c = '/' then some c
  else if c = 'b' then some '\x08'
  else if c = 'f' then some '\x0c'
  else if c = 'n' then some '\n'
  else if c = 'r' then some '\r'
  else if c = 't' then some '\t'
  else none

/-- The character of a surrogate pair. -/
def pair? (high low : Nat) : Option Char :=
  if 0xD800 ≤ high ∧ high < 0xDC00 ∧ 0xDC00 ≤ low ∧ low < 0xE000 then
    some (Char.ofNat (0x10000 + (high - 0xD800) * 0x400 + (low - 0xDC00)))
  else none

/-- The rest of a string after its opening quote, up to and with the closing one. A surrogate has to
be half of a pair. -/
def stringTail : Text → Option (Text × Text)
  | '"' :: rest => some ([], rest)
  | '\\' :: 'u' :: a :: b :: c :: d :: rest => do
    let n ← Text.hexNumber? [a, b, c, d]
    if n < 0xD800 ∨ 0xE000 ≤ n then
      let (s, rest) ← stringTail rest
      return (Char.ofNat n :: s, rest)
    else
      match rest with
      | '\\' :: 'u' :: e :: f :: g :: h :: rest =>
        let char ← pair? n (← Text.hexNumber? [e, f, g, h])
        let (s, rest) ← stringTail rest
        return (char :: s, rest)
      | _ => none
  | '\\' :: c :: rest => do
    let char ← unescape? c
    let (s, rest) ← stringTail rest
    return (char :: s, rest)
  | c :: rest => do
    guard (0x20 ≤ c.toNat)
    let (s, rest) ← stringTail rest
    return (c :: s, rest)
  | [] => none

def digits? (s : Text) : Option (Text × Text) :=
  if (s.takeWhile Char.isDigit).isEmpty then none
  else some (s.takeWhile Char.isDigit, s.dropWhile Char.isDigit)

/-- The exponent of a number, with its mark and its sign. -/
def exponent? : Text → Option (Int × Text)
  | e :: rest =>
    if e = 'e' ∨ e = 'E' then
      match rest with
      | '-' :: rest => (digits? rest).map fun (ds, rest) => (-(Text.number ds : Int), rest)
      | '+' :: rest => (digits? rest).map fun (ds, rest) => ((Text.number ds : Int), rest)
      | rest => (digits? rest).map fun (ds, rest) => ((Text.number ds : Int), rest)
    else none
  | [] => none

/-- A number. No digit may follow a leading zero. -/
def number? (s : Text) : Option (Json × Text) := do
  let (negative, s) := match s with
    | '-' :: rest => (true, rest)
    | rest => (false, rest)
  let sign (n : Nat) : Int := if negative then -(n : Int) else n
  let (whole, s) ← digits? s
  guard (whole.head? ≠ some '0' ∨ whole.length = 1)
  let (fraction, s) ← match s with
    | '.' :: rest => (digits? rest).map fun (ds, rest) => (some ds, rest)
    | rest => some (none, rest)
  let places := (fraction.getD []).length
  let digits := Text.number (whole ++ fraction.getD [])
  if s.head? = some 'e' ∨ s.head? = some 'E' then
    let (exponent, s) ← exponent? s
    return (.real (sign digits) (exponent - places), s)
  else if fraction.isSome then return (.real (sign digits) (-(places : Int)), s)
  else return (.int (sign digits), s)

mutual

/-- The value at the start of a text, after white space. -/
def value? : Nat → Text → Option (Json × Text)
  | 0, _ => none
  | fuel + 1, s =>
    match skip s with
    | '"' :: rest => (stringTail rest).map fun (s, rest) => (.str s, rest)
    | '[' :: rest =>
      match skip rest with
      | ']' :: rest => some (.arr [], rest)
      | rest => (items? fuel rest).map fun (items, rest) => (.arr items, rest)
    | '{' :: rest =>
      match skip rest with
      | '}' :: rest => some (.obj [], rest)
      | rest => (fields? fuel rest).map fun (fields, rest) => (.obj fields, rest)
    | s =>
      if let some rest := s.after? "null".toList then some (.null, rest)
      else if let some rest := s.after? "true".toList then some (.bool true, rest)
      else if let some rest := s.after? "false".toList then some (.bool false, rest)
      else number? s

/-- The items of an array up to and with the closing bracket. -/
def items? : Nat → Text → Option (List Json × Text)
  | 0, _ => none
  | fuel + 1, s => do
    let (item, s) ← value? fuel s
    match skip s with
    | ',' :: s =>
      let (items, s) ← items? fuel s
      return (item :: items, s)
    | ']' :: s => return ([item], s)
    | _ => none

/-- The fields of an object up to and with the closing brace. -/
def fields? : Nat → Text → Option (List (Text × Json) × Text)
  | 0, _ => none
  | fuel + 1, s => do
    let '"' :: s := skip s | none
    let (name, s) ← stringTail s
    let ':' :: s := skip s | none
    let (value, s) ← value? fuel s
    match skip s with
    | ',' :: s =>
      let (fields, s) ← fields? fuel s
      return ((name, value) :: fields, s)
    | '}' :: s => return ([(name, value)], s)
    | _ => none

end

/-- The value of a text that is one JSON value with white space around it. -/
def parse? (s : Text) : Option Json := do
  let (value, rest) ← value? (s.length + 1) s
  guard (skip rest).isEmpty
  return value

end ReleaseLog.Json
