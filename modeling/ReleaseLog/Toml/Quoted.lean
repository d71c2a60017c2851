import ReleaseLog.Text.Basic

/-!
# Quoted text in TOML

Each reader takes the text after the opening quotes and returns the quoted text with what follows
the closing quotes.
-/

namespace ReleaseLog.Toml.Quoted

/-- A character that may stand in a comment or a quoted text: a tab, or anything that is no control
character. -/
def isPlain (c : Char) : Bool :=
  c = '\t' || (0x20 ≤ c.toNat && c.toNat ≠ 0x7F)

/-- The character whose code point these hexadecimal digits write. Surrogates are no characters. -/
def codePoint? (digits : Text) : Option Char := do
  let n ← Text.hexNumber? digits
  guard (n < 0xD800 ∨ (0xE000 ≤ n ∧ n ≤ 0x10FFFF))
  return Char.ofNat n

/-- The character of an escape with one letter. -/
def escape? (c : Char) : Option Char :=
  if c = 'b' then some '\x08'
  else if c = 't' then some '\t'
  else if c = 'n' then some '\n'
  else if c = 'f' then some '\x0c'
  else if c = 'r' then some '\r'
  else if c = 'e' then some '\x1b'
  else if c = '"' then some '"'
  else if c = '\\' then some '\\'
  else none

/-- Puts a character in front of what a reader returns. -/
def push (c : Char) (r : Text × Text) : Text × Text :=
  (c :: r.1, r.2)

def basic? : Text → Option (Text × Text)
  | '"' :: rest => some ([], rest)
  | '\\' :: 'x' :: a :: b :: rest => do
    return push (← codePoint? [a, b]) (← basic? rest)
  | '\\' :: 'u' :: a :: b :: c :: d :: rest => do
    return push (← codePoint? [a, b, c, d]) (← basic? rest)
  | '\\' :: 'U' :: a :: b :: c :: d :: e :: f :: g :: h :: rest => do
    return push (← codePoint? [a, b, c, d, e, f, g, h]) (← basic? rest)
  | '\\' :: c :: rest => do
    return push (← escape? c) (← basic? rest)
  | c :: rest => if isPlain c then (basic? rest).map (push c) else none
  | [] => none

def literal? : Text → Option (Text × Text)
  | '\'' :: rest => some ([], rest)
  | c :: rest => if isPlain c then (literal? rest).map (push c) else none
  | [] => none

/-- A line break comes after any blanks. -/
def endsLine (s : Text) : Bool :=
  match s.dropWhile (fun c => c = ' ' || c = '\t') with
  | '\n' :: _ => true
  | '\r' :: '\n' :: _ => true
  | _ => false

/-- A basic text over several lines. A backslash at the end of a line skips the blanks and line
breaks after it. Up to two quotes may stand before the closing ones. -/
def basicLines? : (skipping : Bool) → Text → Option (Text × Text)
  | _, '"' :: '"' :: '"' :: '"' :: '"' :: rest => some (['"', '"'], rest)
  | _, '"' :: '"' :: '"' :: '"' :: rest => some (['"'], rest)
  | _, '"' :: '"' :: '"' :: rest => some ([], rest)
  | _, '\\' :: 'x' :: a :: b :: rest => do
    return push (← codePoint? [a, b]) (← basicLines? false rest)
  | _, '\\' :: 'u' :: a :: b :: c :: d :: rest => do
    return push (← codePoint? [a, b, c, d]) (← basicLines? false rest)
  | _, '\\' :: 'U' :: a :: b :: c :: d :: e :: f :: g :: h :: rest => do
    return push (← codePoint? [a, b, c, d, e, f, g, h]) (← basicLines? false rest)
  | _, '\\' :: c :: rest =>
    if endsLine (c :: rest) then
      if c = '\r' then
        match rest with
        | '\n' :: rest => basicLines? true rest
        | _ => none
      else basicLines? true rest
    else do return push (← escape? c) (← basicLines? false rest)
  | skipping, '\r' :: '\n' :: rest =>
    if skipping then basicLines? true rest
    else (basicLines? false rest).map (push '\r' <| push '\n' ·)
  | skipping, c :: rest =>
    if skipping ∧ (c = ' ' ∨ c = '\t' ∨ c = '\n') then basicLines? true rest
    else if isPlain c ∨ c = '\n' then (basicLines? false rest).map (push c)
    else none
  | _, [] => none

def literalLines? : Text → Option (Text × Text)
  | '\'' :: '\'' :: '\'' :: '\'' :: '\'' :: rest => some (['\'', '\''], rest)
  | '\'' :: '\'' :: '\'' :: '\'' :: rest => some (['\''], rest)
  | '\'' :: '\'' :: '\'' :: rest => some ([], rest)
  | '\r' :: '\n' :: rest => (literalLines? rest).map (push '\r' <| push '\n' ·)
  | c :: rest => if isPlain c ∨ c = '\n' then (literalLines? rest).map (push c) else none
  | [] => none

/-- The text after a line break that directly follows the opening quotes. -/
def afterBreak : Text → Text
  | '\n' :: rest => rest
  | '\r' :: '\n' :: rest => rest
  | rest => rest

def line? : Text → Option (Text × Text)
  | '"' :: rest => basic? rest
  | '\'' :: rest => literal? rest
  | _ => none

def any? : Text → Option (Text × Text)
  | '"' :: '"' :: '"' :: rest => basicLines? false (afterBreak rest)
  | '\'' :: '\'' :: '\'' :: rest => literalLines? (afterBreak rest)
  | s => line? s

end ReleaseLog.Toml.Quoted
