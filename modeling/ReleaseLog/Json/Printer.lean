import ReleaseLog.Json.Basic

/-!
# Printing JSON

The indented form has one item or field a line, two blanks deeper than its container, and writes an
empty container on one line. The compact form has no white space at all.
-/

namespace ReleaseLog.Json

/-- A character inside a string. The quote, the backslash and the controls below U+0020 are escaped,
all else stands for itself. -/
def escape (c : Char) : Text :=
  if c = '"' then "\\\"".toList
  else if c = '\\' then "\\\\".toList
  else if c = '\x08' then "\\b".toList
  else if c = '\x0c' then "\\f".toList
  else if c = '\n' then "\\n".toList
  else if c = '\r' then "\\r".toList
  else if c = '\t' then "\\t".toList
  else if c.toNat < 0x20 then
    "\\u00".toList ++ [Nat.digitChar (c.toNat / 16), Nat.digitChar (c.toNat % 16)]
  else [c]

def quote (s : Text) : Text :=
  '"' :: s.flatMap escape ++ ['"']

def integer (n : Int) : Text :=
  if n < 0 then '-' :: Text.decimal n.natAbs else Text.decimal n.natAbs

/-- A value without parts. -/
def scalar : Json → Text
  | .null => "null".toList
  | .bool true => "true".toList
  | .bool false => "false".toList
  | .int n => integer n
  | .real digits exponent => integer digits ++ 'e' :: integer exponent
  | .str s => quote s
  | .arr _ => "[]".toList
  | .obj _ => ['{', '}']

/-- A line break and the blanks of a nesting depth. -/
def newline (depth : Nat) : Text :=
  '\n' :: List.replicate (2 * depth) ' '

mutual

def pretty (depth : Nat) : Json → Text
  | .arr (item :: rest) =>
    '[' :: newline (depth + 1) ++ pretty (depth + 1) item ++ prettyItems (depth + 1) rest ++
      newline depth ++ [']']
  | .obj ((name, value) :: rest) =>
    '{' :: newline (depth + 1) ++ quote name ++ ": ".toList ++ pretty (depth + 1) value ++
      prettyFields (depth + 1) rest ++ newline depth ++ ['}']
  | value => scalar value

/-- The items after the first one of an array. -/
def prettyItems (depth : Nat) : List Json → Text
  | [] => []
  | item :: rest => ',' :: newline depth ++ pretty depth item ++ prettyItems depth rest

/-- The fields after the first one of an object. -/
def prettyFields (depth : Nat) : List (Text × Json) → Text
  | [] => []
  | (name, value) :: rest =>
    ',' :: newline depth ++ quote name ++ ": ".toList ++ pretty depth value ++
      prettyFields depth rest

end

mutual

def compact : Json → Text
  | .arr (item :: rest) => '[' :: compact item ++ compactItems rest ++ [']']
  | .obj ((name, value) :: rest) =>
    '{' :: quote name ++ ':' :: compact value ++ compactFields rest ++ ['}']
  | value => scalar value

def compactItems : List Json → Text
  | [] => []
  | item :: rest => ',' :: compact item ++ compactItems rest

def compactFields : List (Text × Json) → Text
  | [] => []
  | (name, value) :: rest => ',' :: quote name ++ ':' :: compact value ++ compactFields rest

end

end ReleaseLog.Json
