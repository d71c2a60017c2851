import ReleaseLog.Toml.Basic
import ReleaseLog.Toml.Plain
import ReleaseLog.Toml.Quoted

/-!
# Reading TOML documents

A document is a sequence of headers and assignments, one a line. Each item of a nested value costs
one unit of fuel, and a text of length `n` never needs more than `n + 1`.
-/

namespace ReleaseLog.Toml

/-! ## White space -/

def isBlank (c : Char) : Bool :=
  c = ' ' || c = '\t'

def skip (s : Text) : Text :=
  s.dropWhile isBlank

/-- The text after blanks, line breaks and comments. A comment has no control character. -/
def skipLines? : (inComment : Bool) → Text → Option Text
  | _, [] => some []
  | _, '\n' :: rest => skipLines? false rest
  | _, '\r' :: '\n' :: rest => skipLines? false rest
  | true, c :: rest => if Quoted.isPlain c then skipLines? true rest else none
  | false, '#' :: rest => skipLines? true rest
  | false, c :: rest => if isBlank c then skipLines? false rest else some (c :: rest)

/-- The text after the end of a line, which may have a comment. -/
def endLine? (s : Text) : Option Text :=
  let rest :=
    match skip s with
    | '#' :: rest => rest.dropWhile Quoted.isPlain
    | rest => rest
  match rest with
  | [] => some []
  | '\n' :: rest => some rest
  | '\r' :: '\n' :: rest => some rest
  | _ => none

/-! ## Keys -/

def isBare (c : Char) : Bool :=
  c.isAlphanum || c = '_' || c = '-'

def key? (s : Text) : Option (Text × Text) :=
  match s.takeWhile isBare with
  | [] => Quoted.line? s
  | key => some (key, s.dropWhile isBare)

/-- The keys after a first one, each with a dot before it. -/
def moreKeys? : Nat → Text → Option (List Text × Text)
  | 0, _ => none
  | fuel + 1, s =>
    match skip s with
    | '.' :: rest => do
      let (key, rest) ← key? (skip rest)
      let (keys, rest) ← moreKeys? fuel rest
      return (key :: keys, rest)
    | rest => some ([], rest)

/-- A dotted key as the keys of the tables on its way and its last key. -/
def dottedKey? (s : Text) : Option ((List Text × Text) × Text) := do
  let (first, rest) ← key? (skip s)
  let (more, rest) ← moreKeys? (s.length + 1) rest
  let keys := first :: more
  return ((keys.dropLast, keys.getLastD first), rest)

/-! ## Values -/

/-- Arrays and inline tables nest at most this deep. -/
def maxDepth : Nat := 80

mutual

def readValue? : (fuel depth : Nat) → Text → Option (Toml × Text)
  | 0, _, _ => none
  | fuel + 1, depth, s =>
    match s with
    | '[' :: rest =>
      if depth = 0 then none
      else (readItems? fuel (depth - 1) rest).map fun (items, rest) => (.array items, rest)
    | '{' :: rest =>
      if depth = 0 then none
      else (readPairs? fuel (depth - 1) [] rest).map fun (entries, rest) =>
        (.table .inline entries, rest)
    | '"' :: _ => (Quoted.any? s).map fun (text, rest) => (.string text, rest)
    | '\'' :: _ => (Quoted.any? s).map fun (text, rest) => (.string text, rest)
    | _ =>
      let word := s.takeWhile Plain.isPart
      if word = "true".toList then some (.bool true, s.dropWhile Plain.isPart)
      else if word = "false".toList then some (.bool false, s.dropWhile Plain.isPart)
      else (Plain.take? s).map fun (written, rest) => (.plain written, rest)

/-- The items of an array up to and with the closing bracket. The last one may have a comma. -/
def readItems? : (fuel depth : Nat) → Text → Option (List Toml × Text)
  | 0, _, _ => none
  | fuel + 1, depth, s => do
    match ← skipLines? false s with
    | ']' :: rest => return ([], rest)
    | s =>
      let (item, s) ← readValue? fuel depth s
      match ← skipLines? false s with
      | ',' :: rest =>
        let (items, rest) ← readItems? fuel depth rest
        return (item :: items, rest)
      | ']' :: rest => return ([item], rest)
      | _ => none

/-- The entries of an inline table, after these, up to and with the closing brace. -/
def readPairs? : (fuel depth : Nat) → Entries → Text → Option (Entries × Text)
  | 0, _, _, _ => none
  | fuel + 1, depth, entries, s => do
    match ← skipLines? false s with
    | '}' :: rest => return (entries, rest)
    | s =>
      let ((path, key), s) ← dottedKey? s
      let '=' :: s := skip s | none
      let (value, s) ← readValue? fuel depth (skip s)
      let entries ← assign path key value .inline entries
      match ← skipLines? false s with
      | ',' :: rest => readPairs? fuel depth entries rest
      | '}' :: rest => return (entries, rest)
      | _ => none

end

/-! ## Documents -/

structure State where
  root : Entries := []
  path : List Text := []

def State.assign? (st : State) (path : List Text) (key : Text) (value : Toml) : Option State := do
  let root ← editAt false (assign path key value) st.path .header st.root
  return { st with root }

def State.open? (st : State) (isArray : Bool) (path : List Text) (key : Text) : Option State := do
  let root ← (if isArray then openNext else openTable) path key st.root
  return { root, path := path ++ [key] }

/-- Reads one header or assignment, up to the end of its line. -/
def statement? (st : State) : Text → Option (State × Text)
  | '[' :: '[' :: s => do
    let ((path, key), s) ← dottedKey? s
    let ']' :: ']' :: s := skip s | none
    return (← st.open? true path key, ← endLine? s)
  | '[' :: s => do
    let ((path, key), s) ← dottedKey? s
    let ']' :: s := skip s | none
    return (← st.open? false path key, ← endLine? s)
  | s => do
    let ((path, key), s) ← dottedKey? s
    let '=' :: s := skip s | none
    let (value, s) ← readValue? (s.length + 1) maxDepth (skip s)
    return (← st.assign? path key value, ← endLine? s)

def statements? : Nat → State → Text → Option Entries
  | 0, _, _ => none
  | fuel + 1, st, s => do
    match ← skipLines? false s with
    | [] => return st.root
    | s =>
      let (st, s) ← statement? st s
      statements? fuel st s

/-- The tables of a document. A byte order mark may open it. -/
def parse? (s : Text) : Option Entries :=
  let s :=
    match s with
    | '\uFEFF' :: rest => rest
    | s => s
  statements? (s.length + 1) {} s

end ReleaseLog.Toml
