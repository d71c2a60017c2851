import ReleaseLog.Text.Utf8

/-!
# URIs

The address of a document is its normal form, so that two spellings of one address are equal. What
uses addresses does not depend on how they are read. Here is the reading that the programs start
with: host names are in ASCII, and numeric hosts are addresses of four or of sixteen octets.
-/

namespace ReleaseLog

/-- The address of a document, in normal form. -/
structure Uri where
  text : Text
deriving DecidableEq, Repr

namespace Uri

/-! ## Parts -/

structure Parts where
  scheme : Text
  authority : Option Text
  path : Text
  query : Option Text
  fragment : Option Text
deriving DecidableEq, Repr

/-- Without an authority, a path with two slashes in front would look like one. -/
def Parts.text (u : Parts) : Text :=
  let authority :=
    match u.authority with
    | some authority => "//".toList ++ authority
    | none => if u.path.startsWith "//".toList then "/.".toList else []
  u.scheme ++ ':' :: authority ++ u.path ++
    (u.query.map ('?' :: ·)).getD [] ++ (u.fragment.map ('#' :: ·)).getD []

def pieces (isMark : Char → Bool) : Text → List Text
  | [] => [[]]
  | c :: rest =>
    if isMark c then [] :: pieces isMark rest
    else
      match pieces isMark rest with
      | [] => [[c]]
      | piece :: more => (c :: piece) :: more

/-! ## Percent encoding -/

/-- An octet as a percent sign and two digits, with letters in upper case. -/
def percent (b : UInt8) : Text :=
  ['%', (Nat.digitChar (b.toNat / 16)).toUpper, (Nat.digitChar (b.toNat % 16)).toUpper]

/-- Controls and all that is not ASCII are never written as they are. -/
def isHidden (c : Char) : Bool :=
  c.toNat < 0x20 || 0x7E < c.toNat

/-- Writes a text with percent signs for hidden characters and for some others. -/
def encode (others : List Char) (s : Text) : Text :=
  s.flatMap fun c =>
    if isHidden c || others.contains c then (Utf8.encodeChar c).flatMap percent else [c]

def inFragment : List Char :=
  [' ', '"', '<', '>', '\x60']

def inQuery (isSpecial : Bool) : List Char :=
  [' ', '"', '#', '<', '>'] ++ if isSpecial then ['\''] else []

def inPath : List Char :=
  inFragment ++ ['#', '?', '\x7b', '\x7d']

def inUser : List Char :=
  inPath ++ ['/', ':', ';', '=', '@', '[', '\\', ']', '^', '|']

def decode : Text → Bytes
  | '%' :: a :: b :: rest =>
    match Text.hexNumber? [a, b] with
    | some n => n.toUInt8 :: decode rest
    | none => Utf8.encodeChar '%' ++ decode (a :: b :: rest)
  | c :: rest => Utf8.encodeChar c ++ decode rest
  | [] => []

/-! ## Schemes -/

/-- A scheme, in lower case, and what follows its colon. -/
def scheme? (s : Text) : Option (Text × Text) :=
  let isPart (c : Char) := c.isAlphanum || c = '+' || c = '-' || c = '.'
  match s.takeWhile isPart, s.dropWhile isPart with
  | c :: more, ':' :: rest => if c.isAlpha then some ((c :: more).map Char.toLower, rest) else none
  | _, _ => none

/-- The port of a scheme with host names, if it has one. -/
def defaultPort : Text → Option Nat
  | ['h', 't', 't', 'p'] | ['w', 's'] => some 80
  | ['h', 't', 't', 'p', 's'] | ['w', 's', 's'] => some 443
  | ['f', 't', 'p'] => some 21
  | _ => none

/-- The scheme has host names. -/
def isSpecial (scheme : Text) : Bool :=
  scheme = "file".toList || (defaultPort scheme).isSome

/-! ## Paths -/

/-- The character ends a segment. In a URI with host names a backslash does too. -/
def isSlash (isSpecial : Bool) (c : Char) : Bool :=
  c = '/' || (isSpecial && c = '\\')

/-- A segment with its dots written plainly. -/
def plainDots : Text → Text
  | '%' :: '2' :: 'e' :: rest => '.' :: plainDots rest
  | '%' :: '2' :: 'E' :: rest => '.' :: plainDots rest
  | c :: rest => c :: plainDots rest
  | [] => []

def isDrive : Text → Bool
  | [letter, mark] => letter.isAlpha && (mark = ':' || mark = '|')
  | _ => false

/-- The segments without the one that two dots take back. The drive of a file stays. -/
def shorten (isFile : Bool) (done : List Text) : List Text :=
  match done with
  | [first] => if isFile && isDrive first then done else []
  | _ => done.dropLast

/-- Puts segments after others. Dots at the end leave an empty segment behind. -/
def normalSegments (isFile : Bool) : (done rest : List Text) → List Text
  | done, [] => done
  | done, segment :: rest =>
    let isEnd := if rest = [] then [[]] else []
    if plainDots segment = ['.', '.'] then
      normalSegments isFile (shorten isFile done ++ isEnd) rest
    else if plainDots segment = ['.'] then normalSegments isFile (done ++ isEnd) rest
    else
      let segment :=
        if isFile && done.isEmpty && isDrive segment then segment.take 1 ++ [':'] else segment
      normalSegments isFile (done ++ [encode inPath segment]) rest

def normalPath (scheme : Text) (s : Text) : Text :=
  let segments := pieces (isSlash (isSpecial scheme)) s
  (normalSegments (scheme = "file".toList) [] segments).flatMap ('/' :: ·)

/-! ## Addresses of four octets -/

def numberIn? (base : Nat) (digits : Text) : Option Nat :=
  digits.foldlM (fun n c => do
    let digit ← Text.hexValue? c
    guard (digit < base)
    return base * n + digit) 0

def part? : Text → Option Nat
  | [] => none
  | '0' :: 'x' :: digits | '0' :: 'X' :: digits => numberIn? 16 digits
  | '0' :: c :: digits => numberIn? 8 (c :: digits)
  | digits => numberIn? 10 digits

/-- The parts of a host between its dots. A dot at the end means nothing. -/
def partsOf (host : Text) : List Text :=
  let parts := pieces (· = '.') host
  if 1 < parts.length && parts.getLast? = some [] then parts.dropLast else parts

/-- A host with a number at its end is an address, and no name. -/
def isNumeric (host : Text) : Bool :=
  let last := (partsOf host).getLastD []
  (last ≠ [] && last.all Char.isDigit) || (part? last).isSome

/-- The normal form of a numeric host. The last part fills the octets that the others leave. -/
def numeric? (host : Text) : Option Text := do
  let numbers ← (partsOf host).mapM part?
  let front := numbers.dropLast
  let last ← numbers.getLast?
  let room := 1 <<< (8 * (4 - front.length))
  guard (front.length < 4 && front.all (· < 256) && last < room)
  let address := front.foldl (256 * · + ·) 0 * room + last
  return Text.joinWith ['.'] ([24, 16, 8, 0].map fun i => Text.decimal ((address >>> i) % 256))

/-! ## Addresses of sixteen octets -/

def pair? (digits : Text) : Option Nat := do
  guard (1 ≤ digits.length && digits.length ≤ 4)
  numberIn? 16 digits

def octet? (digits : Text) : Option Nat := do
  let n ← numberIn? 10 digits
  guard (n < 256 && Text.decimal n = digits)
  return n

/-- The pairs of octets that pieces between colons write. The last piece may have four octets. -/
def pairs? : List Text → Option (List Nat)
  | [] => some []
  | [last] =>
    match (pieces (· = '.') last).mapM octet? with
    | some [a, b, c, d] => some [256 * a + b, 256 * c + d]
    | _ => (pair? last).map ([·])
  | piece :: rest => do
    let first ← pair? piece
    return first :: (← pairs? rest)

/-- A text before and after the first two colons. -/
def splitGap? : Text → Option (Text × Text)
  | ':' :: ':' :: rest => some ([], rest)
  | c :: rest => (splitGap? rest).map fun (front, back) => (c :: front, back)
  | [] => none

/-- The eight pairs of an address. Two colons stand for zeros. -/
def long? (s : Text) : Option (List Nat) :=
  let split (s : Text) : List Text := if s = [] then [] else pieces (· = ':') s
  match splitGap? s with
  | none => do
    let all ← pairs? (split s)
    guard (all.length = 8)
    return all
  | some (front, back) => do
    let front ← (split front).mapM pair?
    let back ← pairs? (split back)
    guard (front.length + back.length < 8)
    return front ++ List.replicate (8 - front.length - back.length) 0 ++ back

/-- The normal form of an address: two colons stand for the first of its longest runs of zeros. -/
def longText (pairs : List Nat) : Text :=
  let zeros (i : Nat) : Nat := ((pairs.drop i).takeWhile (· = 0)).length
  let places := List.range pairs.length
  let longest := (places.map zeros).foldl max 0
  let join (pairs : List Nat) : Text := Text.joinWith [':'] (pairs.map (Nat.toDigits 16))
  match places.find? (zeros · = longest) with
  | some i =>
    if longest < 2 then join pairs
    else join (pairs.take i) ++ ':' :: ':' :: join (pairs.drop (i + longest))
  | none => []

/-! ## Authorities -/

def isForbidden (c : Char) : Bool :=
  c = '\x00' || c = '\t' || c = '\n' || c = '\r' || " #/:<>?@[\\]^|".toList.contains c

/-- The normal form of a host: in lower case where hosts are names. -/
def host? (isSpecial : Bool) (s : Text) : Option Text :=
  if s.head? = some '[' then do
    guard (s.getLast? = some ']')
    let pairs ← long? (s.drop 1).dropLast
    return '[' :: longText pairs ++ [']']
  else if isSpecial then do
    let name := (← Utf8.decode? (decode s)).map Char.toLower
    guard (name ≠ [] ∧ name.all fun c => !(isForbidden c || isHidden c || c = '%'))
    if isNumeric name then numeric? name else some name
  else if s.any isForbidden then none
  else some (encode [] s)

/-- The normal form of a port, with its colon. The port of the scheme is left out. -/
def port? (scheme : Text) (s : Text) : Option Text :=
  match s with
  | [] => some []
  | _ =>
    if s.all Char.isDigit then
      let n := Text.number s
      if 0xFFFF < n then none
      else some (if defaultPort scheme = some n then [] else ':' :: Text.decimal n)
    else none

def splitLast? (mark : Char) (s : Text) : Option (Text × Text) :=
  if s.contains mark then
    some ((s.reverse.dropWhile (· ≠ mark)).tail.reverse, (s.reverse.takeWhile (· ≠ mark)).reverse)
  else none

def hostAndPort (s : Text) : Text × Text :=
  match splitLast? ':' s with
  | some (host, port) => if port.contains ']' then (s, []) else (host, port)
  | none => (s, [])

/-- The normal form of a user with a password, up to and with the sign after it. -/
def user (s : Text) : Text :=
  let name := encode inUser (s.takeWhile (· ≠ ':'))
  let password := encode inUser (s.dropWhile (· ≠ ':')).tail
  if name = [] ∧ password = [] then []
  else name ++ (if password = [] then [] else ':' :: password) ++ ['@']

/-- The normal form of an authority. An empty host stands alone, and only where hosts are no
names. -/
def authority? (scheme : Text) (s : Text) : Option Text := do
  let (lead, place) := (splitLast? '@' s).getD ([], s)
  let (host, port) := hostAndPort place
  if host = [] ∧ ¬ isSpecial scheme then
    guard (s = [])
    return []
  return user lead ++ (← host? (isSpecial scheme) host) ++ (← port? scheme port)

/-- The host of a file. The local host needs no name. -/
def fileHost? (s : Text) : Option Text :=
  if s = [] then some []
  else (host? true s).map fun host => if host = "localhost".toList then [] else host

/-! ## Reading -/

/-- The authority and the path of what follows a scheme, given without query and fragment. -/
def parts? (scheme : Text) (s : Text) : Option (Option Text × Text) :=
  let slash := isSlash (isSpecial scheme)
  if scheme = "file".toList then
    match s with
    | a :: b :: rest =>
      if slash a && slash b then
        let host := rest.takeWhile (!slash ·)
        if isDrive host then some (some [], normalPath scheme rest)
        else (fileHost? host).map fun host =>
          (some host, normalPath scheme (rest.dropWhile (!slash ·)).tail)
      else some (some [], normalPath scheme (if slash a then b :: rest else s))
    | [a] => some (some [], normalPath scheme (if slash a then [] else s))
    | [] => some (some [], normalPath scheme [])
  else if isSpecial scheme then
    let rest := s.dropWhile slash
    (authority? scheme (rest.takeWhile (!slash ·))).map fun authority =>
      (some authority, normalPath scheme (rest.dropWhile (!slash ·)).tail)
  else
    match s with
    | '/' :: '/' :: rest =>
      (authority? scheme (rest.takeWhile (· ≠ '/'))).map fun authority =>
        match rest.dropWhile (· ≠ '/') with
        | [] => (some authority, [])
        | _ :: path => (some authority, normalPath scheme path)
    | '/' :: rest => some (none, normalPath scheme rest)
    | _ => some (none, encode [] s)

/-- White space and controls around a URI, and tabs and line breaks anywhere in it, mean nothing. -/
def clean (s : Text) : Text :=
  (Text.trimBy (· ≤ ' ') s).filter fun c => c ≠ '\t' && c ≠ '\n' && c ≠ '\r'

def parse? (s : Text) : Option Uri := do
  let (scheme, rest) ← scheme? (clean s)
  let fragment := (rest.dropWhile (· ≠ '#')).tail?
  let rest := rest.takeWhile (· ≠ '#')
  let query := (rest.dropWhile (· ≠ '?')).tail?
  let (authority, path) ← parts? scheme (rest.takeWhile (· ≠ '?'))
  let parts : Parts :=
    { scheme, authority, path
      query := query.map (encode (inQuery (isSpecial scheme)))
      fragment := fragment.map (encode inFragment) }
  return ⟨parts.text⟩

end Uri

end ReleaseLog
