import ReleaseLog.Text.Basic

/-!
# UTF-8

Decoding reads octets one at a time with at most one unfinished sequence. Each maximal malformed
part counts as one item, so that a text can be decoded strictly or with U+FFFD for each such part.
-/

namespace ReleaseLog

abbrev Bytes := List UInt8

namespace Utf8

/-- An unfinished sequence: the bits so far, the number of octets still to come, and the range that
the next of them has to be in. -/
structure Pending where
  bits : Nat
  left : Nat
  lo : UInt8
  hi : UInt8
deriving DecidableEq, Repr

/-- One decoded item: a character, or `none` for a maximal malformed part. -/
abbrev Item := Option Char

/-- What an octet says where a new sequence may start: the items it completes, and the sequence that
it opens. -/
def start (b : UInt8) : List Item × Option Pending :=
  if b < 0x80 then ([some (Char.ofNat b.toNat)], none)
  else if b < 0xC2 then ([none], none)
  else if b < 0xE0 then ([], some ⟨b.toNat - 0xC0, 1, 0x80, 0xBF⟩)
  else if b = 0xE0 then ([], some ⟨0, 2, 0xA0, 0xBF⟩)
  else if b = 0xED then ([], some ⟨0xD, 2, 0x80, 0x9F⟩)
  else if b < 0xF0 then ([], some ⟨b.toNat - 0xE0, 2, 0x80, 0xBF⟩)
  else if b = 0xF0 then ([], some ⟨0, 3, 0x90, 0xBF⟩)
  else if b < 0xF4 then ([], some ⟨b.toNat - 0xF0, 3, 0x80, 0xBF⟩)
  else if b = 0xF4 then ([], some ⟨4, 3, 0x80, 0x8F⟩)
  else ([none], none)

/-- Reads one octet. An octet that cannot continue the unfinished sequence ends it as malformed and
may start a new one. -/
def step : Option Pending → UInt8 → List Item × Option Pending
  | none, b => start b
  | some p, b =>
    if p.lo ≤ b ∧ b ≤ p.hi then
      let bits := p.bits * 64 + (b.toNat - 0x80)
      if p.left ≤ 1 then ([some (Char.ofNat bits)], none)
      else ([], some ⟨bits, p.left - 1, 0x80, 0xBF⟩)
    else (none :: (start b).1, (start b).2)

/-- The items of the octets that follow an unfinished sequence. An unfinished sequence at the end is
malformed. -/
def itemsFrom : Option Pending → Bytes → List Item
  | none, [] => []
  | some _, [] => [none]
  | state, b :: rest => (step state b).1 ++ itemsFrom (step state b).2 rest

def items (bytes : Bytes) : List Item :=
  itemsFrom none bytes

/-- The character that stands for a malformed part. -/
def replacement : Char := '\uFFFD'

/-- The text of a sequence of octets, with U+FFFD for each maximal malformed part. -/
def decodeLossy (bytes : Bytes) : Text :=
  (items bytes).map (·.getD replacement)

def decode? (bytes : Bytes) : Option Text :=
  (items bytes).mapM id

/-- The octets of a character, by the size of its code point. -/
def encodeChar (c : Char) : Bytes :=
  let n := c.toNat
  if n < 0x80 then [n.toUInt8]
  else if n < 0x800 then [(0xC0 + n / 64).toUInt8, (0x80 + n % 64).toUInt8]
  else if n < 0x10000 then
    [(0xE0 + n / 4096).toUInt8, (0x80 + n / 64 % 64).toUInt8, (0x80 + n % 64).toUInt8]
  else
    [(0xF0 + n / 262144).toUInt8, (0x80 + n / 4096 % 64).toUInt8, (0x80 + n / 64 % 64).toUInt8,
      (0x80 + n % 64).toUInt8]

def encode (s : Text) : Bytes :=
  s.flatMap encodeChar

@[simp] theorem items_nil : items [] = [] := rfl

@[simp] theorem encode_nil : encode [] = [] := rfl

@[simp] theorem encode_cons (c : Char) (s : Text) : encode (c :: s) = encodeChar c ++ encode s := by
  simp [encode]

theorem encode_append (s t : Text) : encode (s ++ t) = encode s ++ encode t := by
  simp [encode]

end Utf8

end ReleaseLog
