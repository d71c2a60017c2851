import ReleaseLog.Text.Basic

/-!
# Lines of a text

A line ends at a line feed, at a carriage return, or at both in this order. A terminator at the very
end opens no further line.
-/

namespace ReleaseLog.Text

/-- Puts a character in front of the first line, which it opens if there is none. -/
def consFirst (c : Char) : List Text → List Text
  | [] => [[c]]
  | line :: rest => (c :: line) :: rest

/-- The lines of a text, without their terminators. -/
def lines : Text → List Text
  | [] => []
  | '\n' :: rest => [] :: lines rest
  | '\r' :: '\n' :: rest => [] :: lines rest
  | '\r' :: rest => [] :: lines rest
  | c :: rest => consFirst c (lines rest)

@[simp] theorem lines_nil : lines [] = [] := by
  rw [lines]

@[simp] theorem lines_feed (rest : Text) : lines ('\n' :: rest) = [] :: lines rest := by
  rw [lines]

@[simp] theorem lines_return_feed (rest : Text) :
    lines ('\r' :: '\n' :: rest) = [] :: lines rest := by
  rw [lines]

/-- A carriage return that no line feed follows ends a line by itself. -/
theorem lines_return {rest : Text} (h : ∀ t, rest ≠ '\n' :: t) :
    lines ('\r' :: rest) = [] :: lines rest := by
  rw [lines]
  exact h

theorem lines_cons {c : Char} (hn : c ≠ '\n') (hr : c ≠ '\r') (rest : Text) :
    lines (c :: rest) = consFirst c (lines rest) := by
  rw [lines] <;> simp_all

end ReleaseLog.Text
