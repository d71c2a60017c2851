import ReleaseLog.Finding
import ReleaseLog.Proofs.Text.Decoded
import ReleaseLog.Proofs.Text.Numerals

/-!
# Messages tell findings apart

A finding is read back from its message. Versions and marker lines stand in it as they are, and may
themselves read like a message. The path of a file is read back if it is well-formed.
-/

namespace ReleaseLog.Finding

/-! ## Reading messages -/

def isListed (c : Char) : Bool :=
  c.isDigit || c = ',' || c = ' '

/-- Reads what follows `Version `. The list of lines goes back to the last other character. -/
def repetition? (s : Text) : Option Finding := do
  let back ← Text.after? (s.reverse.dropWhile isListed)
    " appeared multiple lines @ line".toList.reverse
  return .repeatedVersion back.reverse (Text.numbers (s.reverse.takeWhile isListed).reverse)

/-- Reads what follows `Found git merge leftover at line `. The last character is a quote. -/
def leftover? (s : Text) : Option Finding := do
  let content ← Text.after? (s.dropWhile Char.isDigit) ": '".toList
  return .mergeLeftover (Text.number (s.takeWhile Char.isDigit)) content.dropLast

/-- Reads a message, by its first words. -/
def ofMessage? (s : Text) : Option Finding :=
  if let some rest := s.after? "Version ".toList then repetition? rest
  else if let some rest := s.after? "Found git merge leftover at line ".toList then leftover? rest
  else if let some rest := s.after? "Unexpected whitespace @ line ".toList then
    some (.strayBlank (Text.number rest))
  else if let some rest := s.after? "Line ".toList then
    some (.missingBlank (Text.number (rest.takeWhile Char.isDigit)))
  else if let some rest := s.after? "File does not exist: ".toList then
    some (.unreadable (.ofText rest))
  else none

/-- The finding that a message shows. A path is shown by its text. -/
def shown : Finding → Finding
  | .unreadable path => .unreadable (.ofText path.display)
  | f => f

/-! ## Lists of lines -/

theorem isListed_of_mem_joinWith {ns : List Nat} {c : Char}
    (h : c ∈ Text.joinWith ", ".toList (ns.map Text.decimal)) : isListed c = true := by
  have hdecimal : ∀ {m}, c ∈ Text.decimal m → isListed c = true := fun hc => by
    simp [isListed, Text.isDigit_of_mem_decimal hc]
  have hseparator : ∀ c ∈ ", ".toList, isListed c = true := List.all_eq_true.mp rfl
  induction ns with
  | nil => cases h
  | cons n ns ih =>
      cases ns with
      | nil => exact hdecimal h
      | cons m ns =>
          simp only [List.map_cons, Text.joinWith, List.mem_append] at h
          rcases h with (h | h) | h
          · exact hdecimal h
          · exact hseparator c h
          · exact ih h

/-- Of the words before the list of lines, only the blank at their end may stand in the list. -/
theorem repetition?_append (version : Text) (ns : List Nat) :
    repetition? (version ++ (" appeared multiple lines @ line ".toList ++
      Text.joinWith ", ".toList (ns.map Text.decimal))) = some (.repeatedVersion version ns) := by
  generalize hlist : Text.joinWith ", ".toList (ns.map Text.decimal) = list
  generalize hwords : " appeared multiple lines @ line".toList.reverse = words
  have hback : (version ++ (" appeared multiple lines @ line ".toList ++ list)).reverse =
      (list.reverse ++ [' ']) ++ (words ++ version.reverse) := by
    simp [← hwords]
  have hlisted : ∀ c ∈ list.reverse ++ [' '], isListed c = true := by
    intro c hc
    rcases List.mem_append.mp hc with hc | hc
    · rw [List.mem_reverse, ← hlist] at hc
      exact isListed_of_mem_joinWith hc
    · rw [List.mem_singleton.mp hc]
      rfl
  obtain ⟨before, hbefore⟩ : ∃ before, words ++ version.reverse = 'e' :: before :=
    ⟨_, by simp [← hwords]; rfl⟩
  have hnumbers : Text.numbers (list.reverse ++ [' ']).reverse = ns := by
    have hblank : (list.reverse ++ [' ']).reverse = [] ++ ' ' :: list := by simp
    rw [hblank, Text.numbers_append_cons rfl, ← hlist, Text.numbers_joinWith]
    rfl
  have hafter : Text.after? (words ++ version.reverse) words = some version.reverse :=
    Text.after?_eq_some_iff.mpr rfl
  rw [hbefore] at hback hafter
  rw [repetition?, hwords, hback, List.dropWhile_append_of_pos hlisted,
    List.takeWhile_append_of_pos hlisted, List.dropWhile_cons_of_neg (by decide),
    List.takeWhile_cons_of_neg (by decide), List.append_nil, hnumbers, hafter]
  simp

/-! ## Single lines -/

/-- A numeral ends where something other than a digit stands. -/
theorem takeWhile_decimal (n : Nat) {c : Char} (h : c.isDigit = false) (s : Text) :
    (Text.decimal n ++ c :: s).takeWhile Char.isDigit = Text.decimal n := by
  rw [List.takeWhile_append_of_pos fun d hd => Text.isDigit_of_mem_decimal hd,
    List.takeWhile_cons_of_neg (by simp [h]), List.append_nil]

theorem dropWhile_decimal (n : Nat) {c : Char} (h : c.isDigit = false) (s : Text) :
    (Text.decimal n ++ c :: s).dropWhile Char.isDigit = c :: s := by
  rw [List.dropWhile_append_of_pos fun d hd => Text.isDigit_of_mem_decimal hd,
    List.dropWhile_cons_of_neg (by simp [h])]

theorem leftover?_append (line : Nat) (content : Text) :
    leftover? (Text.decimal line ++ (": '".toList ++ (content ++ "'".toList))) =
      some (.mergeLeftover line content) := by
  have hcolon : ": '".toList ++ (content ++ "'".toList) =
      ':' :: (" '".toList ++ (content ++ ['\''])) := rfl
  have hafter : Text.after? (':' :: (" '".toList ++ (content ++ ['\'']))) ": '".toList =
      some (content ++ ['\'']) :=
    Text.after?_eq_some_iff.mpr rfl
  rw [leftover?, hcolon, takeWhile_decimal line rfl, dropWhile_decimal line rfl, hafter,
    Text.number_decimal]
  simp

/-! ## First words -/

/-- Texts that differ at some place. -/
def Differ (s t : Text) : Prop :=
  ∃ pair ∈ s.zip t, pair.1 ≠ pair.2

instance (s t : Text) : Decidable (Differ s t) :=
  inferInstanceAs (Decidable (∃ pair ∈ s.zip t, pair.1 ≠ pair.2))

/-- Where texts differ, none of them starts with the other. -/
theorem after?_of_differ (s t : Text) (h : Differ s t) (rest : Text) :
    Text.after? (s ++ rest) t = none := by
  induction s generalizing t with
  | nil => simp [Differ] at h
  | cons c s ih =>
      cases t with
      | nil => simp [Differ] at h
      | cons d t =>
          rw [List.cons_append, Text.after?]
          split
          · rename_i heq
            exact ih t (by simpa [Differ, heq] using h)
          · rfl

theorem after?_append (lead rest : Text) : Text.after? (lead ++ rest) lead = some rest :=
  Text.after?_eq_some_iff.mpr rfl

/-- A message is read back as the finding that it shows. -/
theorem ofMessage?_message (f : Finding) : ofMessage? f.message = some f.shown := by
  cases f with
  | repeatedVersion version lines =>
      have hmessage : (repeatedVersion version lines).message = "Version ".toList ++ (version ++
          (" appeared multiple lines @ line ".toList ++
            Text.joinWith ", ".toList (lines.map Text.decimal))) := by
        rw [← List.append_assoc, ← List.append_assoc]
        rfl
      rw [hmessage, ofMessage?, after?_append]
      exact repetition?_append version lines
  | mergeLeftover line content =>
      have hmessage : (mergeLeftover line content).message =
          "Found git merge leftover at line ".toList ++
            (Text.decimal line ++ (": '".toList ++ (content ++ "'".toList))) := by
        rw [← List.append_assoc, ← List.append_assoc, ← List.append_assoc]
        rfl
      rw [hmessage, ofMessage?, after?_of_differ _ "Version ".toList (by decide), after?_append]
      exact leftover?_append line content
  | strayBlank line =>
      have hmessage : (strayBlank line).message =
          "Unexpected whitespace @ line ".toList ++ Text.decimal line := rfl
      rw [hmessage, ofMessage?, after?_of_differ _ "Version ".toList (by decide),
        after?_of_differ _ "Found git merge leftover at line ".toList (by decide), after?_append]
      exact congrArg (fun n => some (strayBlank n)) (Text.number_decimal line)
  | missingBlank line =>
      have hmessage : (missingBlank line).message = "Line ".toList ++
          (Text.decimal line ++ ' ' :: "should be preceded by white line".toList) := by
        rw [← List.append_assoc]
        rfl
      rw [hmessage, ofMessage?, after?_of_differ _ "Version ".toList (by decide),
        after?_of_differ _ "Found git merge leftover at line ".toList (by decide),
        after?_of_differ _ "Unexpected whitespace @ line ".toList (by decide), after?_append]
      have hline : Text.number ((Text.decimal line ++
          ' ' :: "should be preceded by white line".toList).takeWhile Char.isDigit) = line := by
        rw [takeWhile_decimal line rfl, Text.number_decimal]
      exact congrArg (fun n => some (missingBlank n)) hline
  | unreadable path =>
      have hmessage : (unreadable path).message =
          "File does not exist: ".toList ++ path.display := rfl
      rw [hmessage, ofMessage?, after?_of_differ _ "Version ".toList (by decide),
        after?_of_differ _ "Found git merge leftover at line ".toList (by decide),
        after?_of_differ _ "Unexpected whitespace @ line ".toList (by decide),
        after?_of_differ _ "Line ".toList (by decide), after?_append]
      rfl

/-! ## Findings with the same message -/

/-- A file that could not be read has a well-formed path. -/
def Named : Finding → Prop
  | .unreadable path => ∃ s, path = .ofText s
  | _ => True

theorem shown_eq_self_iff {f : Finding} : f.shown = f ↔ f.Named := by
  cases f with
  | unreadable path =>
      constructor
      · intro h
        exact ⟨path.display, (unreadable.inj h).symm⟩
      · rintro ⟨s, rfl⟩
        exact congrArg (fun s => unreadable (.ofText s)) (Utf8.decodeLossy_encode s)
  | _ => exact iff_of_true rfl trivial

/-- Findings with the same message are the same, where paths are well-formed. Whatever its path, a
finding has the line, the severity and the rule of the one that is read back from its message. -/
theorem messages_unambiguous :
    (∀ f g : Finding, f.Named → g.Named → f.message = g.message → f = g) ∧
    ∀ f : Finding, ofMessage? f.message = some f.shown ∧ (f.shown = f ↔ f.Named) ∧
      f.shown.line? = f.line? ∧ f.shown.severity = f.severity ∧ f.shown.rule? = f.rule? := by
  constructor
  · intro f g hf hg h
    have hread := ofMessage?_message f
    rw [h, ofMessage?_message g, Option.some.injEq, shown_eq_self_iff.mpr hf,
      shown_eq_self_iff.mpr hg] at hread
    exact hread.symm
  · intro f
    refine ⟨ofMessage?_message f, shown_eq_self_iff, ?_⟩
    cases f <;> exact ⟨rfl, rfl, rfl⟩

-- The version reads like the end of a message.
example : ofMessage? (message (.repeatedVersion "1 appeared multiple lines @ line 2, 3".toList [4]))
    = some (.repeatedVersion "1 appeared multiple lines @ line 2, 3".toList [4]) := by
  decide +kernel

end ReleaseLog.Finding
