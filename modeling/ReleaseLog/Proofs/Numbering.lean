import ReleaseLog.Finding
import ReleaseLog.Line

/-!
# Line numbers

Numbers ascend by one. Lines and findings can be given other numbers and stay what they are.
-/

namespace ReleaseLog

namespace Line

def renumber (f : Nat → Nat) (line : Line) : Line :=
  { line with number := f line.number }

@[simp] theorem number_renumber (f : Nat → Nat) (line : Line) :
    (line.renumber f).number = f line.number := rfl

@[simp] theorem text_renumber (f : Nat → Nat) (line : Line) :
    (line.renumber f).text = line.text := rfl

@[simp] theorem kind_renumber (f : Nat → Nat) (line : Line) :
    (line.renumber f).kind = line.kind := rfl

@[simp] theorem opensBody_renumber (f : Nat → Nat) (line : Line) :
    (line.renumber f).opensBody = line.opensBody := rfl

theorem numberedFrom_add (first k : Nat) (texts : List Text) :
    numberedFrom (first + k) texts = (numberedFrom first texts).map (renumber (· + k)) := by
  induction texts generalizing first with
  | nil => rfl
  | cons text rest ih =>
      have htail := ih (first + 1)
      rw [Nat.add_right_comm] at htail
      simp only [numberedFrom_cons, List.map_cons, htail]
      rfl

theorem ofTexts_append (xs ys : List Text) :
    ofTexts (xs ++ ys) = ofTexts xs ++ numberedFrom (1 + xs.length) ys :=
  numberedFrom_append 1 xs ys

theorem getElem?_numberedFrom (first : Nat) (texts : List Text) (i : Nat) :
    (numberedFrom first texts)[i]? = texts[i]?.map (ofText (first + i)) := by
  induction texts generalizing first i with
  | nil => simp
  | cons text rest ih =>
      cases i with
      | zero => rfl
      | succ i => simp [ih, Nat.add_assoc, Nat.add_comm 1]

theorem mem_numberedFrom {first : Nat} {texts : List Text} {line : Line} :
    line ∈ numberedFrom first texts ↔
      ∃ i text, texts[i]? = some text ∧ line = ofText (first + i) text := by
  simp only [List.mem_iff_getElem?, getElem?_numberedFrom, Option.map_eq_some_iff, @eq_comm _ line]

theorem eq_ofText_of_getElem? {texts : List Text} {line : Line} {i : Nat}
    (h : (ofTexts texts)[i]? = some line) : texts[i]? = some line.text ∧ line.number = i + 1 := by
  rw [ofTexts, getElem?_numberedFrom] at h
  obtain ⟨text, htext, rfl⟩ := Option.map_eq_some_iff.mp h
  exact ⟨htext, Nat.add_comm 1 i⟩

theorem le_number_of_mem_numberedFrom {first : Nat} {texts : List Text} {line : Line}
    (h : line ∈ numberedFrom first texts) :
    first ≤ line.number ∧ line.number < first + texts.length := by
  obtain ⟨i, text, ht, rfl⟩ := mem_numberedFrom.mp h
  have hi : i < texts.length := (List.getElem?_eq_some_iff.mp ht).1
  simp only [number_ofText]
  omega

theorem pairwise_numberedFrom (first : Nat) (texts : List Text) :
    (numberedFrom first texts).Pairwise (·.number < ·.number) := by
  induction texts generalizing first with
  | nil => exact .nil
  | cons text rest ih =>
      refine .cons ?_ (ih (first + 1))
      intro line hl
      have := (le_number_of_mem_numberedFrom hl).1
      simp only [number_ofText]
      omega

/-! ## One line more -/

/-- The new number of a line when one more line gets the number `n`. -/
def makeRoom (n k : Nat) : Nat :=
  if n ≤ k then k + 1 else k

/-- The new number of a line when line `n` goes. -/
def closeGap (n k : Nat) : Nat :=
  if n < k then k - 1 else k

theorem closeGap_makeRoom (n k : Nat) : closeGap n (makeRoom n k) = k := by
  unfold closeGap makeRoom
  split <;> split <;> omega

theorem makeRoom_lt_makeRoom (n : Nat) {j k : Nat} (h : j < k) : makeRoom n j < makeRoom n k := by
  unfold makeRoom
  split <;> split <;> omega

/-- A line put between others moves the later ones by one number. -/
theorem map_renumber_makeRoom (front back : List Text) :
    (ofTexts (front ++ back)).map (renumber (makeRoom (front.length + 1))) =
      ofTexts front ++ numberedFrom (front.length + 2) back := by
  have hfront : ∀ line ∈ ofTexts front, renumber (makeRoom (front.length + 1)) line = line := by
    intro line hline
    have := (le_number_of_mem_numberedFrom hline).2
    have hroom : makeRoom (front.length + 1) line.number = line.number := if_neg (by omega)
    rw [renumber, hroom]
  have hback : ∀ line ∈ numberedFrom (1 + front.length) back,
      renumber (makeRoom (front.length + 1)) line = renumber (· + 1) line := by
    intro line hline
    have := (le_number_of_mem_numberedFrom hline).1
    have hroom : makeRoom (front.length + 1) line.number = line.number + 1 := if_pos (by omega)
    rw [renumber, renumber, hroom]
  rw [ofTexts_append, List.map_append, List.map_congr_left hfront, List.map_congr_left hback,
    ← numberedFrom_add, Nat.add_comm 1]
  simp

end Line

namespace Finding

def renumber (f : Nat → Nat) : Finding → Finding
  | .repeatedVersion version lines => .repeatedVersion version (lines.map f)
  | .mergeLeftover line content => .mergeLeftover (f line) content
  | .strayBlank line => .strayBlank (f line)
  | .missingBlank line => .missingBlank (f line)
  | .unreadable path => .unreadable path

theorem renumber_renumber (f g : Nat → Nat) (found : Finding) :
    (found.renumber f).renumber g = found.renumber fun n => g (f n) := by
  cases found <;> simp [renumber]

theorem renumber_eq_self {f : Nat → Nat} (hf : ∀ n, f n = n) (found : Finding) :
    found.renumber f = found := by
  obtain rfl : f = id := funext hf
  cases found <;> simp [renumber]

end Finding

end ReleaseLog
