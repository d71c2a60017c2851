import ReleaseLog.Text.Basic

/-!
# Decimal numerals

A numeral is a run of digits without a leading zero, and writes the number that it was made from.
Numbers can be read back from a list of numerals.
-/

namespace ReleaseLog.Text

theorem number_decimal (n : Nat) : number (decimal n) = n :=
  Nat.ofDigitChars_eq_foldl.symm.trans Nat.ofDigitChars_ten_toDigits

theorem decimal_ne_nil (n : Nat) : decimal n ≠ [] :=
  Nat.toDigits_ne_nil

theorem isDigit_of_mem_decimal {n : Nat} {c : Char} (h : c ∈ decimal n) : c.isDigit = true :=
  Nat.isDigit_of_mem_toDigits (by decide) (Nat.le_refl 10) h

theorem decimal_of_lt {n : Nat} (h : n < 10) : decimal n = [n.digitChar] :=
  Nat.toDigits_of_lt_base h

theorem decimal_of_le {n : Nat} (h : 10 ≤ n) :
    decimal n = decimal (n / 10) ++ [(n % 10).digitChar] :=
  Nat.toDigits_of_base_le (by decide) h

theorem head?_decimal_ne_zero {n : Nat} (h : 0 < n) : (decimal n).head? ≠ some '0' := by
  induction n using Nat.strongRecOn with
  | ind n ih =>
      by_cases hn : n < 10
      · rw [decimal_of_lt hn]
        simp
        omega
      · have hhead : (decimal n).head? = (decimal (n / 10)).head? := by
          rw [decimal_of_le (by omega), List.head?_append,
            List.head?_eq_some_head (decimal_ne_nil (n / 10)), Option.some_or]
        rw [hhead]
        exact ih (n / 10) (by omega) (by omega)

/-- Only zero is written with a zero in front. -/
theorem head?_decimal (n : Nat) : (decimal n).head? ≠ some '0' ∨ (decimal n).length = 1 := by
  cases n with
  | zero => exact .inr rfl
  | succ n => exact .inl (head?_decimal_ne_zero (Nat.succ_pos n))

/-! ## Numbers in a text -/

def numbers (s : Text) : List Nat :=
  ((s.splitOnP (!·.isDigit)).filter (· ≠ [])).map number

@[simp] theorem numbers_nil : numbers [] = [] := rfl

theorem numbers_append_cons {c : Char} (h : c.isDigit = false) (s t : Text) :
    numbers (s ++ c :: t) = numbers s ++ numbers t := by
  rw [numbers, List.splitOnP_append_cons s t (by simp [h]), List.filter_append, List.map_append]
  rfl

theorem numbers_decimal (n : Nat) : numbers (decimal n) = [n] := by
  have hdigits : ∀ c ∈ decimal n, (!c.isDigit) = false := fun c hc => by
    rw [isDigit_of_mem_decimal hc]
    rfl
  rw [numbers, List.splitOnP_eq_singleton hdigits]
  simp [decimal_ne_nil, number_decimal]

/-- Numbers are read back from their numerals with a comma and a blank between them. -/
theorem numbers_joinWith (ns : List Nat) :
    numbers (joinWith ", ".toList (ns.map decimal)) = ns := by
  induction ns with
  | nil => rfl
  | cons n ns ih =>
      cases ns with
      | nil => exact numbers_decimal n
      | cons m ns =>
          have hjoin : joinWith ", ".toList ((n :: m :: ns).map decimal) =
              decimal n ++ ',' :: ([] ++ ' ' :: joinWith ", ".toList ((m :: ns).map decimal)) := by
            simp [joinWith]
          rw [hjoin, numbers_append_cons rfl, numbers_append_cons rfl, ih, numbers_decimal]
          rfl

end ReleaseLog.Text
