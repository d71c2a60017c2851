import ReleaseLog.Path
import ReleaseLog.Proofs.Failure
import ReleaseLog.Proofs.Text.Encoded

/-!
# Decoded text

Octets that are read as a text without a malformed part are the octets of that text. So a text and
its octets determine each other.
-/

namespace ReleaseLog

namespace Utf8

theorem toNat_ofNat {n : Nat} (h : n < 0xD800 ∨ 0xDFFF < n ∧ n < 0x110000) :
    (Char.ofNat n).toNat = n := by
  rw [Char.ofNat, dif_pos h]
  rfl

/-! ## Octets that make up a character -/

section Characters

variable {c : Char} {bytes : Bytes} {found : List Item}

theorem start_of_malformed : ∀ n < 0x100, (0x80 ≤ n ∧ n < 0xC2) ∨ 0xF5 ≤ n →
    start n.toUInt8 = ([none], none) := by
  decide +kernel

/-- What continues an unfinished sequence to a character is an octet in its range. -/
theorem exists_continued {bits left : Nat} {lo hi : UInt8} (hlo : 0x80 ≤ lo.toNat)
    (hhi : hi.toNat ≤ 0xBF) (h : itemsFrom (some ⟨bits, left, lo, hi⟩) bytes = some c :: found) :
    ∃ k rest, bytes = (0x80 + k).toUInt8 :: rest ∧ k < 64 ∧
      (lo.toNat ≤ 0x80 + k ∧ 0x80 + k ≤ hi.toNat) ∧
      (if left ≤ 1 then some (Char.ofNat (bits * 64 + k)) :: items rest
        else itemsFrom (some ⟨bits * 64 + k, left - 1, 0x80, 0xBF⟩) rest) = some c :: found := by
  cases bytes with
  | nil => cases h
  | cons b rest =>
      by_cases hrange : lo ≤ b ∧ b ≤ hi
      · rw [UInt8.le_iff_toNat_le, UInt8.le_iff_toNat_le] at hrange
        have hb : b = (0x80 + (b.toNat - 0x80)).toUInt8 := by
          rw [Nat.add_sub_cancel' (by omega)]
          exact UInt8.ofNat_toNat.symm
        have hk : b.toNat - 0x80 < 64 := by omega
        have hrange : lo.toNat ≤ 0x80 + (b.toNat - 0x80) ∧ 0x80 + (b.toNat - 0x80) ≤ hi.toNat := by
          omega
        rw [hb, itemsFrom_continued hk hrange.1 hrange.2] at h
        exact ⟨b.toNat - 0x80, rest, by rw [← hb], hk, hrange, h⟩
      · rw [itemsFrom_cons, step, if_neg hrange] at h
        cases h

/-- The last octet of a sequence completes the character. -/
theorem exists_last {bits : Nat}
    (h : itemsFrom (some ⟨bits, 1, 0x80, 0xBF⟩) bytes = some c :: found) :
    ∃ k rest, bytes = (0x80 + k).toUInt8 :: rest ∧ k < 64 ∧ c = Char.ofNat (bits * 64 + k) ∧
      items rest = found := by
  obtain ⟨k, rest, hbytes, hk, -, h⟩ := exists_continued (by decide) (by decide) h
  rw [if_pos (Nat.le_refl 1), List.cons.injEq, Option.some.injEq] at h
  exact ⟨k, rest, hbytes, hk, h.1.symm, h.2⟩

theorem exists_two {k : Nat} (hlo : 2 ≤ k) (hhi : k < 32)
    (h : itemsFrom (some ⟨k, 1, 0x80, 0xBF⟩) bytes = some c :: found) :
    ∃ rest, (0xC0 + k).toUInt8 :: bytes = encodeChar c ++ rest ∧ items rest = found := by
  obtain ⟨i, rest, rfl, hi, rfl, hfound⟩ := exists_last h
  refine ⟨rest, ?_, hfound⟩
  generalize hn : k * 64 + i = n
  obtain ⟨rfl, rfl⟩ : n / 64 = k ∧ n % 64 = i := by omega
  rw [encodeChar, toNat_ofNat (by omega)]
  simp only [if_neg (show ¬ n < 0x80 by omega), if_pos (show n < 0x800 by omega),
    List.cons_append, List.nil_append]

theorem exists_three {k : Nat} (hk : k < 16)
    (h : itemsFrom (some ⟨k, 2, if k = 0 then 0xA0 else 0x80, if k = 13 then 0x9F else 0xBF⟩)
      bytes = some c :: found) :
    ∃ rest, (0xE0 + k).toUInt8 :: bytes = encodeChar c ++ rest ∧ items rest = found := by
  obtain ⟨i, bytes, rfl, hi, hrange, h⟩ :=
    exists_continued (by split <;> decide) (by split <;> decide) h
  obtain ⟨j, rest, rfl, hj, rfl, hfound⟩ := exists_last h
  refine ⟨rest, ?_, hfound⟩
  have hlong : k = 0 → 0xA0 ≤ 0x80 + i := by
    rintro rfl
    exact hrange.1
  have hsurrogate : k = 13 → 0x80 + i ≤ 0x9F := by
    rintro rfl
    exact hrange.2
  generalize hn : (k * 64 + i) * 64 + j = n
  obtain ⟨rfl, rfl, rfl⟩ : n / 4096 = k ∧ n / 64 % 64 = i ∧ n % 64 = j := by omega
  rw [encodeChar, toNat_ofNat (by omega)]
  simp only [if_neg (show ¬ n < 0x80 by omega), if_neg (show ¬ n < 0x800 by omega),
    if_pos (show n < 0x10000 by omega), List.cons_append, List.nil_append]

theorem exists_four {k : Nat} (hk : k < 5)
    (h : itemsFrom (some ⟨k, 3, if k = 0 then 0x90 else 0x80, if k = 4 then 0x8F else 0xBF⟩)
      bytes = some c :: found) :
    ∃ rest, (0xF0 + k).toUInt8 :: bytes = encodeChar c ++ rest ∧ items rest = found := by
  obtain ⟨i, bytes, rfl, hi, hrange, h⟩ :=
    exists_continued (by split <;> decide) (by split <;> decide) h
  obtain ⟨j, bytes, rfl, hj, -, h⟩ := exists_continued (by decide) (by decide) h
  obtain ⟨l, rest, rfl, hl, rfl, hfound⟩ := exists_last h
  refine ⟨rest, ?_, hfound⟩
  have hlong : k = 0 → 0x90 ≤ 0x80 + i := by
    rintro rfl
    exact hrange.1
  have hlast : k = 4 → 0x80 + i ≤ 0x8F := by
    rintro rfl
    exact hrange.2
  generalize hn : ((k * 64 + i) * 64 + j) * 64 + l = n
  obtain ⟨rfl, rfl, rfl, rfl⟩ :
      n / 262144 = k ∧ n / 4096 % 64 = i ∧ n / 64 % 64 = j ∧ n % 64 = l := by omega
  rw [encodeChar, toNat_ofNat (by omega)]
  simp only [if_neg (show ¬ n < 0x80 by omega), if_neg (show ¬ n < 0x800 by omega),
    if_neg (show ¬ n < 0x10000 by omega), List.cons_append, List.nil_append]

/-- What is read as a character starts with the octets of that character. -/
theorem exists_char (h : items bytes = some c :: found) :
    ∃ rest, bytes = encodeChar c ++ rest ∧ items rest = found := by
  cases bytes with
  | nil => cases h
  | cons b bytes =>
      obtain ⟨n, hn, rfl⟩ : ∃ n < 0x100, n.toUInt8 = b := ⟨b.toNat, b.toNat_lt, UInt8.ofNat_toNat⟩
      by_cases hascii : n < 0x80
      · rw [items, itemsFrom_cons, step, start_of_ascii hascii] at h
        obtain ⟨hc, hfound⟩ := List.cons.inj h
        refine ⟨bytes, ?_, hfound⟩
        rw [← Option.some.inj hc, encodeChar, toNat_ofNat (by omega)]
        simp only [if_pos hascii, List.cons_append, List.nil_append]
      · by_cases hmalformed : n < 0xC2 ∨ 0xF5 ≤ n
        · rw [items, itemsFrom_cons, step, start_of_malformed n hn (by omega)] at h
          cases h
        · by_cases htwo : n < 0xE0
          · obtain ⟨k, rfl⟩ : ∃ k, n = 0xC0 + k := ⟨n - 0xC0, by omega⟩
            rw [items_of_start (start_of_two k (by omega) (by omega))] at h
            exact exists_two (by omega) (by omega) h
          · by_cases hthree : n < 0xF0
            · obtain ⟨k, rfl⟩ : ∃ k, n = 0xE0 + k := ⟨n - 0xE0, by omega⟩
              rw [items_of_start (start_of_three k (by omega))] at h
              exact exists_three (by omega) h
            · obtain ⟨k, rfl⟩ : ∃ k, n = 0xF0 + k := ⟨n - 0xF0, by omega⟩
              rw [items_of_start (start_of_four k (by omega))] at h
              exact exists_four (by omega) h

end Characters

/-! ## Octets that make up a text -/

/-- An octet completes an item or leaves a sequence unfinished. -/
theorem step_ne_nil (state : Option Pending) (b : UInt8) :
    (step state b).1 ≠ [] ∨ ∃ p, (step state b).2 = some p := by
  cases state with
  | none =>
      simp only [step, start]
      grind
  | some p =>
      simp only [step]
      grind

theorem itemsFrom_cons_ne_nil (state : Option Pending) (b : UInt8) (rest : Bytes) :
    itemsFrom state (b :: rest) ≠ [] := by
  induction rest generalizing state b with
  | nil =>
      rw [itemsFrom_cons]
      obtain h | ⟨p, hp⟩ := step_ne_nil state b
      · exact List.append_ne_nil_of_left_ne_nil h _
      · rw [hp]
        exact List.append_ne_nil_of_right_ne_nil _ (List.cons_ne_nil _ _)
  | cons b' rest ih =>
      rw [itemsFrom_cons]
      exact List.append_ne_nil_of_right_ne_nil _ (ih _ b')

theorem eq_encode_of_items {bytes : Bytes} {s : Text} (h : items bytes = s.map some) :
    bytes = encode s := by
  induction s generalizing bytes with
  | nil =>
      cases bytes with
      | nil => rfl
      | cons b bytes => exact absurd h (itemsFrom_cons_ne_nil none b bytes)
  | cons c s ih =>
      obtain ⟨rest, rfl, hrest⟩ := exists_char h
      rw [encode_cons, ih hrest]

/-- A text is read from its octets alone. -/
theorem decode?_eq_some_iff {bytes : Bytes} {s : Text} :
    decode? bytes = some s ↔ bytes = encode s := by
  rw [decode?, mapM_id_eq_some_iff]
  constructor
  · exact eq_encode_of_items
  · rintro rfl
    exact items_encode s

end Utf8

/-- A path is named by the text that writes it. -/
theorem Path.text?_eq_some_iff {p : Path} {s : Text} : p.text? = some s ↔ p = .ofText s := by
  rw [Path.text?, Utf8.decode?_eq_some_iff, Path.ofText, Path.mk.injEq]

end ReleaseLog
