import ReleaseLog.Text.Utf8

/-!
# Encoded text

The octets of a text are read back as the same text: each character is written with a leading octet
that tells how many octets continue it, and the bits they carry add up to its code point.
-/

namespace ReleaseLog.Utf8

theorem toNat_toUInt8 {n : Nat} (h : n < 256) : n.toUInt8.toNat = n := by
  simp [Nat.mod_eq_of_lt h]

/-! ## Leading octets -/

theorem start_of_ascii {n : Nat} (h : n < 0x80) :
    start n.toUInt8 = ([some (Char.ofNat n)], none) := by
  have hn : n.toUInt8.toNat = n := toNat_toUInt8 (by omega)
  have hlt : n.toUInt8 < 0x80 := by
    rw [UInt8.lt_iff_toNat_lt, hn]
    exact h
  rw [start, if_pos hlt, hn]

theorem start_of_two : ∀ k < 32, 2 ≤ k →
    start (0xC0 + k).toUInt8 = ([], some ⟨k, 1, 0x80, 0xBF⟩) := by
  decide

/-- The second of three octets excludes what fits in two, and the surrogates. -/
theorem start_of_three : ∀ k < 16,
    start (0xE0 + k).toUInt8 =
      ([], some ⟨k, 2, if k = 0 then 0xA0 else 0x80, if k = 13 then 0x9F else 0xBF⟩) := by
  decide

/-- The second of four octets excludes what fits in three, and what is past the last code point. -/
theorem start_of_four : ∀ k < 5,
    start (0xF0 + k).toUInt8 =
      ([], some ⟨k, 3, if k = 0 then 0x90 else 0x80, if k = 4 then 0x8F else 0xBF⟩) := by
  decide

/-! ## Continuing octets -/

theorem itemsFrom_cons (state : Option Pending) (b : UInt8) (rest : Bytes) :
    itemsFrom state (b :: rest) = (step state b).1 ++ itemsFrom (step state b).2 rest := by
  cases state <;> rfl

theorem items_of_start {b : UInt8} {p : Pending} (h : start b = ([], some p)) (rest : Bytes) :
    items (b :: rest) = itemsFrom (some p) rest := by
  have hstep : step none b = ([], some p) := h
  rw [items, itemsFrom_cons, hstep, List.nil_append]

theorem itemsFrom_pending_cons (p : Pending) (b : UInt8) (rest : Bytes) :
    itemsFrom (some p) (b :: rest) =
      if p.lo ≤ b ∧ b ≤ p.hi then
        if p.left ≤ 1 then some (Char.ofNat (p.bits * 64 + (b.toNat - 0x80))) :: items rest
        else itemsFrom (some ⟨p.bits * 64 + (b.toNat - 0x80), p.left - 1, 0x80, 0xBF⟩) rest
      else none :: items (b :: rest) := by
  rw [itemsFrom_cons, step]
  split
  · split <;> rfl
  · rfl

/-- An octet in the range of an unfinished sequence adds its six bits. -/
theorem itemsFrom_continued {p : Pending} {k : Nat} (hk : k < 64) (hlo : p.lo.toNat ≤ 0x80 + k)
    (hhi : 0x80 + k ≤ p.hi.toNat) (rest : Bytes) :
    itemsFrom (some p) ((0x80 + k).toUInt8 :: rest) =
      if p.left ≤ 1 then some (Char.ofNat (p.bits * 64 + k)) :: items rest
      else itemsFrom (some ⟨p.bits * 64 + k, p.left - 1, 0x80, 0xBF⟩) rest := by
  have hn : (0x80 + k).toUInt8.toNat = 0x80 + k := toNat_toUInt8 (by omega)
  have hrange : p.lo ≤ (0x80 + k).toUInt8 ∧ (0x80 + k).toUInt8 ≤ p.hi := by
    rw [UInt8.le_iff_toNat_le, UInt8.le_iff_toNat_le, hn]
    exact ⟨hlo, hhi⟩
  rw [itemsFrom_pending_cons, if_pos hrange, hn, Nat.add_sub_cancel_left]

/-! ## Characters -/

theorem items_two {n : Nat} (hlo : 0x80 ≤ n) (hhi : n < 0x800) (rest : Bytes) :
    items ((0xC0 + n / 64).toUInt8 :: (0x80 + n % 64).toUInt8 :: rest) =
      some (Char.ofNat n) :: items rest := by
  have hbits : n / 64 * 64 + n % 64 = n := by omega
  rw [items_of_start (start_of_two (n / 64) (by omega) (by omega)),
    itemsFrom_continued (Nat.mod_lt _ (by decide)) (by simp) (by simp; omega),
    if_pos (Nat.le_refl 1), hbits]

theorem items_three {n : Nat} (hlo : 0x800 ≤ n) (hhi : n < 0x10000)
    (hvalid : n < 0xD800 ∨ 0xDFFF < n) (rest : Bytes) :
    items ((0xE0 + n / 4096).toUInt8 :: (0x80 + n / 64 % 64).toUInt8 ::
      (0x80 + n % 64).toUInt8 :: rest) = some (Char.ofNat n) :: items rest := by
  have hbits : (n / 4096 * 64 + n / 64 % 64) * 64 + n % 64 = n := by omega
  have hsecond : (if n / 4096 = 0 then (0xA0 : UInt8) else 0x80).toNat ≤ 0x80 + n / 64 % 64 ∧
      0x80 + n / 64 % 64 ≤ (if n / 4096 = 13 then (0x9F : UInt8) else 0xBF).toNat := by
    constructor
    · split
      · simp
        omega
      · simp
    · split
      · simp
        omega
      · simp
        omega
  rw [items_of_start (start_of_three (n / 4096) (by omega)),
    itemsFrom_continued (Nat.mod_lt _ (by decide)) hsecond.1 hsecond.2,
    if_neg (by simp), itemsFrom_continued (Nat.mod_lt _ (by decide)) (by simp) (by simp; omega),
    if_pos (by simp), hbits]

theorem items_four {n : Nat} (hlo : 0x10000 ≤ n) (hhi : n < 0x110000) (rest : Bytes) :
    items ((0xF0 + n / 262144).toUInt8 :: (0x80 + n / 4096 % 64).toUInt8 ::
      (0x80 + n / 64 % 64).toUInt8 :: (0x80 + n % 64).toUInt8 :: rest) =
        some (Char.ofNat n) :: items rest := by
  have hbits : ((n / 262144 * 64 + n / 4096 % 64) * 64 + n / 64 % 64) * 64 + n % 64 = n := by
    omega
  have hsecond : (if n / 262144 = 0 then (0x90 : UInt8) else 0x80).toNat ≤ 0x80 + n / 4096 % 64 ∧
      0x80 + n / 4096 % 64 ≤ (if n / 262144 = 4 then (0x8F : UInt8) else 0xBF).toNat := by
    constructor
    · split
      · simp
        omega
      · simp
    · split
      · simp
        omega
      · simp
        omega
  rw [items_of_start (start_of_four (n / 262144) (by omega)),
    itemsFrom_continued (Nat.mod_lt _ (by decide)) hsecond.1 hsecond.2,
    if_neg (by simp), itemsFrom_continued (Nat.mod_lt _ (by decide)) (by simp) (by simp; omega),
    if_neg (by simp), itemsFrom_continued (Nat.mod_lt _ (by decide)) (by simp) (by simp; omega),
    if_pos (by simp), hbits]

/-- The octets of a character are one item. -/
theorem items_encodeChar (c : Char) (rest : Bytes) :
    items (encodeChar c ++ rest) = some c :: items rest := by
  have hvalid : c.toNat < 0xD800 ∨ 0xDFFF < c.toNat ∧ c.toNat < 0x110000 := c.valid
  suffices h : items (encodeChar c ++ rest) = some (Char.ofNat c.toNat) :: items rest by
    rwa [Char.ofNat_toNat] at h
  rw [encodeChar]
  split
  · rename_i hlt
    have hstep : step none c.toNat.toUInt8 = ([some (Char.ofNat c.toNat)], none) :=
      start_of_ascii hlt
    rw [List.singleton_append, items, itemsFrom_cons, hstep]
    rfl
  · split
    · exact items_two (by omega) (by omega) rest
    · split
      · exact items_three (by omega) (by omega) (by omega) rest
      · exact items_four (by omega) (by omega) rest

theorem items_encode (s : Text) : items (encode s) = s.map some := by
  induction s with
  | nil => rfl
  | cons c s ih => rw [encode_cons, items_encodeChar, ih, List.map_cons]

/-- What is written is read back. -/
theorem decodeLossy_encode (s : Text) : decodeLossy (encode s) = s := by
  rw [decodeLossy, items_encode, List.map_map]
  exact List.map_id s

end ReleaseLog.Utf8
