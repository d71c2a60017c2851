import ReleaseLog.Proofs.Text.Decoded

/-!
# Malformed octets

After a malformed part the octets are read anew. So a character other than U+FFFD is decoded only
where it was encoded, and an octet of ASCII is its character wherever it stands, even where another
octet was due.
-/

namespace ReleaseLog.Utf8

/-! ## Steps of the decoder -/

theorem start_lt : ∀ n < 0x100,
    ((start n.toUInt8).2 = none ∧ (start n.toUInt8).1.length = 1) ∨
      ((start n.toUInt8).1 = [] ∧ ∃ p ∈ (start n.toUInt8).2, 0x80 ≤ p.lo) := by
  decide +kernel

/-- An octet is one item, or opens a sequence that octets from 0x80 on continue. -/
theorem start_cases (b : UInt8) :
    (∃ item, start b = ([item], none)) ∨ ∃ p, start b = ([], some p) ∧ 0x80 ≤ p.lo := by
  obtain ⟨n, hn, rfl⟩ : ∃ n < 0x100, n.toUInt8 = b := ⟨b.toNat, b.toNat_lt, UInt8.ofNat_toNat⟩
  obtain ⟨hnone, hitem⟩ | ⟨hnil, p, hp, hlo⟩ := start_lt n hn
  · obtain ⟨item, hitem⟩ := List.length_eq_one_iff.mp hitem
    exact .inl ⟨item, Prod.ext hitem hnone⟩
  · exact .inr ⟨p, Prod.ext hnil hp, hlo⟩

/-- What is due after an octet is never an octet of ASCII. -/
theorem le_lo_of_step {state : Option Pending} {b : UInt8} {p : Pending}
    (h : (step state b).2 = some p) : 0x80 ≤ p.lo := by
  have hstart : (start b).2 = some p → 0x80 ≤ p.lo := by
    intro h
    obtain ⟨item, hb⟩ | ⟨q, hb, hq⟩ := start_cases b
    · rw [hb] at h
      cases h
    · rw [hb] at h
      exact Option.some.inj h ▸ hq
  cases state with
  | none => exact hstart h
  | some q =>
      rw [step] at h
      split at h
      · dsimp only at h
        split at h
        · cases h
        · rw [← Option.some.inj h]
          exact UInt8.le_refl _
      · exact hstart h

/-! ## Where a character comes from -/

theorem exists_of_pending_malformed {p : Pending} {bytes : Bytes} {found : List Item}
    (h : itemsFrom (some p) bytes = none :: found) :
    ∃ part rest, bytes = part ++ rest ∧ items rest = found := by
  induction bytes generalizing p with
  | nil => exact ⟨[], [], rfl, (List.cons.inj h).2⟩
  | cons b bytes ih =>
      rw [itemsFrom_pending_cons] at h
      split at h
      · split at h
        · cases h
        · obtain ⟨part, rest, rfl, hrest⟩ := ih h
          exact ⟨b :: part, rest, rfl, hrest⟩
      · exact ⟨[], b :: bytes, rfl, (List.cons.inj h).2⟩

/-- After a malformed part the octets are read anew. -/
theorem exists_malformed {bytes : Bytes} {found : List Item} (h : items bytes = none :: found) :
    ∃ part rest, bytes = part ++ rest ∧ items rest = found := by
  cases bytes with
  | nil => cases h
  | cons b bytes =>
      obtain ⟨item, hb⟩ | ⟨p, hb, -⟩ := start_cases b
      · rw [items, itemsFrom_cons, step, hb] at h
        exact ⟨[b], bytes, rfl, (List.cons.inj h).2⟩
      · rw [items_of_start hb] at h
        obtain ⟨part, rest, rfl, hrest⟩ := exists_of_pending_malformed h
        exact ⟨b :: part, rest, rfl, hrest⟩

theorem encodeChar_infix_of_mem_items {bytes : Bytes} {c : Char} (h : some c ∈ items bytes) :
    encodeChar c <:+: bytes := by
  generalize hfound : items bytes = found at h
  induction found generalizing bytes with
  | nil => cases h
  | cons item found ih =>
      cases item with
      | none =>
          obtain ⟨part, rest, rfl, hrest⟩ := exists_malformed hfound
          exact (ih hrest (by simpa using h)).trans (List.suffix_append part rest).isInfix
      | some d =>
          obtain ⟨rest, rfl, hrest⟩ := exists_char hfound
          rcases List.mem_cons.mp h with hc | hc
          · rw [Option.some.inj hc]
            exact (List.prefix_append _ rest).isInfix
          · exact (ih hrest hc).trans (List.suffix_append _ rest).isInfix

/-- A character that does not stand for a malformed part was encoded. -/
theorem encodeChar_infix_of_mem {bytes : Bytes} {c : Char} (hc : c ≠ replacement)
    (h : c ∈ decodeLossy bytes) : encodeChar c <:+: bytes := by
  obtain ⟨item, hitem, heq⟩ := List.mem_map.mp h
  cases item with
  | none => exact (hc heq.symm).elim
  | some d =>
      rw [← show d = c from heq]
      exact encodeChar_infix_of_mem_items hitem

/-- The first character was encoded at the front. -/
theorem exists_of_decodeLossy_cons {bytes : Bytes} {c : Char} {s : Text} (hc : c ≠ replacement)
    (h : decodeLossy bytes = c :: s) : ∃ rest, bytes = encodeChar c ++ rest := by
  obtain ⟨item, found, hitems, hitem, -⟩ := List.map_eq_cons_iff.mp h
  cases item with
  | none => exact (hc hitem.symm).elim
  | some d =>
      obtain ⟨rest, hbytes, -⟩ := exists_char hitems
      exact ⟨rest, by rw [hbytes, ← show d = c from hitem]⟩

/-! ## Octets of ASCII -/

theorem items_ascii {a : UInt8} (ha : a < 0x80) (rest : Bytes) :
    items (a :: rest) = some (Char.ofNat a.toNat) :: items rest := by
  have hstep : step none a = ([some (Char.ofNat a.toNat)], none) := if_pos ha
  rw [items, itemsFrom_cons, hstep]
  rfl

theorem itemsFrom_append_ascii {a : UInt8} (ha : a < 0x80) (front back : Bytes)
    {state : Option Pending} (hstate : ∀ p ∈ state, 0x80 ≤ p.lo) :
    itemsFrom state (front ++ a :: back) =
      itemsFrom state front ++ some (Char.ofNat a.toNat) :: items back := by
  induction front generalizing state with
  | nil =>
      rw [← items_ascii ha]
      cases state with
      | none => rfl
      | some p =>
          have hout : ¬ (p.lo ≤ a ∧ a ≤ p.hi) := fun h =>
            absurd (UInt8.lt_of_lt_of_le ha (hstate p rfl)) (UInt8.not_lt.mpr h.1)
          rw [List.nil_append, itemsFrom_pending_cons, if_neg hout]
          rfl
  | cons b front ih =>
      rw [List.cons_append, itemsFrom_cons, itemsFrom_cons, ih fun p hp => le_lo_of_step hp,
        List.append_assoc]

/-- An octet of ASCII is its character, and the octets around it are decoded separately. -/
theorem decodeLossy_append_ascii {a : UInt8} (ha : a < 0x80) (front back : Bytes) :
    decodeLossy (front ++ a :: back) =
      decodeLossy front ++ Char.ofNat a.toNat :: decodeLossy back := by
  have hitems : itemsFrom none (front ++ a :: back) = _ :=
    itemsFrom_append_ascii ha front back (by simp)
  rw [decodeLossy, items, hitems, List.map_append]
  rfl

theorem encodeChar_ascii {a : UInt8} (ha : a < 0x80) : encodeChar (Char.ofNat a.toNat) = [a] := by
  have hlt : a.toNat < 0x80 := UInt8.lt_iff_toNat_lt.mp ha
  rw [encodeChar, toNat_ofNat (by omega)]
  simp only [if_pos hlt]
  exact congrArg (fun b => [b]) UInt8.ofNat_toNat

/-- A character of ASCII comes from its octet. -/
theorem mem_of_mem_decodeLossy {a : UInt8} (ha : a < 0x80) {bytes : Bytes}
    (h : Char.ofNat a.toNat ∈ decodeLossy bytes) : a ∈ bytes := by
  have hlt : a.toNat < 0x80 := UInt8.lt_iff_toNat_lt.mp ha
  have hne : Char.ofNat a.toNat ≠ replacement := by
    intro heq
    have hnat := congrArg Char.toNat heq
    rw [toNat_ofNat (by omega)] at hnat
    have hreplacement : replacement.toNat = 0xFFFD := rfl
    omega
  have hinfix := encodeChar_infix_of_mem hne h
  rw [encodeChar_ascii ha] at hinfix
  exact hinfix.subset (List.mem_singleton_self a)

theorem decodeLossy_ne_nil {bytes : Bytes} (h : bytes ≠ []) : decodeLossy bytes ≠ [] := by
  obtain ⟨b, rest, rfl⟩ := List.exists_cons_of_ne_nil h
  rw [decodeLossy, ne_eq, List.map_eq_nil_iff]
  exact itemsFrom_cons_ne_nil none b rest

end ReleaseLog.Utf8
