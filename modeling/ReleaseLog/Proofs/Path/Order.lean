import ReleaseLog.Path
import Mathlib.Data.List.Lex
import Mathlib.Data.List.Sort
import Mathlib.Order.Defs.LinearOrder

/-!
# The order of paths

Paths are in the dictionary order of their parts, which is a linear order but for the spelling. So
sorted paths without repetitions are strictly ascending, and told by which paths they are.
-/

namespace ReleaseLog.Path

/-! ## Dictionary order -/

section Dictionary

variable {α : Type} [LinearOrder α]

private theorem nil_le (x : List α) : [] ≤ x := by
  cases x with
  | nil => exact le_refl _
  | cons a x => exact le_of_lt (List.nil_lt_cons a x)

private theorem not_cons_le_nil (a : α) (x : List α) : ¬ a :: x ≤ [] :=
  fun h => List.cons_ne_nil a x (le_antisymm h (nil_le _))

private theorem cons_le_cons_iff {a b : α} {x y : List α} :
    a :: x ≤ b :: y ↔ a < b ∨ a = b ∧ x ≤ y := by
  rw [le_iff_lt_or_eq, le_iff_lt_or_eq, List.cons_lt_cons_iff, List.cons.injEq]
  tauto

end Dictionary

/-- A part as numbers, first its rank and then the octets of a name. -/
def Part.key : Part → List Nat
  | .name octets => 3 :: octets.map UInt8.toNat
  | part => [part.rank]

def key (p : Path) : List (List Nat) :=
  p.parts.map Part.key

theorem bytesLE_iff {x y : Bytes} :
    bytesLE x y = true ↔ x.map UInt8.toNat ≤ y.map UInt8.toNat := by
  induction x generalizing y with
  | nil => simp [bytesLE, nil_le]
  | cons a x ih =>
      cases y with
      | nil => simp [bytesLE, not_cons_le_nil]
      | cons b y =>
          rw [bytesLE, List.map_cons, List.map_cons, cons_le_cons_iff, ← ih]
          simp [UInt8.lt_iff_toNat_lt, UInt8.toNat_inj]

theorem Part.key_injective : Function.Injective Part.key := by
  have hnumbers : Function.Injective (List.map UInt8.toNat) :=
    List.map_injective_iff.mpr fun _ _ => UInt8.toNat_inj.mp
  intro a b h
  cases a <;> cases b <;> simp_all [key, rank, hnumbers.eq_iff]

theorem Part.le_iff {a b : Part} : a.le b = true ↔ a.key ≤ b.key := by
  cases a <;> cases b <;> simp [le, key, rank, bytesLE_iff, nil_le, cons_le_cons_iff]

theorem partsLE_iff {xs ys : List Part} :
    partsLE xs ys = true ↔ xs.map Part.key ≤ ys.map Part.key := by
  induction xs generalizing ys with
  | nil => simp [partsLE, nil_le]
  | cons a xs ih =>
      cases ys with
      | nil => simp [partsLE, not_cons_le_nil]
      | cons b ys =>
          rw [partsLE, List.map_cons, List.map_cons, cons_le_cons_iff, Part.key_injective.eq_iff]
          by_cases hab : a = b
          · simp [hab, ih]
          · have hkey : a.key ≠ b.key := Part.key_injective.ne hab
            simp [hab, hkey, Part.le_iff, le_iff_lt_or_eq]

theorem le_iff {p q : Path} : p.le q = true ↔ p.key ≤ q.key :=
  partsLE_iff

theorem same_iff {p q : Path} : p.same q = true ↔ p.key = q.key := by
  have hkeys : Function.Injective (List.map Part.key) :=
    List.map_injective_iff.mpr Part.key_injective
  rw [same, decide_eq_true_eq]
  exact hkeys.eq_iff.symm

theorem pairwise_mergeSort (ps : List Path) : (ps.mergeSort le).Pairwise (key · ≤ key ·) := by
  have htrans : ∀ p q r : Path, p.le q = true → q.le r = true → p.le r = true :=
    fun _ _ _ hpq hqr => le_iff.mpr ((le_iff.mp hpq).trans (le_iff.mp hqr))
  have htotal : ∀ p q : Path, (p.le q || q.le p) = true := by
    intro p q
    rw [Bool.or_eq_true, le_iff, le_iff]
    exact le_total _ _
  exact (List.pairwise_mergeSort htrans htotal ps).imp le_iff.mp

/-! ## Sorting without repetitions -/

/-- Takes in a path in front of ascending ones, unless the first of them is the same. -/
def pushDistinct (p : Path) (sorted : List Path) : List Path :=
  match sorted with
  | [] => [p]
  | q :: rest => if p.same q then q :: rest else p :: q :: rest

theorem mem_of_mem_pushDistinct {p q : Path} {sorted : List Path} (h : q ∈ pushDistinct p sorted) :
    q = p ∨ q ∈ sorted := by
  unfold pushDistinct at h
  split at h
  · exact .inl (List.mem_singleton.mp h)
  · split at h
    · exact .inr h
    · exact List.mem_cons.mp h

theorem mem_pushDistinct_of_mem {p q : Path} {sorted : List Path} (h : q ∈ sorted) :
    q ∈ pushDistinct p sorted := by
  unfold pushDistinct
  split
  · cases h
  · split
    · exact h
    · exact List.mem_cons_of_mem _ h

theorem exists_same_pushDistinct (p : Path) (sorted : List Path) :
    ∃ q ∈ pushDistinct p sorted, p.same q = true := by
  have hself : p.same p = true := same_iff.mpr rfl
  unfold pushDistinct
  split
  · exact ⟨p, List.mem_singleton_self p, hself⟩
  · split
    · rename_i q rest hsame
      exact ⟨q, List.mem_cons_self, hsame⟩
    · exact ⟨p, List.mem_cons_self, hself⟩

theorem mem_of_mem_foldr_pushDistinct {p : Path} {ps : List Path}
    (h : p ∈ ps.foldr pushDistinct []) : p ∈ ps := by
  induction ps with
  | nil => cases h
  | cons q rest ih =>
      rcases mem_of_mem_pushDistinct h with rfl | h
      · exact List.mem_cons_self
      · exact List.mem_cons_of_mem _ (ih h)

theorem mem_of_mem_sortDistinct {p : Path} {ps : List Path} (h : p ∈ sortDistinct ps) : p ∈ ps :=
  List.mem_mergeSort.mp (mem_of_mem_foldr_pushDistinct h)

theorem exists_same_foldr_pushDistinct {p : Path} {ps : List Path} (h : p ∈ ps) :
    ∃ q ∈ ps.foldr pushDistinct [], p.same q = true := by
  induction ps with
  | nil => cases h
  | cons q rest ih =>
      rcases List.mem_cons.mp h with rfl | h
      · exact exists_same_pushDistinct p _
      · obtain ⟨r, hr, hsame⟩ := ih h
        exact ⟨r, mem_pushDistinct_of_mem hr, hsame⟩

/-- Each path is there in one of its spellings. -/
theorem exists_same_sortDistinct {p : Path} {ps : List Path} (h : p ∈ ps) :
    ∃ q ∈ sortDistinct ps, p.same q = true :=
  exists_same_foldr_pushDistinct (List.mem_mergeSort.mpr h)

end ReleaseLog.Path
