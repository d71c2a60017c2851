import Mathlib.Data.List.Forall2
import Mathlib.Data.Option.Basic

/-!
# Results that may be missing

A condition holds where the computation behind it goes on. A list is mapped by a function that may
fail exactly if each of its items is.
-/

namespace ReleaseLog

/-! ## Conditions -/

theorem guard_bind_eq_some_iff {α : Type} {p : Prop} [Decidable p] {x : Option α} {a : α} :
    ((guard p : Option Unit) >>= fun _ => x) = some a ↔ p ∧ x = some a := by
  by_cases hp : p
  · simp [guard, hp]
  · rw [guard, if_neg hp]
    exact ⟨fun h => (nomatch h), fun h => (hp h.1).elim⟩

theorem of_guard {c : Prop} [Decidable c] {u : Unit}
    (h : (if c then pure () else failure : Option Unit) = some u) : c := by
  by_contra hc
  rw [if_neg hc] at h
  cases h

/-! ## Lists of options -/

theorem mapM_eq_some_iff {α β : Type} {f : α → Option β} {xs : List α} {ys : List β} :
    xs.mapM f = some ys ↔ List.Forall₂ (fun x y => f x = some y) xs ys := by
  induction xs generalizing ys with
  | nil => simp [eq_comm]
  | cons x xs ih =>
      rw [List.mapM_cons, List.forall₂_cons_left_iff]
      simp only [Option.bind_eq_bind, Option.bind_eq_some_iff, ih]
      constructor
      · rintro ⟨y, hy, zs, hzs, h⟩
        exact ⟨y, zs, hy, hzs, (Option.some.inj h).symm⟩
      · rintro ⟨y, zs, hy, hzs, rfl⟩
        exact ⟨y, hy, zs, hzs, rfl⟩

theorem mapM_id_eq_some_iff {α : Type} {xs : List (Option α)} {ys : List α} :
    xs.mapM id = some ys ↔ xs = ys.map some := by
  rw [mapM_eq_some_iff, ← List.forall₂_eq_eq_eq, List.forall₂_map_right_iff]
  rfl

/-! ## Lists of results -/

section Results

variable {α β ε : Type} {f : α → Except ε β} {xs : List α} {ys : List β}

theorem mapM_eq_ok_iff : xs.mapM f = .ok ys ↔ List.Forall₂ (fun x y => f x = .ok y) xs ys := by
  induction xs generalizing ys with
  | nil =>
      rw [List.mapM_nil, List.forall₂_nil_left_iff]
      exact ⟨fun h => (Except.ok.inj h).symm, fun h => congrArg Except.ok h.symm⟩
  | cons x xs ih =>
      rw [List.mapM_cons, List.forall₂_cons_left_iff]
      cases hx : f x with
      | error e => constructor <;> simp [bind, Except.bind]
      | ok y =>
          cases hxs : xs.mapM f with
          | error e =>
              constructor
              · simp [bind, Except.bind]
              · rintro ⟨_, zs, _, hzs, _⟩
                rw [ih.mpr hzs] at hxs
                cases hxs
          | ok zs =>
              constructor
              · intro h
                exact ⟨y, zs, rfl, ih.mp hxs, (Except.ok.inj h).symm⟩
              · rintro ⟨_, _, hy, hws, rfl⟩
                obtain rfl := Except.ok.inj hy
                obtain rfl := Except.ok.inj (hxs.symm.trans (ih.mpr hws))
                rfl

theorem exists_mapM_of_forall {R : α → β → Prop} (h : ∀ x ∈ xs, ∃ y, f x = .ok y ∧ R x y) :
    ∃ ys, xs.mapM f = .ok ys ∧ List.Forall₂ R xs ys := by
  induction xs with
  | nil => exact ⟨[], rfl, .nil⟩
  | cons x xs ih =>
      obtain ⟨y, hy, hxy⟩ := h x (by simp)
      obtain ⟨ys, hys, hxys⟩ := ih fun z hz => h z (by simp [hz])
      refine ⟨y :: ys, ?_, .cons hxy hxys⟩
      rw [List.mapM_cons, hy, hys]
      rfl

theorem mem_of_mapM (h : xs.mapM f = .ok ys) :
    (∀ x ∈ xs, ∃ y ∈ ys, f x = .ok y) ∧ ∀ y ∈ ys, ∃ x ∈ xs, f x = .ok y := by
  have hall := mapM_eq_ok_iff.mp h
  clear h
  induction hall with
  | nil => simp
  | cons hxy _ ih =>
      obtain ⟨hleft, hright⟩ := ih
      refine ⟨List.forall_mem_cons.mpr ⟨⟨_, List.mem_cons_self, hxy⟩, fun x hx => ?_⟩,
        List.forall_mem_cons.mpr ⟨⟨_, List.mem_cons_self, hxy⟩, fun y hy => ?_⟩⟩
      · obtain ⟨y, hy, hf⟩ := hleft x hx
        exact ⟨y, List.mem_cons_of_mem _ hy, hf⟩
      · obtain ⟨x, hx, hf⟩ := hright y hy
        exact ⟨x, List.mem_cons_of_mem _ hx, hf⟩

/-- A list is mapped if each of its items is. -/
theorem exists_mapM_iff : (∃ ys, xs.mapM f = .ok ys) ↔ ∀ x ∈ xs, ∃ y, f x = .ok y := by
  constructor
  · rintro ⟨ys, hys⟩ x hx
    obtain ⟨y, -, hy⟩ := (mem_of_mapM hys).1 x hx
    exact ⟨y, hy⟩
  · intro h
    obtain ⟨ys, hys, -⟩ := exists_mapM_of_forall (R := fun _ _ => True) fun x hx => by
      obtain ⟨y, hy⟩ := h x hx
      exact ⟨y, hy, trivial⟩
    exact ⟨ys, hys⟩

end Results

end ReleaseLog
