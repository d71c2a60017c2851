/-!
# Association lists

A list of pairs as a finite map. Each operation is said by what `get?` finds afterwards.
-/

namespace ReleaseLog

/-- Keys with their values. The first pair of a key counts. -/
abbrev Assoc (κ ν : Type) := List (κ × ν)

namespace Assoc

variable {κ ν : Type} [DecidableEq κ]

def get? (key : κ) : Assoc κ ν → Option ν
  | [] => none
  | (other, value) :: rest => if key = other then some value else get? key rest

/-- Gives a key a value: in its place if it has one already, else at the end. -/
def put (key : κ) (value : ν) : Assoc κ ν → Assoc κ ν
  | [] => [(key, value)]
  | (other, previous) :: rest =>
    if key = other then (key, value) :: rest else (other, previous) :: put key value rest

def erase (key : κ) (entries : Assoc κ ν) : Assoc κ ν :=
  entries.filter (·.1 ≠ key)

@[simp] theorem get?_nil (key : κ) : get? key ([] : Assoc κ ν) = none := rfl

theorem get?_put (key other : κ) (value : ν) (entries : Assoc κ ν) :
    get? other (put key value entries) =
      if other = key then some value else get? other entries := by
  induction entries with
  | nil => simp [put, get?]
  | cons pair rest ih =>
    obtain ⟨head, previous⟩ := pair
    by_cases hk : key = head
    · subst hk
      by_cases ho : other = key <;> simp [put, get?, ho]
    · by_cases ho : other = head
      · subst ho
        simp [put, get?, hk, Ne.symm hk]
      · simp [put, get?, hk, ho, ih]

theorem get?_erase (key other : κ) (entries : Assoc κ ν) :
    get? other (erase key entries) = if other = key then none else get? other entries := by
  induction entries with
  | nil => simp [erase]
  | cons pair rest ih =>
    obtain ⟨head, value⟩ := pair
    unfold erase at ih ⊢
    by_cases hk : head = key
    · subst hk
      by_cases ho : other = head <;> simp_all [get?]
    · by_cases ho : other = head
      · subst ho
        simp [get?, hk]
      · simpa [get?, hk, ho] using ih

theorem mem_of_get? {key : κ} {value : ν} {entries : Assoc κ ν}
    (h : get? key entries = some value) : (key, value) ∈ entries := by
  induction entries with
  | nil => simp at h
  | cons pair rest ih =>
    obtain ⟨head, previous⟩ := pair
    by_cases hk : key = head
    · subst hk
      simp_all [get?]
    · exact List.mem_cons_of_mem _ (ih (by simpa [get?, hk] using h))

end Assoc

end ReleaseLog
