import Mathlib.Data.List.Basic

/-! A map as the list of its entries, in the order in which their keys came. -/
namespace Entries
variable {κ β : Type*} [BEq κ]

/-- The entry keeps its place, or comes last. -/
def set (key : κ) (value : β) : List (κ × β) → List (κ × β)
  | [] => [(key, value)]
  | (k, v) :: rest => if k == key then (key, value) :: rest else (k, v) :: set key value rest

def erase (key : κ) (entries : List (κ × β)) : List (κ × β) := entries.filter fun e => !(e.1 == key)

variable {entries : List (κ × β)} {key k k' : κ} {value : β}

theorem lookup_cons : ((k', value) :: entries).lookup k = if k == k' then some value else entries.lookup k := by
  rw [List.lookup_cons]
  cases k == k' <;> rfl

variable [LawfulBEq κ]

theorem lookup_set : (set key value entries).lookup k = if k == key then some value else entries.lookup k := by
  induction entries with
  | nil => exact lookup_cons
  | cons e rest ih =>
    obtain ⟨k', v⟩ := e
    by_cases hk : k' = key
    · subst hk
      simp only [set, beq_self_eq_true, ↓reduceIte, lookup_cons]
      cases k == k' <;> rfl
    · have hset : set key value ((k', v) :: rest) = (k', v) :: set key value rest := by simp [set, hk]
      rw [hset, lookup_cons, lookup_cons, ih]
      by_cases hkk : k = k'
      · subst hkk
        simp [hk]
      · simp [hkk]

theorem lookup_erase : (erase key entries).lookup k = if k == key then none else entries.lookup k := by
  induction entries with
  | nil => simp [erase]
  | cons e rest ih =>
    obtain ⟨k', v⟩ := e
    rw [erase] at ih ⊢
    by_cases hk : k' = key
    · subst hk
      rw [List.filter_cons_of_neg (by simp), ih, lookup_cons]
      cases k == k' <;> rfl
    · rw [List.filter_cons_of_pos (by simpa using hk), lookup_cons, lookup_cons, ih]
      by_cases hkk : k = k'
      · subst hkk
        simp [hk]
      · simp [hkk]

end Entries
