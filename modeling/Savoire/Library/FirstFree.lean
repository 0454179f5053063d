import Mathlib.Data.Finset.Card

/-! The first candidate of a sequence that is not in a list. -/
namespace FirstFree
variable {α : Type*} [DecidableEq α]

/-- The number of the first candidate from `n` on that is not taken; `fuel` of them are tried. -/
def search (taken : List α) (candidate : ℕ → α) : ℕ → ℕ → ℕ
  | 0, n => n
  | fuel+1, n => if candidate n ∈ taken then search taken candidate fuel (n+1) else n

/-- One more candidate than there are elements is enough. -/
def first (taken : List α) (candidate : ℕ → α) : α := candidate (search taken candidate taken.length 0)

variable {taken : List α} {candidate : ℕ → α}

theorem mem_of_lt_search {fuel n m : ℕ} (hnm : n ≤ m) (hm : m < search taken candidate fuel n) :
    candidate m ∈ taken := by
  induction fuel generalizing n with
  | zero => exact absurd hm (by rw [search]; omega)
  | succ fuel ih =>
    rw [search] at hm
    split at hm
    · rename_i hn
      by_cases hmn : m = n
      · exact hmn ▸ hn
      · exact ih (by omega) hm
    · omega

theorem search_free_or (fuel n : ℕ) :
    candidate (search taken candidate fuel n) ∉ taken ∨ search taken candidate fuel n = n + fuel := by
  induction fuel generalizing n with
  | zero => exact .inr rfl
  | succ fuel ih =>
    rw [search]
    split
    · obtain hfree | hall := ih (n + 1)
      · exact .inl hfree
      · exact .inr (by omega)
    · exact .inl ‹_›

theorem first_not_mem (hinj : Function.Injective candidate) : first taken candidate ∉ taken := by
  intro hmem
  have hall : search taken candidate taken.length 0 = 0 + taken.length :=
    (search_free_or taken.length 0).resolve_left fun hfree => hfree hmem
  -- one candidate too many for the list
  have hsub : (Finset.range (taken.length + 1)).image candidate ⊆ taken.toFinset := by
    intro a ha
    obtain ⟨m, hm, rfl⟩ := Finset.mem_image.1 ha
    rw [Finset.mem_range] at hm
    rw [List.mem_toFinset]
    by_cases hlast : m = search taken candidate taken.length 0
    · exact hlast ▸ hmem
    · have hlt : m < search taken candidate taken.length 0 := by omega
      exact mem_of_lt_search (Nat.zero_le m) hlt
  have hcard := Finset.card_le_card hsub
  rw [Finset.card_image_of_injective _ hinj, Finset.card_range] at hcard
  have hle := List.toFinset_card_le taken
  omega

theorem first_of_not_mem (h : candidate 0 ∉ taken) : first taken candidate = candidate 0 := by
  cases taken with
  | nil => rfl
  | cons a l => simp [first, search, h]

theorem exists_first (taken : List α) (candidate : ℕ → α) : ∃ n, first taken candidate = candidate n := ⟨_, rfl⟩

end FirstFree
