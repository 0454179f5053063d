import Mathlib.Data.List.MinMax

/-! The number of the least row of a table that meets a condition, and what a change of the rows
with one number can do to it. -/
namespace Pick
variable {ρ κ : Type*} [LinearOrder κ]

/-- The number of the least row, in the order of `rank`, among those that meet `p`. -/
def pick (rank : ρ → κ) (number : ρ → Nat) (p : ρ → Bool) (rows : List ρ) : Option Nat :=
  ((rows.filter p).argmin rank).map number

variable {rank : ρ → κ} {number : ρ → Nat} {p p' : ρ → Bool} {rows rows' : List ρ}

theorem pick_eq_none : pick rank number p rows = none ↔ ∀ r ∈ rows, p r = false := by
  simp [pick, List.argmin_eq_none, List.filter_eq_nil_iff]

theorem of_pick {n : Nat} (h : pick rank number p rows = some n) :
    ∃ r ∈ rows, p r = true ∧ number r = n ∧ ∀ x ∈ rows, p x = true → rank r ≤ rank x := by
  obtain ⟨r, hr, rfl⟩ := Option.map_eq_some_iff.1 h
  have hmem := List.mem_filter.1 (List.argmin_mem hr)
  exact ⟨r, hmem.1, hmem.2, rfl, fun x hx hp => List.le_of_mem_argmin (List.mem_filter.2 ⟨hx, hp⟩) hr⟩

section
variable (hinj : ∀ r x, rank r = rank x → number r = number x)
include hinj

theorem pick_of_least {r : ρ}
    (hr : r ∈ rows) (hp : p r = true) (hmin : ∀ x ∈ rows, p x = true → rank r ≤ rank x) :
    pick rank number p rows = some (number r) := by
  cases h : pick rank number p rows with
  | none => simp [pick_eq_none.1 h r hr] at hp
  | some n =>
    obtain ⟨x, hx, hpx, rfl, hle⟩ := of_pick h
    rw [hinj x r (le_antisymm (hle r hr hp) (hmin x hx hpx))]

theorem pick_frame (n : Nat)
    (hrows : ∀ r, number r ≠ n → (r ∈ rows' ↔ r ∈ rows))
    (hcond : ∀ r, number r ≠ n → p' r = p r)
    (hnew : ∀ r ∈ rows', number r = n → p' r = false)
    (hpick : pick rank number p rows ≠ some n) :
    pick rank number p' rows' = pick rank number p rows := by
  have hold : ∀ r ∈ rows', p' r = true → r ∈ rows ∧ p r = true := by
    intro r hr hp
    have hn : number r ≠ n := fun hn => by simp [hnew r hr hn] at hp
    exact ⟨(hrows r hn).1 hr, hcond r hn ▸ hp⟩
  cases h : pick rank number p rows with
  | none =>
    refine pick_eq_none.2 fun r hr => ?_
    by_contra hp
    obtain ⟨hr', hp'⟩ := hold r hr (by simpa using hp)
    simp [pick_eq_none.1 h r hr'] at hp'
  | some m =>
    obtain ⟨r, hr, hp, rfl, hmin⟩ := of_pick h
    have hn : number r ≠ n := fun hn => hpick (hn ▸ h)
    refine pick_of_least hinj ((hrows r hn).2 hr) (hcond r hn ▸ hp) fun x hx hpx => ?_
    obtain ⟨hx', hpx'⟩ := hold x hx hpx
    exact hmin x hx' hpx'

theorem pick_congr (hrows : ∀ r, r ∈ rows' ↔ r ∈ rows) (hcond : ∀ r, p' r = p r) :
    pick rank number p' rows' = pick rank number p rows := by
  cases h : pick rank number p rows with
  | none =>
    refine pick_eq_none.2 fun r hr => ?_
    rw [hcond]
    exact pick_eq_none.1 h r ((hrows r).1 hr)
  | some m =>
    obtain ⟨r, hr, hp, rfl, hmin⟩ := of_pick h
    refine pick_of_least hinj ((hrows r).2 hr) ((hcond r).trans hp) fun x hx hpx => ?_
    exact hmin x ((hrows x).1 hx) ((hcond x).symm.trans hpx)

end

/-- The first of several picks. -/
def firstOf : List (Option Nat) → Option Nat
  | [] => none
  | o :: rest => o.or (firstOf rest)

theorem firstOf_frame (n : Nat) (picks picks' : List (Option Nat))
    (h : List.Forall₂ (fun o o' => o ≠ some n → o' = o) picks picks')
    (hfirst : firstOf picks ≠ some n) : firstOf picks' = firstOf picks := by
  induction h with
  | nil => rfl
  | cons ho _ ih =>
    rename_i o o' rest rest' _
    cases o with
    | none =>
      have ho' : o' = none := ho (by simp)
      subst ho'
      exact ih hfirst
    | some m =>
      have hm : some m ≠ some n := by simpa [firstOf] using hfirst
      rw [ho hm]
      rfl

end Pick
