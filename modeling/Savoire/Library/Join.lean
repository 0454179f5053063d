import Mathlib.Data.Finset.Lattice.Fold
import Mathlib.Data.Multiset.Lattice

/-! Joins of finitely many updates, and sets of updates compared by their upper bounds: what a log,
an inbox or a directory still holds is compared with what was ever given to it. -/
namespace Join
variable {U : Type*} [SemilatticeSup U] [OrderBot U]

def joinAll (l : List U) : U := (l : Multiset U).sup

theorem joinAll_le_iff (l : List U) (b : U) : joinAll l ≤ b ↔ ∀ u ∈ l, u ≤ b :=
  Multiset.sup_le.trans (by simp)

theorem le_joinAll (l : List U) (u : U) (h : u ∈ l) : u ≤ joinAll l :=
  Multiset.le_sup (by simpa using h)

theorem joinAll_append (l m : List U) : joinAll (l ++ m) = joinAll l ⊔ joinAll m := by
  simp only [joinAll, ← Multiset.coe_add, Multiset.sup_add]

@[simp] theorem joinAll_nil : joinAll ([] : List U) = ⊥ := rfl

@[simp] theorem joinAll_singleton (u : U) : joinAll [u] = u := by
  simp [joinAll]

/-- Whatever bounds `s` bounds `t`: the join of `s`, where there is one, is at least that of `t`. -/
def Covers {U : Type*} [Preorder U] (s t : Set U) : Prop := upperBounds s ⊆ upperBounds t

section
variable {U : Type*} [Preorder U] {r s t : Set U}

theorem Covers.trans (hrs : Covers r s) (hst : Covers s t) : Covers r t :=
  Set.Subset.trans hrs hst

theorem Covers.of_subset (h : t ⊆ s) : Covers s t := upperBounds_mono_set h

theorem Covers.of_dominated (h : ∀ x ∈ t, ∃ y ∈ s, x ≤ y) : Covers s t := by
  intro b hb x hx
  obtain ⟨y, hy, hxy⟩ := h x hx
  exact hxy.trans (hb hy)

theorem Covers.union (hs : Covers r s) (ht : Covers r t) : Covers r (s ∪ t) := by
  intro b hb x hx
  exact hx.elim (fun h => hs hb h) (fun h => ht hb h)

end

theorem joinAll_le_of_covers (s : Set U) (l : List U) (b : U) (h : Covers s {u | u ∈ l})
    (hb : ∀ x ∈ s, x ≤ b) : joinAll l ≤ b :=
  (joinAll_le_iff l b).2 fun _ hu => h (fun _ hx => hb _ hx) hu

end Join
