import Mathlib.Data.List.Basic
import Mathlib.Order.Bounds.Basic

/-! The length of a longest common sublist of two lists. -/
namespace Lcs
variable {α : Type*} {a b c u : List α} {x y : α}

def Lengths (a b : List α) : Set ℕ := {k | ∃ c : List α, c.Sublist a ∧ c.Sublist b ∧ c.length = k}

theorem length_le_of_mem {k : ℕ} (h : k ∈ Lengths a b) : k ≤ a.length := by
  obtain ⟨c, ha, -, rfl⟩ := h
  exact ha.length_le

theorem lengths_reverse (a b : List α) : Lengths a.reverse b.reverse = Lengths a b := by
  ext k
  constructor
  · intro ⟨c, ha, hb, hk⟩
    refine ⟨c.reverse, ?_, ?_, by simpa using hk⟩
    · simpa using ha.reverse
    · simpa using hb.reverse
  · intro ⟨c, ha, hb, hk⟩
    exact ⟨c.reverse, ha.reverse, hb.reverse, by simpa using hk⟩

variable [DecidableEq α]

def lcs : List α → List α → ℕ
  | [], _ => 0
  | _ :: _, [] => 0
  | x :: a, y :: b => if x = y then lcs a b + 1 else max (lcs a (y :: b)) (lcs (x :: a) b)

@[simp] theorem lcs_nil_left (b : List α) : lcs [] b = 0 := by
  simp [lcs]

@[simp] theorem lcs_nil_right (a : List α) : lcs a [] = 0 := by
  cases a <;> simp [lcs]

theorem lcs_cons_self (x : α) (a b : List α) : lcs (x :: a) (x :: b) = lcs a b + 1 := by
  simp [lcs]

theorem lcs_cons_of_ne (h : x ≠ y) : lcs (x :: a) (y :: b) = max (lcs a (y :: b)) (lcs (x :: a) b) := by
  simp [lcs, h]

theorem lcs_mem (a b : List α) : lcs a b ∈ Lengths a b := by
  induction a, b using lcs.induct with
  | case1 b => exact ⟨[], by simp, by simp, by simp⟩
  | case2 x a => exact ⟨[], by simp, by simp, by simp⟩
  | case3 a y b ih =>
    obtain ⟨c, ha, hb, hk⟩ := ih
    rw [lcs_cons_self]
    exact ⟨y :: c, ha.cons_cons y, hb.cons_cons y, by simp [hk]⟩
  | case4 x a y b h ihA ihB =>
    rw [lcs_cons_of_ne h]
    cases Nat.le_total (lcs a (y :: b)) (lcs (x :: a) b) with
    | inl hle =>
      obtain ⟨c, ha, hb, hk⟩ := ihB
      exact ⟨c, ha, hb.cons y, by rw [max_eq_right hle, hk]⟩
    | inr hle =>
      obtain ⟨c, ha, hb, hk⟩ := ihA
      exact ⟨c, ha.cons x, hb, by rw [max_eq_left hle, hk]⟩

theorem length_le_lcs (ha : c.Sublist a) (hb : c.Sublist b) : c.length ≤ lcs a b := by
  induction a, b using lcs.induct generalizing c with
  | case1 b => simp [List.sublist_nil.1 ha]
  | case2 x a => simp [List.sublist_nil.1 hb]
  | case3 a y b ih =>
    have htail := ih ha.tail hb.tail
    rw [lcs_cons_self]
    rw [List.length_tail] at htail
    omega
  | case4 x a y b h ihA ihB =>
    rw [lcs_cons_of_ne h]
    cases ha with
    | cons _ ha => exact (ihA ha hb).trans (le_max_left _ _)
    | cons_cons _ ha =>
      -- a sublist that begins with `x` does not use `y`
      cases hb with
      | cons _ hb => exact (ihB (ha.cons_cons x) hb).trans (le_max_right _ _)
      | cons_cons _ hb => exact absurd rfl h

theorem isGreatest_lcs (a b : List α) : IsGreatest (Lengths a b) (lcs a b) := by
  refine ⟨lcs_mem a b, ?_⟩
  intro k ⟨c, ha, hb, hk⟩
  exact hk ▸ length_le_lcs ha hb

theorem lcs_le_left (a b : List α) : lcs a b ≤ a.length := length_le_of_mem (lcs_mem a b)

theorem lcs_reverse (a b : List α) : lcs a.reverse b.reverse = lcs a b := by
  have h := isGreatest_lcs a.reverse b.reverse
  rw [lengths_reverse] at h
  exact h.unique (isGreatest_lcs a b)

theorem lcs_append_left (u a b : List α) : lcs (u ++ a) (u ++ b) = u.length + lcs a b := by
  induction u with
  | nil => simp
  | cons x u ih =>
    rw [List.cons_append, List.cons_append, lcs_cons_self, ih, List.length_cons]
    omega

theorem lcs_append_right (a b u : List α) : lcs (a ++ u) (b ++ u) = lcs a b + u.length := by
  rw [← lcs_reverse, List.reverse_append, List.reverse_append, lcs_append_left, lcs_reverse, List.length_reverse,
    Nat.add_comm]

end Lcs
