import Mathlib.Algebra.BigOperators.Group.List.Basic
import Mathlib.Algebra.Order.BigOperators.Group.List
import Mathlib.Data.Nat.Cast.Basic
import Mathlib.Tactic.Ring

/-! A walk with a queue: each element is taken from the front and its children are put at the end. -/
namespace BreadthFirst
variable {α : Type*} (children : α → List α)

/-- What is taken from the queue, in order; none when `fuel` does not empty it. -/
def visit : ℕ → List α → Option (List α)
  | _, [] => some []
  | 0, _ :: _ => none
  | fuel+1, a :: queue => (visit fuel (queue ++ children a)).map (a :: ·)

variable {children} {fuel : ℕ} {queue l : List α} {a b : α}

theorem visit_cons (h : visit children (fuel + 1) (a :: queue) = some l) :
    ∃ l', visit children fuel (queue ++ children a) = some l' ∧ l = a :: l' := by
  obtain ⟨l', hl', rfl⟩ := Option.map_eq_some_iff.1 h
  exact ⟨l', hl', rfl⟩

theorem visit_closed (h : visit children fuel queue = some l) :
    (∀ a ∈ queue, a ∈ l) ∧ ∀ a ∈ l, ∀ b ∈ children a, b ∈ l := by
  induction fuel generalizing queue l with
  | zero =>
    cases queue with
    | nil => simp_all [visit]
    | cons a queue => cases h
  | succ fuel ih =>
    cases queue with
    | nil => simp_all [visit]
    | cons a queue =>
      obtain ⟨l', hl', rfl⟩ := visit_cons h
      obtain ⟨hqueue, hclosed⟩ := ih hl'
      constructor
      · intro x hx
        obtain rfl | hx := List.mem_cons.1 hx
        · exact List.mem_cons_self
        · exact List.mem_cons_of_mem a (hqueue x (List.mem_append_left _ hx))
      · intro x hx y hy
        obtain rfl | hx := List.mem_cons.1 hx
        · exact List.mem_cons_of_mem x (hqueue y (List.mem_append_right _ hy))
        · exact List.mem_cons_of_mem a (hclosed x hx y hy)

theorem mem_of_mem_queue (h : visit children fuel queue = some l) (ha : a ∈ queue) : a ∈ l := (visit_closed h).1 a ha

theorem mem_of_mem_children (h : visit children fuel queue = some l) (ha : a ∈ l) (hb : b ∈ children a) : b ∈ l :=
  (visit_closed h).2 a ha b hb

theorem forall_of_inherited {P : α → Prop} (hP : ∀ a b, P a → b ∈ children a → P b)
    (h : visit children fuel queue = some l) (hqueue : ∀ a ∈ queue, P a) : ∀ a ∈ l, P a := by
  induction fuel generalizing queue l with
  | zero =>
    cases queue with
    | nil => simp_all [visit]
    | cons a queue => cases h
  | succ fuel ih =>
    cases queue with
    | nil => simp_all [visit]
    | cons a queue =>
      obtain ⟨l', hl', rfl⟩ := visit_cons h
      have ha := hqueue a List.mem_cons_self
      intro x hx
      obtain rfl | hx := List.mem_cons.1 hx
      · exact ha
      · refine ih hl' ?_ x hx
        intro y hy
        obtain hy | hy := List.mem_append.1 hy
        · exact hqueue y (List.mem_cons_of_mem a hy)
        · exact hP a y ha hy

section Parent
variable {P : α → Prop} (parent : α → Option α)

theorem nodup_append (hstep : ∀ a b, P a → b ∈ children a → P b ∧ parent b = some a)
    (hnodup : ∀ a, (children a).Nodup) (done : List α) (h : visit children fuel queue = some l)
    (hqueue : ∀ a ∈ queue, P a) (hall : (done ++ queue).Nodup)
    (hparent : ∀ b ∈ done ++ queue, ∀ a, parent b = some a → a ∈ done) : (done ++ l).Nodup := by
  induction fuel generalizing queue l done with
  | zero =>
    cases queue with
    | nil => simp_all [visit]
    | cons a queue => cases h
  | succ fuel ih =>
    cases queue with
    | nil => simp_all [visit]
    | cons a queue =>
      obtain ⟨l', hl', rfl⟩ := visit_cons h
      have ha := hqueue a List.mem_cons_self
      have hsplit : done ++ [a] ++ (queue ++ children a) = done ++ a :: queue ++ children a := by simp
      have hnew : ∀ b ∈ children a, b ∉ done ++ a :: queue := by
        intro b hb hmem
        have hdone := hparent b hmem a (hstep a b ha hb).2
        exact (List.nodup_append.1 hall).2.2 a hdone a List.mem_cons_self rfl
      have hl := ih (done ++ [a]) hl' ?_ ?_ ?_
      · simpa using hl
      · intro b hb
        obtain hb | hb := List.mem_append.1 hb
        · exact hqueue b (List.mem_cons_of_mem a hb)
        · exact (hstep a b ha hb).1
      · rw [hsplit]
        refine List.nodup_append.2 ⟨hall, hnodup a, ?_⟩
        rintro x hx b hb rfl
        exact hnew x hb hx
      · rw [hsplit]
        intro b hb c hc
        obtain hb | hb := List.mem_append.1 hb
        · exact List.mem_append_left _ (hparent b hb c hc)
        · rw [(hstep a b ha hb).2] at hc
          rw [← Option.some.inj hc]
          simp

theorem nodup_visit (hstep : ∀ a b, P a → b ∈ children a → P b ∧ parent b = some a)
    (hnodup : ∀ a, (children a).Nodup) {root : α} (hroot : P root) (hnone : parent root = none)
    (h : visit children fuel [root] = some l) : l.Nodup := by
  have hl := nodup_append parent hstep hnodup [] h (by simpa using hroot) (by simp) (by simp [hnone])
  simpa using hl

end Parent

theorem weight_le (L N r : ℕ) (hr : r ≤ L) : 1 + N * (N + 1) ^ (L - r) ≤ (N + 1) ^ (L + 1 - r) := by
  have hpos : 0 < (N + 1) ^ (L - r) := pow_pos (Nat.succ_pos N) _
  have hexp : L + 1 - r = L - r + 1 := by omega
  have hmul : (N + 1) ^ (L - r + 1) = N * (N + 1) ^ (L - r) + (N + 1) ^ (L - r) := by ring
  rw [hexp, hmul]
  omega

theorem exists_visit {P : α → Prop} (rank : α → ℕ) (L N : ℕ) (hP : ∀ a b, P a → b ∈ children a → P b)
    (hrank : ∀ a b, P a → b ∈ children a → rank a < rank b ∧ rank b ≤ L)
    (hmany : ∀ a, (children a).length ≤ N) (hqueue : ∀ a ∈ queue, P a) :
    ∃ l, visit children (queue.map fun a => (N + 1) ^ (L + 1 - rank a)).sum queue = some l := by
  suffices hall : ∀ (fuel : ℕ) (queue : List α), (∀ a ∈ queue, P a) →
      (queue.map fun a => (N + 1) ^ (L + 1 - rank a)).sum ≤ fuel → ∃ l, visit children fuel queue = some l from
    hall _ queue hqueue le_rfl
  intro fuel
  induction fuel with
  | zero =>
    intro queue _ hsum
    cases queue with
    | nil => exact ⟨[], rfl⟩
    | cons a queue =>
      have hpos : 0 < (N + 1) ^ (L + 1 - rank a) := pow_pos (Nat.succ_pos N) _
      simp only [List.map_cons, List.sum_cons] at hsum
      omega
  | succ fuel ih =>
    intro queue hqueue hsum
    cases queue with
    | nil => exact ⟨[], rfl⟩
    | cons a queue =>
      have ha := hqueue a List.mem_cons_self
      -- the children together weigh less than the element
      have hweight : 1 + ((children a).map fun b => (N + 1) ^ (L + 1 - rank b)).sum ≤ (N + 1) ^ (L + 1 - rank a) := by
        cases hc : children a with
        | nil => exact Nat.one_le_iff_ne_zero.2 (pow_pos (Nat.succ_pos N) _).ne'
        | cons c cs =>
          have hc0 := hrank a c ha (hc ▸ List.mem_cons_self)
          have heach : ∀ n ∈ (c :: cs).map fun b => (N + 1) ^ (L + 1 - rank b), n ≤ (N + 1) ^ (L - rank a) := by
            intro n hn
            obtain ⟨b, hb, rfl⟩ := List.mem_map.1 hn
            have hb0 := hrank a b ha (hc ▸ hb)
            exact Nat.pow_le_pow_right (Nat.succ_pos N) (by omega)
          have hsum := List.sum_le_card_nsmul _ _ heach
          have hlen := hmany a
          rw [hc] at hlen
          rw [List.length_map, nsmul_eq_mul, Nat.cast_id] at hsum
          have hall := hsum.trans (Nat.mul_le_mul_right _ hlen)
          have hle := weight_le L N (rank a) (by omega)
          omega
      have hnext : ∀ b ∈ queue ++ children a, P b := by
        intro b hb
        obtain hb | hb := List.mem_append.1 hb
        · exact hqueue b (List.mem_cons_of_mem a hb)
        · exact hP a b ha hb
      have hless : ((queue ++ children a).map fun b => (N + 1) ^ (L + 1 - rank b)).sum ≤ fuel := by
        simp only [List.map_cons, List.sum_cons] at hsum
        rw [List.map_append, List.sum_append]
        omega
      obtain ⟨l, hl⟩ := ih (queue ++ children a) hnext hless
      refine ⟨a :: l, ?_⟩
      rw [visit, hl]
      rfl

theorem not_mem_of_mem_children (ha : a ∈ children a) (h : visit children fuel queue = some l) : a ∉ l := by
  have hqueue : ∀ (fuel : ℕ) (queue : List α), a ∈ queue → visit children fuel queue = none := by
    intro fuel
    induction fuel with
    | zero =>
      intro queue hmem
      cases queue with
      | nil => cases hmem
      | cons b queue => rfl
    | succ fuel ih =>
      intro queue hmem
      cases queue with
      | nil => cases hmem
      | cons b queue =>
        have hnext : a ∈ queue ++ children b := by
          obtain rfl | hmem := List.mem_cons.1 hmem
          · exact List.mem_append_right _ ha
          · exact List.mem_append_left _ hmem
        rw [visit, ih _ hnext]
        rfl
  induction fuel generalizing queue l with
  | zero =>
    cases queue with
    | nil => simp_all [visit]
    | cons b queue => cases h
  | succ fuel ih =>
    cases queue with
    | nil => simp_all [visit]
    | cons b queue =>
      obtain ⟨l', hl', rfl⟩ := visit_cons h
      intro hmem
      obtain rfl | hmem := List.mem_cons.1 hmem
      · rw [hqueue fuel _ (List.mem_append_right _ ha)] at hl'
        cases hl'
      · exact ih hl' hmem

end BreadthFirst
