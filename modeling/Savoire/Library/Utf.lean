import Mathlib

/-! Texts compared unit by unit in their UTF-8 and their UTF-16 encodings. -/
namespace Utf

def utf8 (c : Char) : List Nat :=
  let n := c.toNat
  if n < 0x80 then [n]
  else if n < 0x800 then [0xC0 + n / 64, 0x80 + n % 64]
  else if n < 0x10000 then [0xE0 + n / 4096, 0x80 + n / 64 % 64, 0x80 + n % 64]
  else [0xF0 + n / 262144, 0x80 + n / 4096 % 64, 0x80 + n / 64 % 64, 0x80 + n % 64]

def utf16 (c : Char) : List Nat :=
  let n := c.toNat
  if n < 0x10000 then [n] else [0xD800 + (n - 0x10000) / 1024, 0xDC00 + (n - 0x10000) % 1024]

def firstDiff {α : Type*} [DecidableEq α] : List α → List α → Option (α × α)
  | a :: as, b :: bs => if a = b then firstDiff as bs else some (a, b)
  | _, _ => none

section Code
variable {α : Type*} [DecidableEq α] {code : α → List Nat} {r : α → α → Prop}

/-- The codes of two characters differ before either ends, as `r` says. -/
structure Decides (code : α → List Nat) (r : α → α → Prop) : Prop where
  lt_iff : ∀ c d, c ≠ d → ∀ x y, code c ++ x < code d ++ y ↔ r c d
  ne_nil : ∀ c, code c ≠ []

theorem append_lt_append_left (u x y : List Nat) : u ++ x < u ++ y ↔ x < y := by
  induction u with
  | nil => rfl
  | cons a u ih => simp [ih]

theorem flatMap_lt_iff (h : Decides code r) (a b : List α) :
    a.flatMap code < b.flatMap code ↔
      match firstDiff a b with
      | some (c, d) => r c d
      | none => a.length < b.length := by
  induction a generalizing b with
  | nil =>
    cases b with
    | nil => simp [firstDiff]
    | cons d b =>
      obtain ⟨u, us, hu⟩ := List.exists_cons_of_ne_nil (h.ne_nil d)
      simp [firstDiff, hu]
  | cons c a ih =>
    cases b with
    | nil => simp [firstDiff]
    | cons d b =>
      simp only [List.flatMap_cons, firstDiff]
      by_cases hcd : c = d
      · subst hcd
        rw [append_lt_append_left, ih b, if_pos rfl]
        cases firstDiff a b with
        | none => simp
        | some p => simp
      · rw [if_neg hcd]
        exact h.lt_iff c d hcd _ _

end Code

theorem toNat_range (c : Char) : c.toNat < 0xD800 ∨ (0xDFFF < c.toNat ∧ c.toNat < 0x110000) :=
  c.valid

theorem utf8_decides : Decides utf8 (fun c d => c.toNat < d.toNat) where
  lt_iff := by
    intro c d hcd x y
    have hne : c.toNat ≠ d.toNat := fun h => hcd (Char.toNat_inj.1 h)
    have hc := toNat_range c
    have hd := toNat_range d
    unfold utf8
    generalize c.toNat = m at *
    generalize d.toNat = n at *
    simp only
    split_ifs <;> simp only [List.cons_append, List.nil_append, List.cons_lt_cons_iff] <;>
      constructor <;> intro h <;> try omega
  ne_nil := by
    intro c
    unfold utf8
    simp only
    split_ifs <;> simp

/-- Characters above U+FFFF come before those from U+E000 to U+FFFF. -/
def unitRank (c : Char) : Nat :=
  if 0xE000 ≤ c.toNat ∧ c.toNat < 0x10000 then c.toNat + 0x110000 else c.toNat

theorem utf16_decides : Decides utf16 (fun c d => unitRank c < unitRank d) where
  lt_iff := by
    intro c d hcd x y
    have hne : c.toNat ≠ d.toNat := fun h => hcd (Char.toNat_inj.1 h)
    have hc := toNat_range c
    have hd := toNat_range d
    unfold utf16 unitRank
    generalize c.toNat = m at *
    generalize d.toNat = n at *
    simp only
    split_ifs <;> simp only [List.cons_append, List.nil_append, List.cons_lt_cons_iff] <;>
      constructor <;> intro h <;> try omega
  ne_nil := by
    intro c
    unfold utf16
    simp only
    split_ifs <;> simp

theorem unitRank_inj {c d : Char} (h : unitRank c = unitRank d) : c = d := by
  have hc := toNat_range c
  have hd := toNat_range d
  refine Char.toNat_inj.1 ?_
  unfold unitRank at h
  split_ifs at h <;> omega

/-- The encodings order two characters differently. -/
def Swapped (c d : Char) : Prop :=
  (0xE000 ≤ c.toNat ∧ c.toNat < 0x10000 ∧ 0x10000 ≤ d.toNat) ∨
    (0xE000 ≤ d.toNat ∧ d.toNat < 0x10000 ∧ 0x10000 ≤ c.toNat)

/-- The encodings order two texts differently: they first differ in swapped characters. -/
def Astray (a b : List Char) : Prop := ∃ p ∈ firstDiff a b, Swapped p.1 p.2

theorem unitRank_lt_iff {c d : Char} (hcd : c ≠ d) :
    (unitRank c < unitRank d ↔ c.toNat < d.toNat) ↔ ¬ Swapped c d := by
  have hne : c.toNat ≠ d.toNat := fun h => hcd (Char.toNat_inj.1 h)
  have hc := toNat_range c
  have hd := toNat_range d
  unfold unitRank Swapped
  split_ifs <;> omega

theorem firstDiff_ne {α : Type*} [DecidableEq α] {a b : List α} {c d : α}
    (h : firstDiff a b = some (c, d)) : c ≠ d := by
  induction a generalizing b with
  | nil => simp [firstDiff] at h
  | cons x a ih =>
    cases b with
    | nil => simp [firstDiff] at h
    | cons y b =>
      simp only [firstDiff] at h
      split at h
      · exact ih h
      · rename_i hxy
        cases h
        exact hxy

theorem firstDiff_eq_none {α : Type*} [DecidableEq α] {a b : List α} (h : firstDiff a b = none)
    (hlen : a.length = b.length) : a = b := by
  induction a generalizing b with
  | nil =>
    rw [List.length_nil] at hlen
    exact (List.length_eq_zero_iff.1 hlen.symm).symm
  | cons x a ih =>
    cases b with
    | nil => simp at hlen
    | cons y b =>
      simp only [firstDiff] at h
      split at h
      · rename_i hxy
        rw [hxy, ih h (by simpa using hlen)]
      · cases h

theorem firstDiff_comm {α : Type*} [DecidableEq α] (a b : List α) :
    firstDiff b a = (firstDiff a b).map Prod.swap := by
  induction a generalizing b with
  | nil => cases b <;> rfl
  | cons x a ih =>
    cases b with
    | nil => rfl
    | cons y b =>
      simp only [firstDiff]
      by_cases hxy : x = y
      · subst hxy
        simpa using ih b
      · simp [hxy, Ne.symm hxy]

theorem utf16_lt_iff_utf8_lt (a b : List Char) :
    (a.flatMap utf16 < b.flatMap utf16 ↔ a.flatMap utf8 < b.flatMap utf8) ↔ ¬ Astray a b := by
  rw [flatMap_lt_iff utf16_decides, flatMap_lt_iff utf8_decides]
  unfold Astray
  cases h : firstDiff a b with
  | none => simp
  | some p =>
    obtain ⟨c, d⟩ := p
    simpa using unitRank_lt_iff (firstDiff_ne h)

theorem eq_of_utf16_not_lt {a b : List Char} (hab : ¬ a.flatMap utf16 < b.flatMap utf16)
    (hba : ¬ b.flatMap utf16 < a.flatMap utf16) : a = b := by
  rw [flatMap_lt_iff utf16_decides] at hab hba
  rw [firstDiff_comm a b] at hba
  cases h : firstDiff a b with
  | none =>
    rw [h] at hab hba
    simp only [Option.map_none, not_lt] at hab hba
    exact firstDiff_eq_none h (le_antisymm hba hab)
  | some p =>
    obtain ⟨c, d⟩ := p
    rw [h] at hab hba
    simp only [Option.map_some, Prod.swap, not_lt] at hab hba
    exact absurd (unitRank_inj (le_antisymm hba hab)) (firstDiff_ne h)

theorem utf8_lt_iff (a b : List Char) : a.flatMap utf8 < b.flatMap utf8 ↔ a < b := by
  rw [flatMap_lt_iff utf8_decides]
  induction a generalizing b with
  | nil => cases b <;> simp [firstDiff]
  | cons c a ih =>
    cases b with
    | nil => simp [firstDiff]
    | cons d b =>
      rw [List.cons_lt_cons_iff]
      by_cases hcd : c = d
      · subst hcd
        simp only [firstDiff, if_true, true_and, ← ih b]
        cases firstDiff a b <;> simp
      · simp only [firstDiff, hcd, if_false, false_and, or_false]
        rfl

end Utf
