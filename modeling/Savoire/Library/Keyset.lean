import Mathlib.Data.List.Sort

/-! A table read page by page in the order of its rows, each page from after the last row of the one
before, while other rows come and go. -/
namespace Keyset
variable {α : Type*} [LinearOrder α]

/-- The rows after `last`, in order. -/
def rest (last : Option α) (xs : List α) : List α :=
  (xs.filter fun x => last.all fun l => decide (l < x)).insertionSort (· ≤ ·)

@[simp] theorem mem_rest {last : Option α} {xs : List α} {x : α} :
    x ∈ rest last xs ↔ x ∈ xs ∧ ∀ l ∈ last, l < x := by
  rw [rest, List.mem_insertionSort, List.mem_filter]
  cases last <;> simp

theorem rest_sorted (last : Option α) {xs : List α} (h : xs.Nodup) :
    (rest last xs).Pairwise (· < ·) := by
  have hle : (rest last xs).Pairwise (· ≤ ·) := List.pairwise_insertionSort (· ≤ ·) _
  have hnodup : (rest last xs).Nodup :=
    (List.perm_insertionSort (· ≤ ·) _).nodup_iff.2 (h.filter _)
  exact (hle.and hnodup).imp fun hab => lt_of_le_of_ne hab.1 hab.2

theorem eq_of_sorted {xs ys : List α} (hx : xs.Pairwise (· < ·)) (hy : ys.Pairwise (· < ·))
    (h : ∀ x, x ∈ xs ↔ x ∈ ys) : xs = ys := by
  have hperm : xs.Perm ys := (List.perm_ext_iff_of_nodup (hx.imp ne_of_lt) (hy.imp ne_of_lt)).2 h
  exact hperm.eq_of_pairwise (fun a b _ _ hab hba => absurd hab (lt_asymm hba)) hx hy

/-- The last row of `a`, or `last` when `a` is empty. -/
def after (last : Option α) (a : List α) : Option α := a.getLast?.or last

theorem le_getLast {a : List α} (ha : a.Pairwise (· < ·)) {x l : α} (hx : x ∈ a)
    (hl : a.getLast? = some l) : x ≤ l := by
  obtain ⟨init, rfl⟩ := List.getLast?_eq_some_iff.1 hl
  obtain hx | hx := List.mem_append.1 hx
  · exact (List.pairwise_append.1 ha).2.2 x hx l (List.mem_singleton_self l) |>.le
  · rw [List.mem_singleton.1 hx]

theorem rest_after {last : Option α} {xs a b : List α} (hxs : xs.Nodup) (h : rest last xs = a ++ b) :
    rest (after last a) xs = b := by
  have hsorted := rest_sorted last hxs
  rw [h] at hsorted
  obtain ⟨ha, hb, hab⟩ := List.pairwise_append.1 hsorted
  refine eq_of_sorted (rest_sorted _ hxs) hb fun x => ?_
  have hmem : x ∈ a ∨ x ∈ b ↔ x ∈ xs ∧ ∀ l ∈ last, l < x := by rw [← List.mem_append, ← h, mem_rest]
  rw [mem_rest]
  cases hl : a.getLast? with
  | none =>
    obtain rfl := List.getLast?_eq_none_iff.1 hl
    simpa [after] using hmem.symm
  | some l =>
    have hla : l ∈ a := List.mem_of_getLast? hl
    have hafter : after last a = some l := by rw [after, hl]; rfl
    have hlast : ∀ m ∈ last, m < l := (mem_rest.1 (h ▸ List.mem_append_left b hla)).2
    rw [hafter]
    constructor
    · intro ⟨hx, hlx⟩
      have hlx : l < x := hlx l rfl
      obtain hxa | hxb := hmem.2 ⟨hx, fun m hm => (hlast m hm).trans hlx⟩
      · exact absurd hlx (not_lt.2 (le_getLast ha hxa hl))
      · exact hxb
    · intro hxb
      refine ⟨(hmem.1 (.inr hxb)).1, fun m hm => ?_⟩
      obtain rfl := Option.some.inj hm
      exact hab l hla x hxb

/-- What has been delivered, in order, holds every row of `kept` up to its last one. -/
structure Inv (kept delivered : List α) : Prop where
  sorted : delivered.Pairwise (· < ·)
  complete : ∀ x ∈ kept, ∀ l ∈ delivered.getLast?, x ≤ l → x ∈ delivered

theorem Inv.start (kept : List α) : Inv kept [] where
  sorted := .nil
  complete := by simp

theorem Inv.shrink {kept kept' delivered : List α} (h : Inv kept delivered) (hsub : kept' ⊆ kept) :
    Inv kept' delivered where
  sorted := h.sorted
  complete x hx := h.complete x (hsub hx)

variable {kept delivered xs : List α}

section
variable (h : Inv kept delivered)
include h

theorem Inv.delivered_or_rest (hsub : kept ⊆ xs) {x : α} (hx : x ∈ kept) :
    x ∈ delivered ∨ x ∈ rest delivered.getLast? xs := by
  by_cases hle : ∃ l ∈ delivered.getLast?, x ≤ l
  · obtain ⟨l, hl, hle⟩ := hle
    exact .inl (h.complete x hx l hl hle)
  · refine .inr (mem_rest.2 ⟨hsub hx, fun l hl => ?_⟩)
    exact not_le.1 fun hxl => hle ⟨l, hl, hxl⟩

theorem Inv.lt_rest {x y : α} (hx : x ∈ delivered)
    (hy : y ∈ rest delivered.getLast? xs) : x < y := by
  obtain ⟨-, hlast⟩ := mem_rest.1 hy
  cases hl : delivered.getLast? with
  | none =>
    rw [List.getLast?_eq_none_iff.1 hl] at hx
    cases hx
  | some l => exact (le_getLast h.sorted hx hl).trans_lt (hlast l hl)

theorem Inv.sorted_page (hxs : xs.Nodup) (n : Nat) :
    (delivered ++ (rest delivered.getLast? xs).take n).Pairwise (· < ·) :=
  List.pairwise_append.2 ⟨h.sorted, (rest_sorted _ hxs).sublist (List.take_sublist n _),
    fun _ hx _ hy => h.lt_rest hx (List.mem_of_mem_take hy)⟩

theorem Inv.page (hxs : xs.Nodup) (hsub : kept ⊆ xs) (n : Nat) :
    Inv kept (delivered ++ (rest delivered.getLast? xs).take n) where
  sorted := h.sorted_page hxs n
  complete x hx l hl hle := by
    obtain hd | hr := h.delivered_or_rest hsub hx
    · exact List.mem_append_left _ hd
    · refine List.mem_append_right _ ?_
      rw [← List.take_append_drop n (rest delivered.getLast? xs)] at hr
      obtain hr | hr := List.mem_append.1 hr
      · exact hr
      · -- what is not on the page comes after it, and `x` does not
        have hsorted := rest_sorted delivered.getLast? hxs
        rw [← List.take_append_drop n (rest delivered.getLast? xs)] at hsorted
        have hlt : l < x := by
          obtain hlp | hld := List.mem_append.1 (List.mem_of_getLast? hl)
          · exact h.lt_rest hlp (List.mem_of_mem_drop hr)
          · exact (List.pairwise_append.1 hsorted).2.2 l hld x hr
        exact absurd hle (not_le.2 hlt)

theorem Inv.finished (hsub : kept ⊆ xs) {n : Nat}
    (hn : (rest delivered.getLast? xs).length ≤ n) :
    kept ⊆ delivered ++ (rest delivered.getLast? xs).take n := by
  intro x hx
  rw [List.take_of_length_le hn]
  exact List.mem_append.2 (h.delivered_or_rest hsub hx)

end

end Keyset
