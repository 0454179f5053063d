import Mathlib.Data.List.Sort

/-! The stable sort of a list by a comparator, and the element that it puts first. -/
namespace StableSort
open List
variable {α : Type*} (cmp : α → α → Ordering)

def sort (l : List α) : List α := l.insertionSort fun a b => cmp a b ≠ .gt

/-- By the comparator, or by its place in the list where the comparator does not tell. -/
def Before (l : List α) (q p : α) : Prop := cmp q p = .lt ∨ cmp q p = .eq ∧ [q, p] <+ l

instance [DecidableEq α] (l : List α) (q p : α) : Decidable (Before cmp l q p) :=
  inferInstanceAs (Decidable (_ ∨ _))

variable {cmp} {l : List α} {a b p q : α}

@[simp] theorem mem_sort : a ∈ sort cmp l ↔ a ∈ l := mem_insertionSort _

theorem sort_eq_nil : sort cmp l = [] ↔ l = [] := by
  rw [← length_eq_zero_iff, sort, length_insertionSort, length_eq_zero_iff]

theorem head_sort_cons : (sort cmp (a :: l)).head? =
    match (sort cmp l).head? with
    | none => some a
    | some b => if cmp a b ≠ .gt then some a else some b := by
  simp only [sort, insertionSort_cons]
  cases insertionSort (fun a b => cmp a b ≠ .gt) l with
  | nil => rfl
  | cons b rest =>
    by_cases h : cmp a b = .gt
    · simp [h]
    · simp [h]

theorem mem_of_pair_sublist (h : [q, p] <+ l) : q ∈ l ∧ p ∈ l := by
  have hmem := h.subset
  exact ⟨hmem (by simp), hmem (by simp)⟩

theorem not_pair_self (hl : l.Nodup) : ¬ [p, p] <+ l := by
  intro h
  simpa using h.nodup hl

theorem pair_sublist (hp : p ∈ l) (hq : q ∈ l) (hpq : p ≠ q) : [p, q] <+ l ∨ [q, p] <+ l := by
  induction l with
  | nil => simp at hp
  | cons a l ih =>
    obtain rfl | hpl := mem_cons.1 hp
    · obtain rfl | hql := mem_cons.1 hq
      · exact absurd rfl hpq
      · exact .inl ((singleton_sublist.2 hql).cons_cons p)
    · obtain rfl | hql := mem_cons.1 hq
      · exact .inr ((singleton_sublist.2 hpl).cons_cons q)
      · exact (ih hpl hql).imp (·.cons a) (·.cons a)

theorem not_both (hl : l.Nodup) (hpq : p ≠ q) (h : [p, q] <+ l) : ¬ [q, p] <+ l := by
  intro h'
  induction l with
  | nil => simp at h
  | cons a l ih =>
    obtain ⟨ha, hl⟩ := nodup_cons.1 hl
    cases h with
    | cons _ h =>
      cases h' with
      | cons _ h' => exact ih hl h h'
      | cons_cons _ _ => exact ha (mem_of_pair_sublist h).2
    | cons_cons _ h =>
      cases h' with
      | cons _ h' => exact ha (mem_of_pair_sublist h').2
      | cons_cons _ _ => exact hpq rfl

theorem pair_sublist_cons (hqa : q ≠ a) : [q, p] <+ a :: l ↔ [q, p] <+ l := by
  refine ⟨fun h => ?_, (·.cons a)⟩
  cases h with
  | cons _ h => exact h
  | cons_cons _ h => exact absurd rfl hqa

theorem before_filter {f : α → Bool} (hq : f q = true) (hp : f p = true) :
    Before cmp (l.filter f) q p ↔ Before cmp l q p := by
  have hsub : [q, p] <+ l.filter f ↔ [q, p] <+ l := by
    refine ⟨fun h => h.trans filter_sublist, fun h => ?_⟩
    have hf := h.filter f
    simpa [hq, hp] using hf
  rw [Before, Before, hsub]

variable [Std.TransCmp cmp]

theorem not_before_head (hl : l.Nodup) (h : (sort cmp l).head? = some p) :
    p ∈ l ∧ ∀ q ∈ l, ¬ Before cmp l q p := by
  induction l generalizing p with
  | nil => simp [sort] at h
  | cons a l ih =>
    obtain ⟨hal, hnd⟩ := nodup_cons.1 hl
    have hfirst : ∀ q ∈ l, q ≠ a := fun q hq hqa => hal (hqa ▸ hq)
    rw [head_sort_cons] at h
    cases hb : (sort cmp l).head? with
    | none =>
      have hnil : l = [] := sort_eq_nil.1 (head?_eq_none_iff.1 hb)
      simp only [hb, Option.some.injEq] at h
      subst h hnil
      refine ⟨mem_singleton_self a, fun q hq hbefore => ?_⟩
      obtain rfl := mem_singleton.1 hq
      obtain hlt | ⟨-, hsub⟩ := hbefore
      · simp [Std.ReflCmp.compare_self] at hlt
      · simpa using hsub.length_le
    | some b =>
      obtain ⟨hbl, hmin⟩ := ih hnd hb
      simp only [hb] at h
      split_ifs at h with hle
      · obtain rfl := Option.some.inj h
        refine ⟨mem_cons_self, fun q hq hbefore => ?_⟩
        obtain rfl | hq := mem_cons.1 hq
        · obtain hlt | ⟨-, hsub⟩ := hbefore
          · simp [Std.ReflCmp.compare_self] at hlt
          · exact not_pair_self hl hsub
        · obtain hlt | ⟨-, hsub⟩ := hbefore
          · have hqb : cmp q b = .lt := Std.TransCmp.lt_of_lt_of_isLE hlt (Ordering.isLE_iff_ne_gt.2 hle)
            exact hmin q hq (.inl hqb)
          · exact hal (mem_of_pair_sublist ((pair_sublist_cons (hfirst q hq)).1 hsub)).2
      · obtain rfl := Option.some.inj h
        refine ⟨mem_cons_of_mem a hbl, fun q hq hbefore => ?_⟩
        obtain rfl | hq := mem_cons.1 hq
        · obtain hlt | ⟨heq, -⟩ := hbefore
          · exact hle (by simp [hlt])
          · exact hle (by simp [heq])
        · refine hmin q hq (hbefore.imp_right fun hsub => ?_)
          exact ⟨hsub.1, (pair_sublist_cons (hfirst q hq)).1 hsub.2⟩

theorem head_sort_iff (hl : l.Nodup) :
    (sort cmp l).head? = some p ↔ p ∈ l ∧ ∀ q ∈ l, ¬ Before cmp l q p := by
  refine ⟨not_before_head hl, fun ⟨hp, hmin⟩ => ?_⟩
  cases h : (sort cmp l).head? with
  | none =>
    have hnil : l = [] := sort_eq_nil.1 (head?_eq_none_iff.1 h)
    simp [hnil] at hp
  | some b =>
    obtain ⟨hb, hminb⟩ := not_before_head hl h
    by_cases hne : b = p
    · rw [hne]
    have hlt : cmp b p ≠ .lt := fun hlt => hmin b hb (.inl hlt)
    have hgt : cmp b p ≠ .gt := fun hgt => hminb p hp (.inl (Std.OrientedCmp.lt_of_gt hgt))
    have heq : cmp b p = .eq := by cases hc : cmp b p <;> simp_all
    obtain hsub | hsub := pair_sublist hb hp hne
    · exact absurd (.inr ⟨heq, hsub⟩) (hmin b hb)
    · exact absurd (.inr ⟨Std.OrientedCmp.eq_symm heq, hsub⟩) (hminb p hp)

theorem head_sort_filter_iff {f : α → Bool} (hl : l.Nodup) :
    (sort cmp (l.filter f)).head? = some p ↔
      p ∈ l ∧ f p = true ∧ ∀ q ∈ l, f q = true → ¬ Before cmp l q p := by
  rw [head_sort_iff (hl.filter f)]
  simp only [mem_filter, and_assoc]
  refine and_congr_right fun _ => and_congr_right fun hp => forall_congr' fun q => ?_
  constructor
  · intro h hq hf
    rw [← before_filter hf hp]
    exact h ⟨hq, hf⟩
  · rintro h ⟨hq, hf⟩
    rw [before_filter hf hp]
    exact h hq hf

section Host
omit [Std.TransCmp cmp]

structure Consistent (cmp : α → α → Ordering) (l : List α) : Prop where
  swap : ∀ a ∈ l, ∀ b ∈ l, cmp b a = (cmp a b).swap
  trans : ∀ a ∈ l, ∀ b ∈ l, ∀ c ∈ l, cmp a b ≠ .gt → cmp b c ≠ .gt → cmp a c ≠ .gt

theorem Consistent.total (h : Consistent cmp l) (ha : a ∈ l) (hb : b ∈ l) :
    cmp a b ≠ .gt ∨ cmp b a ≠ .gt := by
  rw [h.swap a ha b hb]
  cases cmp a b <;> simp

theorem consistent_of_trans [Std.TransCmp cmp] (l : List α) : Consistent cmp l where
  swap _ _ _ _ := Std.OrientedCmp.eq_swap
  trans _ _ _ _ _ _ hab hbc := Ordering.ne_gt_iff_isLE.2
    (Std.TransCmp.isLE_trans (Ordering.ne_gt_iff_isLE.1 hab) (Ordering.ne_gt_iff_isLE.1 hbc))

theorem sort_eq_map_attach (cmp : α → α → Ordering) (l : List α) :
    sort cmp l = (sort (fun a b : {x // x ∈ l} => cmp a.1 b.1) l.attach).map (·.1) := by
  have hmap := map_insertionSort (fun a b : {x // x ∈ l} => cmp a.1 b.1 ≠ .gt)
    (fun a b => cmp a b ≠ .gt) Subtype.val l.attach (fun _ _ _ _ => Iff.rfl)
  rw [attach_map_subtype_val] at hmap
  exact hmap.symm

theorem sort_perm (cmp : α → α → Ordering) (l : List α) : (sort cmp l).Perm l := perm_insertionSort _ l

theorem sort_pairwise (h : Consistent cmp l) : (sort cmp l).Pairwise fun a b => cmp a b ≠ .gt := by
  let r : {x // x ∈ l} → {x // x ∈ l} → Prop := fun a b => cmp a.1 b.1 ≠ .gt
  have htotal : Std.Total r := ⟨fun a b => h.total a.2 b.2⟩
  have htrans : IsTrans _ r := ⟨fun a b c => h.trans a.1 a.2 b.1 b.2 c.1 c.2⟩
  rw [sort_eq_map_attach, pairwise_map]
  exact pairwise_insertionSort r l.attach

theorem pair_sublist_sort (hab : cmp a b = .eq) (h : [a, b] <+ l) : [a, b] <+ sort cmp l :=
  pair_sublist_insertionSort (by simp [hab]) h

/-- A `sort` that is sorted and stable wherever its comparator is consistent; elsewhere the order
is its own. -/
structure Sorter where
  apply : ∀ {α : Type}, (α → α → Ordering) → List α → List α
  perm : ∀ {α : Type} (cmp : α → α → Ordering) (l : List α), (apply cmp l).Perm l
  sorted : ∀ {α : Type} {cmp : α → α → Ordering} {l : List α}, Consistent cmp l →
    (apply cmp l).Pairwise fun a b => cmp a b ≠ .gt
  stable : ∀ {α : Type} {cmp : α → α → Ordering} {l : List α} {a b : α}, Consistent cmp l →
    cmp a b = .eq → [a, b] <+ l → [a, b] <+ apply cmp l

def insertionSorter : Sorter where
  apply := sort
  perm := sort_perm
  sorted := sort_pairwise
  stable _ := pair_sublist_sort

open Classical in
/-- Leaves a list as it is when its comparator is not consistent. -/
noncomputable def lazySorter : Sorter where
  apply cmp l := if Consistent cmp l then sort cmp l else l
  perm cmp l := by
    split_ifs
    · exact sort_perm cmp l
    · exact .refl l
  sorted h := by
    rw [if_pos h]
    exact sort_pairwise h
  stable h hab hsub := by
    rw [if_pos h]
    exact pair_sublist_sort hab hsub

theorem Consistent.perm {l' : List α} (h : Consistent cmp l) (hp : l'.Perm l) : Consistent cmp l' where
  swap a ha b hb := h.swap a (hp.subset ha) b (hp.subset hb)
  trans a ha b hb c hc := h.trans a (hp.subset ha) b (hp.subset hb) c (hp.subset hc)

theorem Consistent.map {β γ : Type*} {cmp : β → β → Ordering} {cmp' : γ → γ → Ordering} {f : α → β} {g : α → γ}
    {l : List α} (h : Consistent cmp (l.map f))
    (hcmp : ∀ a ∈ l, ∀ b ∈ l, cmp' (g a) (g b) = cmp (f a) (f b)) : Consistent cmp' (l.map g) where
  swap := by
    have hswap := h.swap
    simp only [forall_mem_map] at hswap ⊢
    intro a ha b hb
    rw [hcmp a ha b hb, hcmp b hb a ha]
    exact hswap a ha b hb
  trans := by
    have htrans := h.trans
    simp only [forall_mem_map] at htrans ⊢
    intro a ha b hb c hc
    rw [hcmp a ha b hb, hcmp b hb c hc, hcmp a ha c hc]
    exact htrans a ha b hb c hc

variable {α : Type} {cmp : α → α → Ordering} {l l' : List α}

theorem pairwise_before (hn : l.Nodup) (h : Consistent cmp l) {m : List α} (hp : m.Perm l)
    (hm : m.Pairwise fun a b => cmp a b ≠ .gt)
    (hstable : ∀ a b, cmp a b = .eq → [a, b] <+ l → [a, b] <+ m) : m.Pairwise (Before cmp l) := by
  have hmn : m.Nodup := hp.nodup_iff.2 hn
  rw [pairwise_iff_forall_sublist] at hm ⊢
  intro a b hsub
  have hab := mem_of_pair_sublist hsub
  have hne : a ≠ b := by
    rintro rfl
    exact not_pair_self hmn hsub
  cases hc : cmp a b with
  | lt => exact .inl hc
  | gt => exact absurd hc (hm hsub)
  | eq =>
    obtain hl | hl := pair_sublist (hp.subset hab.1) (hp.subset hab.2) hne
    · exact .inr ⟨hc, hl⟩
    · have hba : cmp b a = .eq := by
        rw [h.swap a (hp.subset hab.1) b (hp.subset hab.2), hc]
        rfl
      exact absurd (hstable b a hba hl) (not_both hmn hne hsub)

theorem eq_of_pairwise_before (hn : l.Nodup) (h : Consistent cmp l) {m m' : List α} (hp : m.Perm l)
    (hp' : m'.Perm l) (hm : m.Pairwise (Before cmp l)) (hm' : m'.Pairwise (Before cmp l)) : m = m' := by
  refine (hp.trans hp'.symm).eq_of_pairwise (fun a b ha hb hab hba => ?_) hm hm'
  by_contra hne
  have hswap := h.swap a (hp.subset ha) b (hp'.subset hb)
  obtain hlt | ⟨heq, hsub⟩ := hab <;> obtain hlt' | ⟨heq', hsub'⟩ := hba
  · simp [hlt, hlt'] at hswap
  · simp [hlt, heq'] at hswap
  · simp [heq, hlt'] at hswap
  · exact not_both hn hne hsub hsub'

variable (sorter : Sorter)

theorem Sorter.apply_eq (hn : l.Nodup) (h : Consistent cmp l) {m : List α} (hp : m.Perm l)
    (hm : m.Pairwise fun a b => cmp a b ≠ .gt)
    (hstable : ∀ a b, cmp a b = .eq → [a, b] <+ l → [a, b] <+ m) : sorter.apply cmp l = m :=
  eq_of_pairwise_before hn h (sorter.perm cmp l) hp
    (pairwise_before hn h (sorter.perm cmp l) (sorter.sorted h) fun _ _ => sorter.stable h)
    (pairwise_before hn h hp hm hstable)

theorem Sorter.apply_eq_of_strict (hn : l.Nodup) (h : Consistent cmp l)
    (hstrict : ∀ a ∈ l, ∀ b ∈ l, a ≠ b → cmp a b ≠ .eq) {m : List α} (hp : m.Perm l)
    (hm : m.Pairwise fun a b => cmp a b ≠ .gt) : sorter.apply cmp l = m := by
  refine sorter.apply_eq hn h hp hm fun a b heq hsub => ?_
  have hab := mem_of_pair_sublist hsub
  have hne : a ≠ b := by
    rintro rfl
    exact not_pair_self hn hsub
  exact absurd heq (hstrict a hab.1 b hab.2 hne)

theorem Sorter.apply_eq_finer_iff {fine : α → α → Ordering} (hn : l.Nodup) (h : Consistent cmp l)
    (hfine : Consistent fine l) (hsame : ∀ a b, cmp a b ≠ .eq → fine a b = cmp a b) :
    sorter.apply cmp l = sorter.apply fine l ↔ ∀ a b, [a, b] <+ l → cmp a b = .eq → fine a b ≠ .gt := by
  constructor
  · intro heq a b hsub hab
    have hsub' := sorter.stable h hab hsub
    rw [heq] at hsub'
    exact pairwise_iff_forall_sublist.1 (sorter.sorted hfine) hsub'
  · intro hties
    refine (sorter.apply_eq hn hfine (sorter.perm cmp l) ?_ ?_).symm
    · have hbefore := pairwise_before hn h (sorter.perm cmp l) (sorter.sorted h) fun _ _ => sorter.stable h
      refine hbefore.imp fun {a b} hab => ?_
      obtain hlt | ⟨heq, hsub⟩ := hab
      · rw [hsame a b (by simp [hlt]), hlt]
        simp
      · exact hties a b hsub heq
    · intro a b heq hsub
      refine sorter.stable h ?_ hsub
      by_contra hne
      exact hne ((hsame a b hne).symm.trans heq)

theorem Sorter.apply_eq_of_perm (h : Consistent cmp l)
    (hstrict : ∀ a ∈ l, ∀ b ∈ l, a ≠ b → cmp a b ≠ .eq) (hp : l'.Perm l) :
    sorter.apply cmp l' = sorter.apply cmp l := by
  have hmem : ∀ a, a ∈ sorter.apply cmp l' → a ∈ l := fun a ha => hp.subset ((sorter.perm cmp l').subset ha)
  have hperm : (sorter.apply cmp l').Perm (sorter.apply cmp l) :=
    ((sorter.perm cmp l').trans hp).trans (sorter.perm cmp l).symm
  refine hperm.eq_of_pairwise (fun a b ha hb hab hba => ?_) (sorter.sorted (h.perm hp)) (sorter.sorted h)
  by_contra hne
  have hbl := (sorter.perm cmp l).subset hb
  rw [h.swap a (hmem a ha) b hbl] at hba
  cases hc : cmp a b <;> simp_all

theorem exists_sorter_ne (hn : l.Nodup) (hswap : ∀ a ∈ l, ∀ b ∈ l, cmp b a = (cmp a b).swap)
    (hloose : ¬ Consistent cmp l ∨ ∃ a ∈ l, ∃ b ∈ l, a ≠ b ∧ cmp a b = .eq) :
    ∃ sorter : Sorter, sorter.apply cmp l ≠ sorter.apply cmp l.reverse := by
  refine ⟨lazySorter, fun heq => ?_⟩
  have hrev : Consistent cmp l.reverse ↔ Consistent cmp l :=
    ⟨fun h => h.perm l.reverse_perm.symm, fun h => h.perm l.reverse_perm⟩
  by_cases h : Consistent cmp l
  · obtain hnot | ⟨a, ha, b, hb, hne, hab⟩ := hloose
    · exact hnot h
    have hba : cmp b a = .eq := by rw [h.swap a ha b hb, hab]; rfl
    -- the two come in one order in the list and in the other in its reverse
    have key : ∀ a b, a ≠ b → cmp a b = .eq → cmp b a = .eq → [a, b] <+ l → False := by
      intro a b hne hab hba hsub
      have hfirst := lazySorter.stable h hab hsub
      have hrevsub : [b, a] <+ l.reverse := by simpa using hsub.reverse
      have hsecond := lazySorter.stable (hrev.2 h) hba hrevsub
      rw [← heq] at hsecond
      have hnd : (lazySorter.apply cmp l).Nodup := (lazySorter.perm cmp l).nodup_iff.2 hn
      exact not_both hnd hne hfirst hsecond
    obtain hsub | hsub := pair_sublist ha hb hne
    · exact key a b hne hab hba hsub
    · exact key b a hne.symm hba hab hsub
  · have hsame : l = l.reverse := by simpa [lazySorter, h, hrev] using heq
    match l, h, hn, hsame, hswap with
    | [], h, _, _, _ => exact h ⟨by simp, by simp⟩
    | [a], h, _, _, hswap => exact h ⟨hswap, by simp⟩
    | a :: b :: rest, _, hn, hsame, _ =>
      have hab : [a, b] <+ a :: b :: rest := ((nil_sublist rest).cons_cons b).cons_cons a
      have hba : [b, a] <+ (a :: b :: rest).reverse := by simp
      have hne : a ≠ b := by
        rintro rfl
        simp at hn
      exact not_both hn hne hab (hsame ▸ hba)

end Host

end StableSort
