import Mathlib
import Savoire.Library.KeyedMap
import Savoire.Library.Keyset
import Savoire.Library.Paging

/-! Pages of several sources merged into one page. The merge stops where a source has no more in its
page and more after it; what it leaves is the cursor of each page that is not finished, with the
number of its elements that were taken. -/
namespace PagedMerge
open Paging (Source)
variable {α γ σ : Type*}

/-- A cursor, and how many elements of its page were taken. -/
structure Part (γ : Type*) where
  c : Option γ
  s : ℕ
  deriving DecidableEq

structure Page (σ γ α : Type*) where
  source : σ
  part : Part γ
  hits : List α
  next : Option γ

structure Reading (σ γ α : Type*) where
  page : Page σ γ α
  pos : ℕ

def Reading.head (r : Reading σ γ α) : Option α := r.page.hits[r.pos]?

def Reading.exhausted (r : Reading σ γ α) : Bool := decide (r.page.hits.length ≤ r.pos)

def Reading.advance (r : Reading σ γ α) : Reading σ γ α := { r with pos := r.pos + 1 }

/-- A page is finished, and its source has more. -/
def blocked (rs : List (Reading σ γ α)) : Bool := rs.any fun r => r.exhausted && r.page.next.isSome

def better (lt : α → α → Bool) (i : ℕ) (head : Option α) (best : Option (ℕ × α)) : Option (ℕ × α) :=
  match head, best with
  | none, best => best
  | some a, none => some (i, a)
  | some a, some (j, b) => if lt a b then some (i, a) else some (j, b)

/-- The best head, with its index; `best` is the best of the readings before. -/
def pick (lt : α → α → Bool) : ℕ → Option (ℕ × α) → List (Reading σ γ α) → Option (ℕ × α)
  | _, best, [] => best
  | i, best, r :: rest => pick lt (i + 1) (better lt i r.head best) rest

/-- `count` elements at most. -/
def loop (lt : α → α → Bool) : ℕ → List (Reading σ γ α) → List α × List (Reading σ γ α)
  | 0, rs => ([], rs)
  | count+1, rs =>
    if blocked rs then ([], rs)
    else
      match pick lt 0 none rs with
      | none => ([], rs)
      | some (i, a) =>
        let r := loop lt count (rs.modify i Reading.advance)
        (a :: r.1, r.2)

/-- What is left of a page: its cursor with the elements taken, or the cursor after it. -/
def remainder (r : Reading σ γ α) : Option (σ × Part γ) :=
  if r.pos < r.page.hits.length then some (r.page.source, ⟨r.page.part.c, r.pos⟩)
  else r.page.next.map fun c => (r.page.source, ⟨some c, 0⟩)

def readings (pages : List (Page σ γ α)) : List (Reading σ γ α) :=
  pages.map fun p => ⟨p, min p.part.s p.hits.length⟩

def merge [DecidableEq σ] (lt : α → α → Bool) (pages : List (Page σ γ α)) (limit : ℕ) : List α × KeyedMap σ (Part γ) :=
  let r := loop lt limit (readings pages)
  (r.1, KeyedMap.ofList Prod.fst Prod.snd (r.2.filterMap remainder))

section Pick
variable [LinearOrder α] {lt : α → α → Bool} {owner : α → σ} {rs : List (Reading σ γ α)} {best : Option (ℕ × α)} {i : ℕ}

theorem better_spec {head : Option α} (hlt : ∀ a ∈ head, ∀ p ∈ best, lt a p.2 = true ↔ a < p.2) :
    (better lt i head best = none → head = none ∧ best = none) ∧
      ∀ p ∈ better lt i head best, (p ∈ best ∨ (p.1 = i ∧ p.2 ∈ head)) ∧ (∀ a ∈ head, p.2 ≤ a) ∧ ∀ q ∈ best, p.2 ≤ q.2 := by
  cases head with
  | none => cases best <;> simp [better]
  | some a =>
    cases best with
    | none => simp [better]
    | some q =>
      have ha : lt a q.2 = true ↔ a < q.2 := hlt a rfl q rfl
      by_cases hless : a < q.2
      · simp [better, ha.2 hless, hless.le]
      · simp [better, mt ha.1 hless, not_lt.1 hless]

theorem pick_spec (hlt : ∀ a b, owner a ≠ owner b → (lt a b = true ↔ a < b))
    (hown : ∀ r ∈ rs, ∀ a ∈ r.head, owner a = r.page.source) (hnodup : (rs.map (·.page.source)).Nodup)
    (hbest : ∀ p ∈ best, owner p.2 ∉ rs.map (·.page.source)) :
    (pick lt i best rs = none → best = none ∧ ∀ r ∈ rs, r.head = none) ∧
      ∀ p ∈ pick lt i best rs, (p ∈ best ∨ ∃ l r l', rs = l ++ r :: l' ∧ p.1 = i + l.length ∧ r.head = some p.2) ∧
        (∀ q ∈ best, p.2 ≤ q.2) ∧ ∀ r ∈ rs, ∀ a ∈ r.head, p.2 ≤ a := by
  induction rs generalizing i best with
  | nil =>
    refine ⟨fun h => ⟨h, fun r hr => absurd hr List.not_mem_nil⟩, fun p hp => ⟨.inl hp, fun q hq => ?_, ?_⟩⟩
    · rw [Option.mem_unique hp hq]
    · exact fun r hr => absurd hr List.not_mem_nil
  | cons r rs ih =>
    obtain ⟨hr, hrest⟩ := List.nodup_cons.1 hnodup
    have hhead : ∀ a ∈ r.head, owner a = r.page.source := hown r List.mem_cons_self
    have hnone : ∀ a ∈ r.head, ∀ p ∈ best, lt a p.2 = true ↔ a < p.2 := by
      intro a ha p hp
      refine hlt a p.2 fun heq => hbest p hp ?_
      rw [← heq, hhead a ha]
      exact List.mem_cons_self
    obtain ⟨hempty, hbetter⟩ := better_spec (i := i) hnone
    have hnew : ∀ p ∈ better lt i r.head best, owner p.2 ∉ rs.map (·.page.source) := by
      intro p hp
      obtain ⟨hp | ⟨-, hp⟩, -⟩ := hbetter p hp
      · exact fun hmem => hbest p hp (List.mem_cons_of_mem _ hmem)
      · rwa [hhead p.2 hp]
    obtain ⟨hall, hpick⟩ := ih (fun r' hr' => hown r' (List.mem_cons_of_mem r hr')) hrest hnew
    refine ⟨fun h => ?_, fun p hp => ?_⟩
    · obtain ⟨hbest', hheads⟩ := hall h
      obtain ⟨hrnone, hbnone⟩ := hempty hbest'
      exact ⟨hbnone, List.forall_mem_cons.2 ⟨hrnone, hheads⟩⟩
    · obtain ⟨hplace, hle, hheads⟩ := hpick p hp
      have hle' : (∀ a ∈ r.head, p.2 ≤ a) ∧ ∀ q ∈ best, p.2 ≤ q.2 := by
        obtain hp' | ⟨b, hb⟩ := Option.eq_none_or_eq_some (better lt i r.head best)
        · obtain ⟨hrnone, hbnone⟩ := hempty hp'
          simp [hrnone, hbnone]
        · obtain ⟨-, hleft, hright⟩ := hbetter b hb
          exact ⟨fun a ha => (hle b hb).trans (hleft a ha), fun q hq => (hle b hb).trans (hright q hq)⟩
      refine ⟨?_, hle'.2, List.forall_mem_cons.2 ⟨hle'.1, hheads⟩⟩
      obtain hp' | ⟨l, r', l', rfl, hi, hr'⟩ := hplace
      · obtain ⟨hp' | ⟨hi, ha⟩, -⟩ := hbetter p hp'
        · exact .inl hp'
        · exact .inr ⟨[], r, rs, rfl, by simpa using hi, ha⟩
      · exact .inr ⟨r :: l, r', l', rfl, by rw [hi, List.length_cons]; omega, hr'⟩

end Pick

section Loop
variable {lt : α → α → Bool} {owner : α → σ} {after : σ → γ → List α} {rs l l' : List (Reading σ γ α)}
  {r : Reading σ γ α} {a : α}

def Reading.full (after : σ → γ → List α) (r : Reading σ γ α) : List α :=
  r.page.hits.drop r.pos ++ r.page.next.elim [] (after r.page.source)

def total (after : σ → γ → List α) (rs : List (Reading σ γ α)) : List α := rs.flatMap (Reading.full after)

theorem full_of_head (h : r.head = some a) : r.full after = a :: r.advance.full after := by
  obtain ⟨hpos, ha⟩ := List.getElem?_eq_some_iff.1 h
  rw [Reading.full, List.drop_eq_getElem_cons hpos, ha]
  rfl

theorem full_of_exhausted (h : r.head = none) : r.full after = r.page.next.elim [] (after r.page.source) := by
  have hpos : r.page.hits.length ≤ r.pos := List.getElem?_eq_none_iff.1 h
  rw [Reading.full, List.drop_of_length_le hpos]
  rfl

theorem exhausted_iff : r.exhausted = true ↔ r.head = none := by
  rw [Reading.exhausted, decide_eq_true_iff, Reading.head, List.getElem?_eq_none_iff]

theorem modify_advance : (l ++ r :: l').modify l.length Reading.advance = l ++ r.advance :: l' := by
  induction l with
  | nil => rfl
  | cons x l ih => rw [List.cons_append, List.length_cons, List.modify_succ_cons, ih, List.cons_append]

theorem total_advance (ha : r.head = some a) :
    (total after (l ++ r :: l')).Perm (a :: total after (l ++ r.advance :: l')) := by
  have hfull : r.full after = a :: r.advance.full after := full_of_head ha
  simp only [total, List.flatMap_append, List.flatMap_cons, hfull, List.cons_append]
  exact List.perm_middle

variable [LinearOrder α]

structure Sound (owner : α → σ) (after : σ → γ → List α) (rs : List (Reading σ γ α)) : Prop where
  sorted : ∀ r ∈ rs, (r.full after).Pairwise (· < ·)
  own : ∀ r ∈ rs, ∀ a ∈ r.full after, owner a = r.page.source
  names : (rs.map (·.page.source)).Nodup

theorem Sound.head (h : Sound owner after rs) (hr : r ∈ rs) (ha : r.head = some a) : owner a = r.page.source :=
  h.own r hr a (by rw [full_of_head ha]; exact List.mem_cons_self)

theorem Sound.advance (h : Sound owner after (l ++ r :: l')) (ha : r.head = some a) :
    Sound owner after (l ++ r.advance :: l') := by
  have hfull : r.full after = a :: r.advance.full after := full_of_head ha
  have hcases : ∀ x ∈ l ++ r.advance :: l', x = r.advance ∨ x ∈ l ++ r :: l' := by
    intro x hx
    obtain hx | hx := List.mem_append.1 hx
    · exact .inr (List.mem_append_left _ hx)
    · obtain rfl | hx := List.mem_cons.1 hx
      · exact .inl rfl
      · exact .inr (List.mem_append_right _ (List.mem_cons_of_mem r hx))
  have hr : r ∈ l ++ r :: l' := by simp
  refine ⟨fun x hx => ?_, fun x hx b hb => ?_, ?_⟩
  · obtain rfl | hx := hcases x hx
    · have hsorted := h.sorted r hr
      rw [hfull] at hsorted
      exact (List.pairwise_cons.1 hsorted).2
    · exact h.sorted x hx
  · obtain rfl | hx := hcases x hx
    · exact h.own r hr b (by rw [hfull]; exact List.mem_cons_of_mem a hb)
    · exact h.own x hx b hb
  · simpa [Reading.advance] using h.names

theorem Sound.least (h : Sound owner after (l ++ r :: l')) (hblocked : blocked (l ++ r :: l') = false)
    (ha : r.head = some a) (hle : ∀ x ∈ l ++ r :: l', ∀ b ∈ x.head, a ≤ b) :
    ∀ b ∈ total after (l ++ r.advance :: l'), a < b := by
  have hr : r ∈ l ++ r :: l' := by simp
  have hother : ∀ x ∈ l ++ r :: l', x.page.source ≠ r.page.source → ∀ b ∈ x.full after, a < b := by
    intro x hx hne b hb
    have hdiff : a ≠ b := by
      rintro rfl
      exact hne ((h.own x hx a hb).symm.trans (h.head hr ha))
    cases hhead : x.head with
    | none =>
      -- its source has nothing more
      rw [blocked, List.any_eq_false] at hblocked
      have hnext : x.page.next = none := by simpa [exhausted_iff.2 hhead] using hblocked x hx
      rw [full_of_exhausted hhead, hnext] at hb
      cases hb
    | some c =>
      have hc : a ≤ c := hle x hx c hhead
      have hsorted := h.sorted x hx
      rw [full_of_head hhead] at hb hsorted
      obtain rfl | hb := List.mem_cons.1 hb
      · exact lt_of_le_of_ne hc hdiff
      · exact lt_of_le_of_lt hc ((List.pairwise_cons.1 hsorted).1 b hb)
  intro b hb
  obtain ⟨x, hx, hb⟩ := List.mem_flatMap.1 hb
  have hnames := h.names
  rw [List.map_append, List.map_cons, List.nodup_middle, List.nodup_cons] at hnames
  obtain hx | hx := List.mem_append.1 hx
  · refine hother x (List.mem_append_left _ hx) (fun heq => hnames.1 ?_) b hb
    rw [← heq]
    exact List.mem_append_left _ (List.mem_map_of_mem hx)
  · obtain rfl | hx := List.mem_cons.1 hx
    · have hsorted := h.sorted r hr
      rw [full_of_head ha] at hsorted
      exact (List.pairwise_cons.1 hsorted).1 b hb
    · refine hother x (List.mem_append_right _ (List.mem_cons_of_mem r hx)) (fun heq => hnames.1 ?_) b hb
      rw [← heq]
      exact List.mem_append_right _ (List.mem_map_of_mem hx)

structure Merged (owner : α → σ) (after : σ → γ → List α) (count : ℕ) (rs : List (Reading σ γ α)) (out : List α)
    (rs' : List (Reading σ γ α)) : Prop where
  pages : rs'.map (·.page) = rs.map (·.page)
  sound : Sound owner after rs'
  perm : (out ++ total after rs').Perm (total after rs)
  sorted : out.Pairwise (· < ·)
  before : ∀ a ∈ out, ∀ b ∈ total after rs', a < b
  stuck : out = [] → count = 0 ∨ rs' = rs ∧ (blocked rs = true ∨ ∀ r ∈ rs, r.head = none)

theorem loop_spec (hlt : ∀ a b, owner a ≠ owner b → (lt a b = true ↔ a < b)) (h : Sound owner after rs) (count : ℕ) :
    Merged owner after count rs (loop lt count rs).1 (loop lt count rs).2 := by
  induction count generalizing rs with
  | zero =>
    exact ⟨rfl, h, List.Perm.refl _, .nil, fun a ha => absurd ha List.not_mem_nil, fun _ => .inl rfl⟩
  | succ count ih =>
    have hstop : (blocked rs = true ∨ ∀ r ∈ rs, r.head = none) → Merged owner after (count + 1) rs [] rs := fun hwhy =>
      ⟨rfl, h, List.Perm.refl _, .nil, fun a ha => absurd ha List.not_mem_nil, fun _ => .inr ⟨rfl, hwhy⟩⟩
    rw [loop]
    split
    · rename_i hblocked
      exact hstop (.inl hblocked)
    · rename_i hblocked
      rw [Bool.not_eq_true] at hblocked
      have hheads : ∀ r ∈ rs, ∀ a ∈ r.head, owner a = r.page.source := fun r hr a ha => h.head hr ha
      have hbest : ∀ p ∈ (none : Option (ℕ × α)), owner p.2 ∉ rs.map (·.page.source) := fun p hp => by cases hp
      obtain ⟨hnone, hpick⟩ := pick_spec (i := 0) hlt hheads h.names hbest
      split
      · rename_i hp
        exact hstop (.inr (hnone hp).2)
      · rename_i i a hp
        obtain ⟨hplace, -, hle⟩ := hpick (i, a) hp
        obtain hnil | ⟨l, r, l', rfl, hi, ha⟩ := hplace
        · cases hnil
        · rw [Nat.zero_add] at hi
          subst hi
          rw [modify_advance]
          have hrest := ih (h.advance ha)
          have hleast := h.least hblocked ha hle
          have hperm := hrest.perm
          refine ⟨?_, hrest.sound, ?_, ?_, ?_, fun hnil => ?_⟩
          · rw [hrest.pages]
            simp [Reading.advance]
          · exact (hperm.cons a).trans (total_advance ha).symm
          · exact .cons (fun b hb => hleast b (hperm.subset (List.mem_append_left _ hb))) hrest.sorted
          · intro b hb c hc
            obtain rfl | hb := List.mem_cons.1 hb
            · exact hleast c (hperm.subset (List.mem_append_right _ hc))
            · exact hrest.before b hb c hc
          · cases hnil

end Loop

structure Form (σ γ δ : Type*) where
  names : List σ
  parts : Option δ → Option (List (σ × Part γ))
  /-- What is written after a cursor. -/
  write : Option δ → KeyedMap σ (Part γ) → δ
  parts_none : parts none = some (names.map fun n => (n, ⟨none, 0⟩))
  parts_write : ∀ c (m : KeyedMap σ (Part γ)), (∀ e ∈ m.entries, e.1 ∈ names) →
    ∃ l, parts (some (write c m)) = some l ∧ l.Perm m.entries
  nodup : ∀ c l, parts c = some l → (l.map Prod.fst).Nodup
  known : ∀ c l, parts c = some l → ∀ e ∈ l, e.1 ∈ names

section Merge
variable {δ : Type*}

def fetchAll (fetch : σ → Option γ → ℕ → Option (List α × Option γ)) (limit : ℕ) (l : List (σ × Part γ)) :
    Option (List (Page σ γ α)) :=
  l.mapM fun e => (fetch e.1 e.2.c limit).map fun r => ⟨e.1, e.2, r.1, r.2⟩

/-- The merged page, and its cursor. -/
def answer [DecidableEq σ] (lt : α → α → Bool) (write : KeyedMap σ (Part γ) → δ) (limit : ℕ)
    (pages : List (Page σ γ α)) : List α × Option δ :=
  let r := merge lt pages limit
  (r.1, if r.2.entries = [] then none else some (write r.2))

def fetch [DecidableEq σ] (form : Form σ γ δ) (lt : α → α → Bool)
    (source : σ → Option γ → ℕ → Option (List α × Option γ)) (c : Option δ) (limit : ℕ) :
    Option (List α × Option δ) :=
  ((form.parts c).bind (fetchAll source limit)).map (answer lt (form.write c) limit)

theorem mapM_eq_map {β β' : Type*} {f : β → Option β'} {g : β → β'} {l : List β} (h : ∀ x ∈ l, f x = some (g x)) :
    l.mapM f = some (l.map g) := by
  induction l with
  | nil => rfl
  | cons x l ih =>
    rw [List.mapM_cons, h x List.mem_cons_self, ih fun y hy => h y (List.mem_cons_of_mem x hy)]
    rfl

theorem flatMap_filterMap_elim {β β' β'' : Type*} (f : β → Option β') (g : β' → List β'') (l : List β) :
    (l.filterMap f).flatMap g = l.flatMap fun x => (f x).elim [] g := by
  induction l with
  | nil => rfl
  | cons x l ih => cases hx : f x <;> simp [hx, ih]

theorem sum_filterMap_elim {β β' : Type*} (f : β → Option β') (g : β' → ℕ) (l : List β) :
    ((l.filterMap f).map g).sum = (l.map fun x => (f x).elim 0 g).sum := by
  induction l with
  | nil => rfl
  | cons x l ih => cases hx : f x <;> simp [hx, ih]

variable {r : Reading σ γ α}

theorem source_remainder {x : σ × Part γ} (h : remainder r = some x) : x.1 = r.page.source := by
  unfold remainder at h
  split at h
  · rw [← Option.some.inj h]
  · obtain ⟨c, -, rfl⟩ := Option.map_eq_some_iff.1 h
    rfl

theorem remainder_names {rs : List (Reading σ γ α)} (h : (rs.map (·.page.source)).Nodup) :
    ((rs.filterMap remainder).map Prod.fst).Nodup := by
  refine h.sublist ?_
  induction rs with
  | nil => exact List.Sublist.refl _
  | cons r rs ih =>
    have hrest := ih (List.nodup_cons.1 h).2
    cases hr : remainder r with
    | none =>
      rw [List.filterMap_cons_none hr]
      exact hrest.cons _
    | some x =>
      rw [List.filterMap_cons_some hr, List.map_cons, source_remainder hr]
      exact hrest.cons_cons _

variable [LinearOrder α] (source : σ → Source α γ) {lt : α → α → Bool} {owner : α → σ}

def partRest (e : σ × Part γ) : List α := ((source e.1).rest e.2.c).drop e.2.s

def order (l : List (σ × Part γ)) : List α := (l.flatMap (partRest source)).insertionSort (· ≤ ·)

def partSize (e : σ × Part γ) : ℕ := (partRest source e).length + (source e.1).size e.2.c

/-- A page of the part goes on from its cursor, and has the elements that were taken of it. -/
def PartFits (limit : ℕ) (e : σ × Part γ) : Prop :=
  (source e.1).Fits e.2.c limit ∧ ∀ r ∈ (source e.1).fetch e.2.c limit, e.2.s ≤ r.1.length

def PartProper (e : σ × Part γ) : Prop := (source e.1).Proper e.2.c

def pageOf (limit : ℕ) (e : σ × Part γ) : Page σ γ α :=
  let r := ((source e.1).fetch e.2.c limit).getD ([], none)
  ⟨e.1, e.2, r.1, r.2⟩

variable {source} {e : σ × Part γ} {l l' : List (σ × Part γ)} {limit : ℕ}

theorem order_perm (h : l.Perm l') : order source l = order source l' := by
  have hperm : (l.flatMap (partRest source)).Perm (l'.flatMap (partRest source)) := h.flatMap_right _
  have hsorted := List.pairwise_insertionSort (α := α) (· ≤ ·)
  refine List.Perm.eq_of_pairwise (fun a b _ _ hab hba => le_antisymm hab hba) (hsorted _) (hsorted _) ?_
  exact (List.perm_insertionSort _ _).trans (hperm.trans (List.perm_insertionSort _ _).symm)

theorem eq_order {xs : List α} (hsorted : xs.Pairwise (· < ·)) (hperm : xs.Perm (l.flatMap (partRest source))) :
    order source l = xs := by
  refine List.Perm.eq_of_pairwise (fun a b _ _ hab hba => le_antisymm hab hba) (List.pairwise_insertionSort _ _)
    (hsorted.imp le_of_lt) ?_
  exact (List.perm_insertionSort _ _).trans hperm.symm

theorem partRest_sorted (e : σ × Part γ) : (partRest source e).Pairwise (· < ·) :=
  ((source e.1).sorted e.2.c).sublist (List.drop_sublist _ _)

theorem order_sorted (hown : ∀ n c, ∀ x ∈ (source n).rest c, owner x = n) (hnodup : (l.map Prod.fst).Nodup) :
    (order source l).Pairwise (· < ·) := by
  have hdisjoint : l.Pairwise (Function.onFun List.Disjoint (partRest source)) := by
    refine (List.pairwise_map.1 hnodup).imp fun {a b} hab x hxa hxb => hab ?_
    rw [← hown a.1 a.2.c x (List.mem_of_mem_drop hxa), ← hown b.1 b.2.c x (List.mem_of_mem_drop hxb)]
  have hall : (l.flatMap (partRest source)).Nodup :=
    List.nodup_flatMap.2 ⟨fun e _ => (partRest_sorted e).imp ne_of_lt, hdisjoint⟩
  have hnodup' : (order source l).Nodup := (List.perm_insertionSort _ _).nodup_iff.2 hall
  exact ((List.pairwise_insertionSort (· ≤ ·) _).and hnodup').imp fun hab => lt_of_le_of_ne hab.1 hab.2

def afterOf (source : σ → Source α γ) (n : σ) (c : γ) : List α := (source n).rest (some c)

theorem pageOf_spec (hlimit : 1 ≤ limit) (hproper : PartProper source e) (h : PartFits source limit e) :
    ((source e.1).fetch e.2.c limit).map (fun r => (⟨e.1, e.2, r.1, r.2⟩ : Page σ γ α)) = some (pageOf source limit e) ∧
      (source e.1).rest e.2.c = (pageOf source limit e).hits ++ (pageOf source limit e).next.elim [] (afterOf source e.1) ∧
      e.2.s ≤ (pageOf source limit e).hits.length ∧
      ∀ c ∈ (pageOf source limit e).next,
        (source e.1).Proper (some c) ∧ (source e.1).size (some c) < (source e.1).size e.2.c := by
  obtain ⟨hits, next, hfetch, hrest, hsize⟩ := (source e.1).page e.2.c limit hlimit hproper h.1
  have hpage : pageOf source limit e = ⟨e.1, e.2, hits, next⟩ := by simp [pageOf, hfetch]
  rw [hpage, hfetch]
  exact ⟨rfl, hrest, h.2 _ hfetch, hsize⟩

def OfParts (source : σ → Source α γ) (limit : ℕ) (l : List (σ × Part γ)) (r : Reading σ γ α) : Prop :=
  ∃ e ∈ l, PartProper source e ∧ PartFits source limit e ∧ r.page = pageOf source limit e

section
variable (hlimit : 1 ≤ limit)
include hlimit

theorem total_readings (hproper : ∀ e ∈ l, PartProper source e)
    (h : ∀ e ∈ l, PartFits source limit e) :
    total (afterOf source) (readings (l.map (pageOf source limit))) = l.flatMap (partRest source) := by
  rw [total, readings, List.map_map, List.flatMap_map]
  refine List.flatMap_congr fun e he => ?_
  obtain ⟨-, hrest, hs, -⟩ := pageOf_spec hlimit (hproper e he) (h e he)
  have hmin : min e.2.s (pageOf source limit e).hits.length = e.2.s := min_eq_left hs
  rw [partRest, hrest, List.drop_append_of_le_length hs]
  simp only [Reading.full, Function.comp_apply]
  have hpart : (pageOf source limit e).part = e.2 := rfl
  rw [hpart, hmin]
  rfl

theorem sound_readings (hproper : ∀ e ∈ l, PartProper source e)
    (h : ∀ e ∈ l, PartFits source limit e)
    (hown : ∀ n c, ∀ x ∈ (source n).rest c, owner x = n) (hnodup : (l.map Prod.fst).Nodup) :
    Sound owner (afterOf source) (readings (l.map (pageOf source limit))) := by
  have hfull : ∀ r ∈ readings (l.map (pageOf source limit)), ∃ e ∈ l, r.page = pageOf source limit e ∧
      r.full (afterOf source) = partRest source e := by
    intro r hr
    rw [readings, List.map_map] at hr
    obtain ⟨e, he, rfl⟩ := List.mem_map.1 hr
    refine ⟨e, he, rfl, ?_⟩
    have hone := total_readings hlimit (l := [e]) (by simpa using hproper e he) (by simpa using h e he)
    simpa [total, readings] using hone
  refine ⟨fun r hr => ?_, fun r hr a ha => ?_, ?_⟩
  · obtain ⟨e, -, -, hrest⟩ := hfull r hr
    rw [hrest]
    exact partRest_sorted e
  · obtain ⟨e, -, hpage, hrest⟩ := hfull r hr
    rw [hrest] at ha
    rw [hpage]
    exact hown e.1 e.2.c a (List.mem_of_mem_drop ha)
  · rw [readings, List.map_map, List.map_map]
    exact hnodup

theorem partRest_remainder (h : OfParts source limit l r) :
    (remainder r).elim [] (partRest source) = r.full (afterOf source) := by
  obtain ⟨e, he, hproper, hfits, hpage⟩ := h
  obtain ⟨-, hrest, -, -⟩ := pageOf_spec hlimit hproper hfits
  have hsource : r.page.source = e.1 := by rw [hpage]; rfl
  have hpart : r.page.part = e.2 := by rw [hpage]; rfl
  rw [← hpage] at hrest
  rw [remainder, Reading.full, hsource, hpart]
  split
  · rename_i hpos
    rw [Option.elim_some, partRest, hrest, List.drop_append_of_le_length hpos.le]
  · rename_i hpos
    rw [List.drop_of_length_le (Nat.le_of_not_lt hpos), List.nil_append]
    cases r.page.next with
    | none => rfl
    | some c => rfl

theorem proper_remainder (h : OfParts source limit l r) {x : σ × Part γ}
    (hx : remainder r = some x) : PartProper source x := by
  obtain ⟨e, he, hproper, hfits, hpage⟩ := h
  obtain ⟨-, -, -, hnext⟩ := pageOf_spec hlimit hproper hfits
  have hsource : r.page.source = e.1 := by rw [hpage]; rfl
  have hpart : r.page.part = e.2 := by rw [hpage]; rfl
  rw [← hpage] at hnext
  rw [remainder, hsource, hpart] at hx
  split at hx
  · rw [← Option.some.inj hx]
    exact hproper
  · obtain ⟨c, hc, rfl⟩ := Option.map_eq_some_iff.1 hx
    exact (hnext c hc).1

theorem partSize_remainder (h : OfParts source limit l r) :
    (remainder r).elim 0 (fun e => (source e.1).size e.2.c) ≤ (source r.page.source).size r.page.part.c ∧
      (r.exhausted = true → r.page.next.isSome = true →
        (remainder r).elim 0 (fun e => (source e.1).size e.2.c) < (source r.page.source).size r.page.part.c) := by
  obtain ⟨e, he, hproper, hfits, hpage⟩ := h
  obtain ⟨-, -, -, hsize⟩ := pageOf_spec hlimit hproper hfits
  have hsource : r.page.source = e.1 := by rw [hpage]; rfl
  have hpart : r.page.part = e.2 := by rw [hpage]; rfl
  rw [← hpage] at hsize
  rw [remainder, hsource, hpart, Reading.exhausted, decide_eq_true_iff]
  split
  · rename_i hpos
    exact ⟨le_rfl, fun hexhausted => absurd hpos (not_lt_of_ge hexhausted)⟩
  · cases hnext : r.page.next with
    | none => exact ⟨Nat.zero_le _, fun _ hsome => by cases hsome⟩
    | some c =>
      have hlt := (hsize c hnext).2
      exact ⟨hlt.le, fun _ _ => hlt⟩

end

theorem sum_partSize (l : List (σ × Part γ)) : (l.map (partSize source)).sum =
    (l.flatMap (partRest source)).length + (l.map fun e => (source e.1).size e.2.c).sum := by
  induction l with
  | nil => rfl
  | cons e l ih =>
    rw [List.map_cons, List.sum_cons, ih, List.flatMap_cons, List.length_append, List.map_cons, List.sum_cons, partSize]
    omega

theorem size_lt (hlimit : 1 ≤ limit) {rs rs' : List (Reading σ γ α)} {out : List α}
    (hpages : ∀ r ∈ rs', OfParts source limit l r) (hloop : Merged owner (afterOf source) limit rs out rs')
    (hne : rs'.filterMap remainder ≠ []) :
    (total (afterOf source) rs').length + ((rs'.filterMap remainder).map fun e => (source e.1).size e.2.c).sum <
      (total (afterOf source) rs).length + (rs'.map fun r => (source r.page.source).size r.page.part.c).sum := by
  have hlength := hloop.perm.length_eq
  rw [List.length_append] at hlength
  rw [sum_filterMap_elim]
  have hle := List.sum_le_sum fun r hr => (partSize_remainder hlimit (hpages r hr)).1
  by_cases hout : out = []
  · obtain hzero | ⟨rfl, hwhy⟩ := hloop.stuck hout
    · omega
    · have hdone : ∃ r ∈ rs', r.exhausted = true ∧ r.page.next.isSome = true := by
        obtain hblocked | hheads := hwhy
        · simpa [blocked] using hblocked
        · obtain ⟨x, hx⟩ := List.exists_mem_of_ne_nil _ hne
          obtain ⟨r, hr, hrx⟩ := List.mem_filterMap.1 hx
          have hexhausted := exhausted_iff.2 (hheads r hr)
          refine ⟨r, hr, hexhausted, ?_⟩
          rw [Reading.exhausted, decide_eq_true_iff] at hexhausted
          rw [remainder, if_neg (not_lt_of_ge hexhausted)] at hrx
          obtain ⟨c, hc, -⟩ := Option.map_eq_some_iff.1 hrx
          rw [hc]
          rfl
      obtain ⟨r, hr, hexhausted, hnext⟩ := hdone
      have hlt := List.sum_lt_sum _ _ (fun r hr => (partSize_remainder hlimit (hpages r hr)).1)
        ⟨r, hr, (partSize_remainder hlimit (hpages r hr)).2 hexhausted hnext⟩
      omega
  · have hpos := List.length_pos_iff.2 hout
    omega

theorem fetchAll_eq (hlimit : 1 ≤ limit) (hproper : ∀ e ∈ l, PartProper source e)
    (h : ∀ e ∈ l, PartFits source limit e) :
    fetchAll (fun n => (source n).fetch) limit l = some (l.map (pageOf source limit)) :=
  mapM_eq_map fun e he => (pageOf_spec hlimit (hproper e he) (h e he)).1

variable {form : Form σ γ δ}

/-- The rest of a merged cursor. -/
def restOf (form : Form σ γ δ) (source : σ → Source α γ) (c : Option δ) : List α := (form.parts c).elim [] (order source)

def sizeOf (form : Form σ γ δ) (source : σ → Source α γ) (c : Option δ) : ℕ :=
  (form.parts c).elim 0 fun l => (l.map (partSize source)).sum

def Proper (form : Form σ γ δ) (source : σ → Source α γ) (c : Option δ) : Prop :=
  ∃ l, form.parts c = some l ∧ ∀ e ∈ l, PartProper source e

def Fits (form : Form σ γ δ) (source : σ → Source α γ) (c : Option δ) (limit : ℕ) : Prop :=
  ∀ l, form.parts c = some l → ∀ e ∈ l, PartFits source limit e

theorem mem_merged {x : α} : x ∈ restOf form source none ↔ ∃ n ∈ form.names, x ∈ (source n).rest none := by
  rw [restOf, form.parts_none, Option.elim_some, order, List.mem_insertionSort, List.flatMap_map, List.mem_flatMap]
  simp [partRest]

theorem of_mem_restOf {c : Option δ} {x : α} (h : x ∈ restOf form source c) :
    ∃ n ∈ form.names, ∃ c', x ∈ (source n).rest c' := by
  unfold restOf at h
  cases hparts : form.parts c with
  | none =>
    rw [hparts] at h
    cases h
  | some l =>
    rw [hparts, Option.elim_some, order, List.mem_insertionSort] at h
    obtain ⟨e, he, hx⟩ := List.mem_flatMap.1 h
    exact ⟨e.1, form.known c l hparts e he, e.2.c, List.mem_of_mem_drop hx⟩

section Page
variable [DecidableEq σ]

theorem merge_spec (hlimit : 1 ≤ limit) (hproper : ∀ e ∈ l, PartProper source e)
    (hfits : ∀ e ∈ l, PartFits source limit e)
    (hlt : ∀ a b, owner a ≠ owner b → (lt a b = true ↔ a < b)) (hown : ∀ n c, ∀ x ∈ (source n).rest c, owner x = n)
    (hnodup : (l.map Prod.fst).Nodup) :
    ∃ out m, merge lt (l.map (pageOf source limit)) limit = (out, m) ∧
      (∀ x ∈ m.entries, x.1 ∈ l.map Prod.fst ∧ PartProper source x) ∧ order source l = out ++ order source m.entries ∧
      (m.entries ≠ [] → (m.entries.map (partSize source)).sum < (l.map (partSize source)).sum) := by
  have hsound := sound_readings hlimit hproper hfits hown hnodup
  have htotal := total_readings hlimit hproper hfits
  have hloop := loop_spec hlt hsound limit
  generalize hrs : readings (l.map (pageOf source limit)) = rs at hsound htotal hloop
  generalize hout : (loop lt limit rs).1 = out at hloop
  generalize hrs' : (loop lt limit rs).2 = rs' at hloop
  have hpages : ∀ r ∈ rs', OfParts source limit l r := by
    intro r hr
    have hmem : r.page ∈ rs'.map (·.page) := List.mem_map_of_mem hr
    rw [hloop.pages, ← hrs, readings, List.map_map] at hmem
    obtain ⟨p, hp, hpage⟩ := List.mem_map.1 hmem
    obtain ⟨e, he, rfl⟩ := List.mem_map.1 hp
    exact ⟨e, he, hproper e he, hfits e he, hpage.symm⟩
  have hsources : rs'.map (·.page.source) = l.map Prod.fst := by
    have hmap := congrArg (List.map Page.source) hloop.pages
    rw [List.map_map, List.map_map, ← hrs, readings, List.map_map, List.map_map] at hmap
    exact hmap
  have hentries : (KeyedMap.ofList Prod.fst Prod.snd (rs'.filterMap remainder)).entries = rs'.filterMap remainder := by
    rw [KeyedMap.entries_ofList (remainder_names hloop.sound.names), List.map_id']
  have hrest : (rs'.filterMap remainder).flatMap (partRest source) = total (afterOf source) rs' := by
    rw [flatMap_filterMap_elim, total]
    exact List.flatMap_congr fun r hr => partRest_remainder hlimit (hpages r hr)
  refine ⟨out, KeyedMap.ofList Prod.fst Prod.snd (rs'.filterMap remainder), ?_, ?_, ?_, ?_⟩
  · rw [merge, hrs, hout, hrs']
  · intro x hx
    rw [hentries] at hx
    obtain ⟨r, hr, hrx⟩ := List.mem_filterMap.1 hx
    refine ⟨?_, proper_remainder hlimit (hpages r hr) hrx⟩
    rw [source_remainder hrx, ← hsources]
    exact List.mem_map_of_mem (f := fun r : Reading σ γ α => r.page.source) hr
  · rw [hentries]
    have hsorted : (order source _).Pairwise (· < ·) := order_sorted hown (remainder_names hloop.sound.names)
    have hperm : (order source (rs'.filterMap remainder)).Perm (total (afterOf source) rs') := by
      rw [← hrest]
      exact List.perm_insertionSort _ _
    refine eq_order (List.pairwise_append.2 ⟨hloop.sorted, hsorted, fun a ha b hb => hloop.before a ha b (hperm.subset hb)⟩) ?_
    rw [← htotal]
    exact (hperm.append_left out).trans hloop.perm
  · intro hne
    rw [hentries] at hne ⊢
    have hlt := size_lt hlimit hpages hloop hne
    have hsizes : rs'.map (fun r => (source r.page.source).size r.page.part.c) =
        l.map fun e => (source e.1).size e.2.c := by
      have hmap := congrArg (List.map fun p : Page σ γ α => (source p.source).size p.part.c) hloop.pages
      rw [List.map_map, List.map_map, ← hrs, readings, List.map_map, List.map_map] at hmap
      exact hmap
    rwa [sum_partSize, sum_partSize, hrest, ← htotal, ← hsizes]

theorem page_spec (hlt : ∀ a b, owner a ≠ owner b → (lt a b = true ↔ a < b))
    (hown : ∀ n c, ∀ x ∈ (source n).rest c, owner x = n) (c : Option δ) (hlimit : 1 ≤ limit)
    (hproper : Proper form source c) (hfits : Fits form source c limit) :
    ∃ hits next, fetch form lt (fun n => (source n).fetch) c limit = some (hits, next) ∧
      restOf form source c = hits ++ next.elim [] (restOf form source ∘ some) ∧
      ∀ c' ∈ next, Proper form source (some c') ∧ sizeOf form source (some c') < sizeOf form source c := by
  obtain ⟨l, hparts, hl⟩ := hproper
  have hfits := hfits l hparts
  obtain ⟨out, m, hmerge, hnames, horder, hsize⟩ := merge_spec hlimit hl hfits hlt hown (form.nodup c l hparts)
  have hanswer : answer lt (form.write c) limit (l.map (pageOf source limit)) =
      (out, if m.entries = [] then none else some (form.write c m)) := by
    rw [answer, hmerge]
  have hfetch : fetch form lt (fun n => (source n).fetch) c limit =
      some (out, if m.entries = [] then none else some (form.write c m)) := by
    rw [fetch, hparts, Option.bind_some, fetchAll_eq hlimit hl hfits, Option.map_some, hanswer]
  obtain ⟨l', hread, hperm⟩ := form.parts_write c m fun e he => by
    obtain ⟨x, hx, hxe⟩ := List.mem_map.1 (hnames e he).1
    rw [← hxe]
    exact form.known c l hparts x hx
  refine ⟨_, _, hfetch, ?_, fun c' hc' => ?_⟩
  · rw [restOf, hparts, Option.elim_some, horder]
    split
    · rename_i hnil
      rw [hnil]
      rfl
    · rw [Option.elim_some, Function.comp_apply, restOf, hread, Option.elim_some, order_perm hperm]
  · split at hc'
    · cases hc'
    · rename_i hne
      obtain rfl := Option.some.inj hc'
      refine ⟨⟨l', hread, fun e he => (hnames e (hperm.subset he)).2⟩, ?_⟩
      rw [sizeOf, sizeOf, hread, hparts, Option.elim_some, Option.elim_some, (hperm.map _).sum_eq]
      exact hsize hne

def merged (form : Form σ γ δ) (lt : α → α → Bool) (source : σ → Source α γ)
    (hlt : ∀ a b, owner a ≠ owner b → (lt a b = true ↔ a < b)) (hown : ∀ n c, ∀ x ∈ (source n).rest c, owner x = n) :
    Source α δ where
  fetch := fetch form lt fun n => (source n).fetch
  rest := restOf form source
  size := sizeOf form source
  Proper := Proper form source
  Fits := Fits form source
  proper_none := ⟨_, form.parts_none, fun e he => by
    obtain ⟨n, -, rfl⟩ := List.mem_map.1 he
    exact (source n).proper_none⟩
  sorted c := by
    unfold restOf
    cases hparts : form.parts c with
    | none => exact .nil
    | some l => exact order_sorted hown (form.nodup c l hparts)
  page c _ hlimit hproper hfits := page_spec hlt hown c hlimit hproper hfits

end Page
end Merge
end PagedMerge
