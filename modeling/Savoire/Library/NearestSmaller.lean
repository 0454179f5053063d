import Mathlib.Data.List.Basic
import Mathlib.Data.List.Find
import Mathlib.Data.List.Induction
import Mathlib.Data.List.TakeWhile
import Mathlib.Tactic.TypeStar

/-! The nearest smaller value before each element of a list, found with a stack, as the parent of the element: the
trees that levels of indentation stand for. What comes before an element is kept newest first. -/
namespace NearestSmaller
variable {β : Type*} (v : β → Nat)

/-- The nearest of the elements before whose value is below `n`. -/
def parent (before : List β) (n : Nat) : Option β := before.find? fun y => decide (v y < n)

def parents : List β → List β → List (β × Option β)
  | _, [] => []
  | before, x :: l => (x, parent v before (v x)) :: parents (x :: before) l

/-- The elements below which nothing as small has come. -/
def stack : List β → List β
  | [] => []
  | x :: before => x :: (stack before).dropWhile fun y => decide (v x ≤ v y)

variable {v} {before before' l l' : List β} {x y q : β} {n : Nat}

theorem mem_dropWhile (h : l.Pairwise fun x y => v y < v x) :
    x ∈ l.dropWhile (fun y => decide (n ≤ v y)) ↔ x ∈ l ∧ v x < n := by
  induction l with
  | nil => simp
  | cons y l ih =>
    obtain ⟨hy, hl⟩ := List.pairwise_cons.mp h
    rw [List.dropWhile_cons]
    split
    · rename_i hle
      rw [decide_eq_true_eq] at hle
      rw [ih hl, List.mem_cons]
      constructor
      · exact fun ⟨hx, hlt⟩ => ⟨.inr hx, hlt⟩
      · rintro ⟨rfl | hx, hlt⟩
        · omega
        · exact ⟨hx, hlt⟩
    · rename_i hle
      rw [decide_eq_true_eq] at hle
      refine ⟨fun hx => ⟨hx, ?_⟩, fun hx => hx.1⟩
      obtain rfl | hx := List.mem_cons.mp hx
      · omega
      · have hlt := hy x hx
        omega

theorem mem_takeWhile (h : l.Pairwise fun x y => v y < v x) :
    x ∈ l.takeWhile (fun y => decide (n ≤ v y)) ↔ x ∈ l ∧ n ≤ v x := by
  constructor
  · intro hx
    exact ⟨(List.takeWhile_prefix _).subset hx, by simpa using List.mem_takeWhile_imp hx⟩
  · rintro ⟨hx, hle⟩
    rw [← List.takeWhile_append_dropWhile (p := fun y => decide (n ≤ v y)) (l := l), List.mem_append] at hx
    refine hx.resolve_right fun hdrop => ?_
    have hlt := ((mem_dropWhile h).mp hdrop).2
    omega

theorem stack_subset (h : x ∈ stack v before) : x ∈ before := by
  induction before with
  | nil => cases h
  | cons y before ih =>
    obtain rfl | hx := List.mem_cons.mp h
    · exact List.mem_cons_self
    · exact List.mem_cons_of_mem y (ih ((List.dropWhile_sublist _).subset hx))

theorem stack_sorted (before : List β) : (stack v before).Pairwise fun x y => v y < v x := by
  induction before with
  | nil => exact .nil
  | cons x before ih =>
    have hrest := ih.sublist (List.dropWhile_sublist fun y => decide (v x ≤ v y))
    exact List.pairwise_cons.mpr ⟨fun y hy => ((mem_dropWhile ih).mp hy).2, hrest⟩

theorem parent_dropWhile (h : n ≤ v x) (before : List β) :
    parent v (before.dropWhile fun y => decide (v x ≤ v y)) n = parent v before n := by
  induction before with
  | nil => rfl
  | cons y before ih =>
    rw [List.dropWhile_cons]
    split
    · rename_i hle
      have hlt : ¬ v y < n := by
        rw [decide_eq_true_eq] at hle
        omega
      rw [ih, parent, parent, List.find?_cons_of_neg (by simpa using hlt)]
    · rfl

theorem parent_stack (before : List β) (n : Nat) : parent v (stack v before) n = parent v before n := by
  induction before with
  | nil => rfl
  | cons x before ih =>
    rw [stack, parent, parent]
    by_cases hx : v x < n
    · rw [List.find?_cons_of_pos (by simpa using hx), List.find?_cons_of_pos (by simpa using hx)]
    · rw [List.find?_cons_of_neg (by simpa using hx), List.find?_cons_of_neg (by simpa using hx)]
      exact (parent_dropWhile (by omega) _).trans ih

theorem head?_dropWhile_eq_parent (l : List β) (n : Nat) :
    (l.dropWhile fun y => decide (n ≤ v y)).head? = parent v l n := by
  induction l with
  | nil => rfl
  | cons y l ih =>
    rw [List.dropWhile_cons, parent]
    by_cases hy : v y < n
    · rw [if_neg (by simpa using hy), List.find?_cons_of_pos (by simpa using hy), List.head?_cons]
    · rw [if_pos (by simpa using hy), ih, List.find?_cons_of_neg (by simpa using hy)]
      rfl

theorem head?_stack (before : List β) (n : Nat) :
    ((stack v before).dropWhile fun y => decide (n ≤ v y)).head? = parent v before n := by
  rw [head?_dropWhile_eq_parent, parent_stack]

theorem mem_stack (hx : x ∉ l) : x ∈ stack v (l ++ x :: before) ↔ ∀ y ∈ l, v x < v y := by
  induction l with
  | nil => simp [stack]
  | cons y l ih =>
    obtain ⟨hy, hl⟩ := not_or.mp (List.mem_cons.not.mp hx)
    rw [List.cons_append, stack, List.mem_cons, mem_dropWhile (stack_sorted _), ih hl, List.forall_mem_cons]
    constructor
    · exact fun h => (h.resolve_left hy).symm
    · exact fun h => .inr h.symm

theorem parents_append (before l l' : List β) :
    parents v before (l ++ l') = parents v before l ++ parents v (l.reverse ++ before) l' := by
  induction l generalizing before with
  | nil => rfl
  | cons x l ih => simp [parents, ih]

@[simp] theorem length_parents (before l : List β) : (parents v before l).length = l.length := by
  induction l generalizing before with
  | nil => rfl
  | cons x l ih => simp [parents, ih]

theorem map_fst_parents (before l : List β) : (parents v before l).map Prod.fst = l := by
  induction l generalizing before with
  | nil => rfl
  | cons x l ih => rw [parents, List.map_cons, ih]

theorem parent_append (before before' : List β) (n : Nat) :
    parent v (before ++ before') n = (parent v before n).or (parent v before' n) := by
  rw [parent, List.find?_append]
  rfl

theorem parent_eq_none : parent v before n = none ↔ ∀ y ∈ before, n ≤ v y := by
  simp [parent]

theorem parent_eq_some : parent v before n = some q ↔
    ∃ l l', before = l ++ q :: l' ∧ v q < n ∧ ∀ y ∈ l, n ≤ v y := by
  rw [parent, List.find?_eq_some_iff_append]
  constructor
  · rintro ⟨hq, l, l', rfl, hl⟩
    exact ⟨l, l', rfl, by simpa using hq, fun y hy => by simpa using hl y hy⟩
  · rintro ⟨l, l', rfl, hq, hl⟩
    exact ⟨by simpa using hq, l, l', rfl, fun y hy => by simpa using hl y hy⟩

theorem parent_map_iff {γ : Type*} (name : β → γ) (hl : ∀ y ∈ l, name y ≠ name q) (hl' : ∀ y ∈ l', name y ≠ name q) :
    (parent v (l ++ q :: l') n).map name = some (name q) ↔ v q < n ∧ ∀ y ∈ l, n ≤ v y := by
  rw [parent_append]
  cases hp : parent v l n with
  | some z =>
    have hz : z ∈ l := List.mem_of_find?_eq_some hp
    have hlt : v z < n := by simpa using List.find?_some hp
    constructor
    · exact fun h => absurd (Option.some.inj h) (hl z hz)
    · intro h
      have hle := h.2 z hz
      omega
  | none =>
    have hall := parent_eq_none.mp hp
    rw [Option.none_or, parent]
    by_cases hq : v q < n
    · rw [List.find?_cons_of_pos (by simpa using hq)]
      exact ⟨fun _ => ⟨hq, hall⟩, fun _ => rfl⟩
    · rw [List.find?_cons_of_neg (by simpa using hq)]
      constructor
      · intro h
        obtain ⟨z, hz, hname⟩ := Option.map_eq_some_iff.mp h
        exact absurd hname (hl' z (List.mem_of_find?_eq_some hz))
      · exact fun h => absurd h.1 hq

theorem parents_skip {h : Nat} (hbefore : ∀ y ∈ before, h ≤ v y) (hl : ∀ x ∈ l.head?, v x ≤ h) :
    parents v (before ++ before') l = parents v before' l := by
  have hmain : ∀ inner : List β, (inner = [] → ∀ x ∈ l.head?, v x ≤ h) → (inner ≠ [] → ∃ z ∈ inner, v z ≤ h) →
      parents v (inner ++ (before ++ before')) l = parents v (inner ++ before') l := by
    clear hl
    induction l with
    | nil => exact fun _ _ _ => rfl
    | cons x l ih =>
      intro inner hnil hne
      have hx : (∀ z ∈ inner, v x ≤ v z) → v x ≤ h := by
        intro hall
        by_cases hi : inner = []
        · exact hnil hi x rfl
        · obtain ⟨z, hz, hle⟩ := hne hi
          exact (hall z hz).trans hle
      have hparent : parent v (inner ++ (before ++ before')) (v x) = parent v (inner ++ before') (v x) := by
        rw [parent_append, parent_append, parent_append]
        cases hi : parent v inner (v x) with
        | some q => rfl
        | none =>
          have hle := hx (parent_eq_none.mp hi)
          rw [parent_eq_none.mpr fun y hy => hle.trans (hbefore y hy)]
          rfl
      have hinner : ∃ z ∈ x :: inner, v z ≤ h := by
        by_cases hi : inner = []
        · exact ⟨x, List.mem_cons_self, hnil hi x rfl⟩
        · obtain ⟨z, hz, hle⟩ := hne hi
          exact ⟨z, List.mem_cons_of_mem x hz, hle⟩
      have hrest := ih (x :: inner) (by simp) fun _ => hinner
      rw [parents, parents, hparent]
      exact congrArg _ hrest
  exact hmain [] (fun _ => hl) (by simp)

theorem parents_inside (hl : ∀ y ∈ l, v x < v y) : parents v (x :: before) l = parents v [x] l := by
  have hmain : ∀ inner : List β, parents v (inner ++ x :: before) l = parents v (inner ++ [x]) l := by
    induction l with
    | nil => exact fun _ => rfl
    | cons y l ih =>
      intro inner
      rw [List.forall_mem_cons] at hl
      have hparent : parent v (inner ++ x :: before) (v y) = parent v (inner ++ [x]) (v y) := by
        have hx : ∀ rest : List β, parent v (x :: rest) (v y) = some x :=
          fun rest => List.find?_cons_of_pos (by simpa using hl.1)
        rw [parent_append, parent_append, hx, hx]
      rw [parents, parents, hparent]
      exact congrArg _ (ih hl.2 (y :: inner))
  exact hmain []

theorem next_sibling {a s : List β} (hnodup : (a ++ x :: s ++ [y]).Nodup)
    (hsame : parent v (s.reverse ++ x :: a.reverse) (v y) = parent v a.reverse (v x))
    (hnone : ∀ u z w, s = u ++ z :: w → parent v (u.reverse ++ x :: a.reverse) (v z) ≠ parent v a.reverse (v x)) :
    v y ≤ v x ∧ ∀ z ∈ s, v x < v z := by
  have hold : ∀ q, parent v a.reverse (v x) = some q → q ∈ a := fun q hq => by simpa using List.mem_of_find?_eq_some hq
  have hnotin : ∀ z ∈ s ++ [x], z ∉ a := by
    intro z hz ha
    rw [List.append_assoc, List.nodup_append] at hnodup
    have hz' : z ∈ x :: s ++ [y] := by
      simp only [List.mem_append, List.mem_singleton] at hz
      simp only [List.cons_append, List.mem_cons, List.mem_append]
      exact hz.elim (fun h => .inr (.inl h)) .inl
    exact hnodup.2.2 z ha z hz' rfl
  -- No parent of `y` from `x` on: it would be the parent of `x` as well.
  have hnear : parent v (s.reverse ++ [x]) (v y) = none := by
    cases h : parent v (s.reverse ++ [x]) (v y) with
    | none => rfl
    | some q =>
      have hq : q ∈ s ++ [x] := by simpa using List.mem_of_find?_eq_some h
      have hall : parent v (s.reverse ++ x :: a.reverse) (v y) = some q := by
        have hsplit : s.reverse ++ x :: a.reverse = (s.reverse ++ [x]) ++ a.reverse := by simp
        rw [hsplit, parent_append, h]
        rfl
      exact absurd (hold q (hsame.symm.trans hall)) (hnotin q hq)
  have hge := parent_eq_none.mp hnear
  have hyx : v y ≤ v x := hge x (by simp)
  refine ⟨hyx, fun z hz => ?_⟩
  -- The first element that is not greater than `x` would have the parent of `x`.
  by_contra hle
  obtain ⟨z', u, w, hs, hz', hu⟩ : ∃ z' u w, s = u ++ z' :: w ∧ v z' ≤ v x ∧ ∀ b ∈ u, v x < v b := by
    have hsome : (s.find? fun b => decide (v b ≤ v x)).isSome := by
      rw [List.find?_isSome]
      exact ⟨z, hz, by simpa using hle⟩
    obtain ⟨z', hfind⟩ := Option.isSome_iff_exists.mp hsome
    obtain ⟨hz', u, w, hs, hu⟩ := List.find?_eq_some_iff_append.mp hfind
    exact ⟨z', u, w, hs, by simpa using hz', fun b hb => by simpa using hu b hb⟩
  have hyz : v y ≤ v z' := hge z' (by simp [hs])
  refine hnone u z' w hs ?_
  have hskip : parent v (u.reverse ++ x :: a.reverse) (v z') = parent v a.reverse (v z') := by
    have hsplit : u.reverse ++ x :: a.reverse = (u.reverse ++ [x]) ++ a.reverse := by simp
    have hnone' : parent v (u.reverse ++ [x]) (v z') = none := by
      refine parent_eq_none.mpr fun b hb => ?_
      simp only [List.mem_append, List.mem_reverse, List.mem_singleton] at hb
      obtain hb | rfl := hb
      · exact hz'.trans (hu b hb).le
      · exact hz'
    rw [hsplit, parent_append, hnone', Option.none_or]
  rw [hskip]
  have hfar : parent v (s.reverse ++ x :: a.reverse) (v y) = parent v a.reverse (v y) := by
    have hsplit : s.reverse ++ x :: a.reverse = (s.reverse ++ [x]) ++ a.reverse := by simp
    rw [hsplit, parent_append, hnear, Option.none_or]
  cases hq : parent v a.reverse (v x) with
  | none => exact parent_eq_none.mpr fun b hb => hz'.trans (parent_eq_none.mp hq b hb)
  | some q =>
    obtain ⟨l, l', ha, -, hl⟩ := parent_eq_some.mp hq
    have hqy : v q < v y := by simpa using List.find?_some (hsame.trans hq)
    exact parent_eq_some.mpr ⟨l, l', ha, hqy.trans_le hyz, fun b hb => hz'.trans (hl b hb)⟩

theorem getElem?_parents (before l : List β) (k : Nat) : (parents v before l)[k]? =
    l[k]?.map fun x => (x, parent v ((l.take k).reverse ++ before) (v x)) := by
  induction l generalizing before k with
  | nil => rfl
  | cons x l ih =>
    cases k with
    | zero => rfl
    | succ k => simp [parents, ih]

theorem parent_zipIdx (l : List β) (n : Nat) :
    (parent Prod.fst (l.map v).zipIdx.reverse n).bind (fun p => l[p.2]?) = parent v l.reverse n := by
  have hfirst : ∀ {p : β × Nat}, p ∈ l.zipIdx.reverse → l[p.2]? = some p.1 := by
    intro p hp
    exact List.mem_zipIdx_iff_getElem?.mp (List.mem_reverse.mp hp)
  have hplain : l.reverse = l.zipIdx.reverse.map Prod.fst := by
    rw [List.map_reverse, List.zipIdx_map_fst]
  rw [hplain, List.zipIdx_map, ← List.map_reverse, parent, parent, List.find?_map, List.find?_map]
  simp only [Function.comp_def, Prod.map_fst]
  cases h : l.zipIdx.reverse.find? fun p => decide (v p.1 < n) with
  | none => rfl
  | some p => exact hfirst (List.mem_of_find?_eq_some h)

theorem parents_block (hl : ∀ y ∈ l, v x < v y) (hl' : ∀ y ∈ l'.head?, v y ≤ v x) :
    parents v before (x :: l ++ l') = (x, parent v before (v x)) :: parents v [x] l ++ parents v before l' := by
  have hskip : parents v ((x :: l).reverse ++ before) l' = parents v before l' := by
    refine parents_skip (h := v x) (fun y hy => ?_) hl'
    obtain rfl | hy := List.mem_cons.mp (List.mem_reverse.mp hy)
    · exact le_rfl
    · exact (hl y hy).le
  rw [parents_append, hskip, parents, parents_inside hl]

section Swap
variable {a b s c : List β} {parentOf : β → Option β}

theorem parents_two (hb : ∀ z ∈ b, v x < v z) (hs : ∀ z ∈ s, v y < v z) (hle : v y ≤ v x)
    (hc : ∀ z ∈ c.head?, v z ≤ v y) : parents v [] (a ++ (x :: b ++ (y :: s ++ c))) =
      parents v [] a ++ ((x, parent v a.reverse (v x)) :: parents v [x] b ++
        ((y, parent v a.reverse (v y)) :: parents v [y] s ++ parents v a.reverse c)) := by
  have hhead : ∀ z ∈ (y :: s ++ c).head?, v z ≤ v x := by
    rintro z hz
    obtain rfl := Option.mem_some_iff.mp hz
    exact hle
  rw [parents_append, List.append_nil, parents_block hb hhead, parents_block hs hc]

theorem parents_swap_iff (hnodup : (a ++ (x :: b ++ (y :: s ++ c))).Nodup) (hb : ∀ z ∈ b, v x < v z)
    (hs : ∀ z ∈ s, v y < v z) (hle : v y ≤ v x) (hc : ∀ z ∈ c.head?, v z ≤ v y)
    (hold : parents v [] (a ++ (x :: b ++ (y :: s ++ c))) =
      (a ++ (x :: b ++ (y :: s ++ c))).map fun k => (k, parentOf k)) :
    parents v [] (a ++ (y :: s ++ (x :: b ++ c))) =
      (a ++ (y :: s ++ (x :: b ++ c))).map (fun k => (k, parentOf k)) ↔ v x = v y := by
  rw [parents_two hb hs hle hc] at hold
  simp only [List.map_append, List.map_cons] at hold
  obtain ⟨ha, hold⟩ := List.append_inj hold (by simp)
  obtain ⟨hxb, hold⟩ := List.append_inj hold (by simp)
  obtain ⟨hys, hcs⟩ := List.append_inj hold (by simp)
  constructor
  · intro hnew
    by_contra hne
    have hsplit : ∀ l : List β, a ++ (y :: s ++ l) = (a ++ y :: s) ++ l := by simp
    rw [hsplit, parents_append, List.map_append] at hnew
    have htail := (List.append_inj hnew (by simp)).2
    have hparent : parent v ((a ++ y :: s).reverse ++ []) (v x) = parent v a.reverse (v x) :=
      (Prod.mk.inj (List.cons.inj htail).1).2.trans (Prod.mk.inj (List.cons.inj hxb).1).2.symm
    have hreverse : (a ++ y :: s).reverse ++ [] = (s.reverse ++ [y]) ++ a.reverse := by simp
    rw [hreverse, parent_append] at hparent
    -- One of the elements that now come before `x` is smaller.
    cases hq : parent v (s.reverse ++ [y]) (v x) with
    | none =>
      have hge := parent_eq_none.mp hq y (by simp)
      omega
    | some q =>
      rw [hq, Option.some_or] at hparent
      have hqa : q ∈ a := List.mem_reverse.mp (List.mem_of_find?_eq_some hparent.symm)
      have hqs : q ∈ y :: s := by
        have hmem := List.mem_of_find?_eq_some hq
        simp only [List.mem_append, List.mem_reverse, List.mem_singleton] at hmem
        exact List.mem_cons.mpr hmem.symm
      have hdisjoint := (List.nodup_append.mp hnodup).2.2 q hqa q
      exact hdisjoint (List.mem_append_right _ (List.mem_append_left _ hqs)) rfl
  · intro hxy
    rw [parents_two hs hb hxy.le fun z hz => hxy ▸ hc z hz]
    simp only [List.map_append, List.map_cons]
    rw [ha, hxb, hys, hcs]

end Swap

theorem parents_map {γ : Type*} {v' : γ → Nat} (g : β → γ) (hv : ∀ x y, v' (g x) < v' (g y) ↔ v x < v y)
    (before l : List β) :
    parents v' (before.map g) (l.map g) = (parents v before l).map fun e => (g e.1, e.2.map g) := by
  induction l generalizing before with
  | nil => rfl
  | cons x l ih =>
    have hparent : parent v' (before.map g) (v' (g x)) = (parent v before (v x)).map g := by
      simp only [parent, List.find?_map, Function.comp_def, hv]
    rw [List.map_cons, parents, parents, List.map_cons, hparent]
    exact congrArg _ (ih (x :: before))

theorem parents_congr {v' : β → Nat} (hbefore : ∀ z ∈ before, v' z = v z) (hl : ∀ z ∈ l, v' z = v z) :
    parents v' before l = parents v before l := by
  induction l generalizing before with
  | nil => rfl
  | cons y l ih =>
    rw [List.forall_mem_cons] at hl
    have hparent : parent v' before (v' y) = parent v before (v y) := by
      rw [parent, parent, hl.1]
      exact List.find?_congr fun z hz => by rw [hbefore z hz]
    rw [parents, parents, hparent]
    exact congrArg _ (ih (List.forall_mem_cons.mpr ⟨hl.1, hbefore⟩) hl.2)

theorem parents_eq_map_iff {parentOf : β → Option β} : parents v before l = l.map (fun k => (k, parentOf k)) ↔
    ∀ u y w, l = u ++ y :: w → parent v (u.reverse ++ before) (v y) = parentOf y := by
  induction l generalizing before with
  | nil => simp [parents]
  | cons x l ih =>
    rw [parents, List.map_cons, List.cons_eq_cons, ih, Prod.mk.injEq]
    constructor
    · rintro ⟨⟨-, hx⟩, hl⟩ u y w huw
      cases u with
      | nil =>
        obtain ⟨rfl, rfl⟩ := List.cons.inj huw
        exact hx
      | cons z u =>
        obtain ⟨rfl, rfl⟩ := List.cons.inj huw
        simpa using hl u y w rfl
    · intro hall
      refine ⟨⟨rfl, hall [] x l rfl⟩, fun u y w huw => ?_⟩
      simpa using hall (x :: u) y w (by rw [huw]; rfl)

section Lower
variable {v' : β → Nat} {cut : β → Bool} {d : Nat} {p : β} {a b s c mid rest : List β} {parentOf : β → Option β}

/-- Values lowered by `d` or, where the cut is, by one more: the parents of the elements after `x` stay exactly when
no parent comes level with its child and nothing between the two comes below the child. -/
theorem parents_lower_iff (hnodup : (x :: b).Nodup) (hrest : ∀ z ∈ x :: b, z ∉ rest)
    (hcut : ∀ z ∈ x :: b, v' z + d + (if cut z then 1 else 0) = v z)
    (hold : parents v [x] b = b.map fun k => (k, parentOf k)) (hb : ∀ z ∈ b, v x < v z) :
    parents v' (x :: rest) b = b.map (fun k => (k, parentOf k)) ↔
      ∀ u y w, b = u ++ y :: w → ∀ l q l', x :: u = l ++ q :: l' → parentOf y = some q →
        (cut y = true → cut q = false → v q + 1 < v y) ∧ ∀ z ∈ l', cut z = true → cut y = false → v y < v z := by
  rw [parents_eq_map_iff] at hold ⊢
  have hstep : ∀ u y w, b = u ++ y :: w → (parent v' (u.reverse ++ x :: rest) (v' y) = parentOf y ↔
      ∀ l q l', x :: u = l ++ q :: l' → parentOf y = some q →
        (cut y = true → cut q = false → v q + 1 < v y) ∧ ∀ z ∈ l', cut z = true → cut y = false → v y < v z) := by
    intro u y w huw
    obtain ⟨q, hq⟩ : ∃ q, parent v (u.reverse ++ [x]) (v y) = some q := by
      cases hp : parent v (u.reverse ++ [x]) (v y) with
      | none =>
        have hle := parent_eq_none.mp hp x (by simp)
        have hlt := hb y (by simp [huw])
        omega
      | some q => exact ⟨q, rfl⟩
    obtain ⟨l, l', hsplit, hlt, hge⟩ := parent_eq_some.mp hq
    have hxu : x :: u = l'.reverse ++ q :: l.reverse := by simpa using congrArg List.reverse hsplit
    have hmem : ∀ z ∈ l ++ q :: l', z ∈ x :: b := by
      intro z hz
      rw [← hsplit] at hz
      simp only [List.mem_append, List.mem_reverse, List.mem_singleton] at hz
      rw [huw, List.mem_cons, List.mem_append]
      exact hz.elim (fun h => .inr (.inl h)) .inl
    have hnodup' : (l'.reverse ++ q :: l.reverse).Nodup := by
      rw [← hxu]
      refine hnodup.sublist (List.cons_sublist_cons.mpr ?_)
      rw [huw]
      exact List.sublist_append_left ..
    obtain ⟨-, hql, hdisjoint⟩ := List.nodup_append.mp hnodup'
    have hnotin : q ∉ l := fun h => (List.nodup_cons.mp hql).1 (List.mem_reverse.mpr h)
    have hnotin' : q ∉ l' := fun h => hdisjoint q (List.mem_reverse.mpr h) q List.mem_cons_self rfl
    have hl : ∀ z ∈ l, id z ≠ id q := by
      rintro z hz rfl
      exact hnotin hz
    have hl' : ∀ z ∈ l' ++ rest, id z ≠ id q := by
      rintro z hz rfl
      obtain hz | hz := List.mem_append.mp hz
      · exact hnotin' hz
      · exact hrest _ (hmem _ (by simp)) hz
    have hparent := parent_map_iff id hl hl' (v := v') (n := v' y)
    have hbefore : u.reverse ++ x :: rest = l ++ q :: (l' ++ rest) := by
      rw [List.append_cons, hsplit, List.append_assoc]
      rfl
    have hy := hcut y (by simp [huw])
    have hq' := hcut q (hmem q (by simp))
    rw [← hold u y w huw, hq, hbefore]
    rw [Option.map_id, id] at hparent
    refine hparent.trans ⟨?_, fun hall => ?_⟩
    · rintro ⟨hlow, hbetween⟩ k q' k' hk hqq
      obtain rfl := Option.some.inj hqq
      rw [hxu] at hk
      obtain ⟨-, -, rfl⟩ := (List.append_cons_inj_of_notMem (fun h => hnotin' (List.mem_reverse.mp h))
        (fun h => hnotin (List.mem_reverse.mp h))).mp hk
      refine ⟨fun hcy hcq => ?_, fun z hz hcz hcy => ?_⟩
      · simp only [hcy, hcq, if_true, Bool.false_eq_true, if_false] at hy hq'
        omega
      · rw [List.mem_reverse] at hz
        have hle := hbetween z hz
        have hz' := hcut z (hmem z (List.mem_append_left _ hz))
        simp only [hcz, hcy, if_true, Bool.false_eq_true, if_false] at hy hz'
        omega
    · obtain ⟨hlow, hbetween⟩ := hall _ q _ hxu rfl
      refine ⟨?_, fun z hz => ?_⟩
      · cases hcy : cut y <;> cases hcq : cut q <;>
          simp only [hcy, hcq, if_true, Bool.false_eq_true, if_false] at hy hq' hlow
        all_goals try simp only [true_imp_iff] at hlow
        all_goals omega
      · have hge' := hge z hz
        have hz' := hcut z (hmem z (List.mem_append_left _ hz))
        have hbelow := hbetween z (List.mem_reverse.mpr hz)
        cases hcy : cut y <;> cases hcz : cut z <;>
          simp only [hcy, hcz, if_true, Bool.false_eq_true, if_false] at hy hz' hbelow
        all_goals try simp only [true_imp_iff] at hbelow
        all_goals omega
  exact forall_congr' fun u => forall_congr' fun y => forall_congr' fun w => forall_congr' fun huw => hstep u y w huw

theorem lower_above (hold : parents v [x] b = b.map fun k => (k, parentOf k)) (hb : ∀ z ∈ b, v x < v z)
    (hnew : parents v' (x :: rest) b = b.map fun k => (k, parentOf k)) : ∀ z ∈ b, v' x < v' z := by
  rw [parents_eq_map_iff] at hold hnew
  have hfirst : ∀ u w, b = u ++ w → ∀ z ∈ u, v' x < v' z := by
    intro u
    induction u using List.reverseRecOn with
    | nil => exact fun _ _ _ hz => absurd hz List.not_mem_nil
    | append_singleton u y ih =>
      intro w huw z hz
      have hu := ih (y :: w) (by rw [huw, List.append_assoc]; rfl)
      have huw' : b = u ++ y :: w := by rw [huw, List.append_assoc]; rfl
      obtain hz | hz := List.mem_append.mp hz
      · exact hu z hz
      · rw [List.mem_singleton.mp hz]
        have hparent := hold u y w huw'
        rw [← hnew u y w huw'] at hparent
        cases hq : parent v (u.reverse ++ [x]) (v y) with
        | none =>
          have hle := parent_eq_none.mp hq x (by simp)
          have hlt := hb y (by simp [huw'])
          omega
        | some q =>
          rw [hq] at hparent
          have hlt : v' q < v' y := by simpa using List.find?_some hparent.symm
          have hmem := List.mem_of_find?_eq_some hq
          simp only [List.mem_append, List.mem_reverse, List.mem_singleton] at hmem
          obtain hmem | rfl := hmem
          · exact (hu q hmem).trans hlt
          · exact hlt
  exact hfirst b [] (List.append_nil b).symm

theorem parent_pred {n : Nat} (hnodup : before.Nodup) : parent v before n = parent v before (n + 1) ↔
    ∀ q ∈ parent v before (n + 1), v q < n := by
  cases hq : parent v before (n + 1) with
  | none =>
    have hall := parent_eq_none.mp hq
    simp only [Option.not_mem_none, false_imp_iff, implies_true, iff_true]
    exact parent_eq_none.mpr fun y hy => (Nat.le_succ n).trans (hall y hy)
  | some q =>
    obtain ⟨l, l', rfl, hlt, hge⟩ := parent_eq_some.mp hq
    obtain ⟨-, hql, hdisjoint⟩ := List.nodup_append.mp hnodup
    have hl : ∀ z ∈ l, id z ≠ id q := fun z hz => hdisjoint z hz q List.mem_cons_self
    have hl' : ∀ z ∈ l', id z ≠ id q := by
      rintro z hz rfl
      exact (List.nodup_cons.mp hql).1 hz
    have hparent := parent_map_iff id hl hl' (v := v) (n := n)
    rw [Option.map_id, id] at hparent
    refine hparent.trans ?_
    constructor
    · rintro ⟨hlow, -⟩ z hz
      rw [← Option.mem_some_iff.mp hz]
      exact hlow
    · exact fun h => ⟨h q rfl, fun y hy => (Nat.le_succ n).trans (hge y hy)⟩

theorem parents_under (hs : ∀ z ∈ s, v p < v z) (hx : v p < v x) (hb : ∀ z ∈ b, v x < v z) (hmid : ∀ z ∈ mid, v p < v z)
    (hhead : ∀ z ∈ mid.head?, v z ≤ v x) (hc : ∀ z ∈ c.head?, v z ≤ v p)
    (hold : parents v [] (a ++ (p :: s ++ (x :: b ++ (mid ++ c)))) =
      (a ++ (p :: s ++ (x :: b ++ (mid ++ c)))).map fun k => (k, parentOf k)) :
    parents v [] (a ++ (p :: s ++ mid)) = (a ++ (p :: s ++ mid)).map (fun k => (k, parentOf k)) ∧
      parent v a.reverse (v p) = parentOf p ∧ parents v [x] b = b.map (fun k => (k, parentOf k)) ∧
      parents v a.reverse c = c.map fun k => (k, parentOf k) := by
  have hunder : ∀ z ∈ s ++ (x :: b ++ mid), v p < v z := by
    intro z hz
    simp only [List.mem_append, List.mem_cons] at hz
    obtain hz | (rfl | hz) | hz := hz
    · exact hs z hz
    · exact hx
    · exact hx.trans (hb z hz)
    · exact hmid z hz
  have hlist : a ++ (p :: s ++ (x :: b ++ (mid ++ c))) = a ++ (p :: (s ++ (x :: b ++ mid)) ++ c) := by simp
  rw [hlist, parents_append, List.append_nil, parents_block hunder hc, parents_append _ s,
    parents_block hb hhead] at hold
  simp only [List.map_append, List.map_cons, List.cons_append] at hold
  obtain ⟨ha, hold⟩ := List.append_inj hold (by simp)
  obtain ⟨hp, hold⟩ := List.cons.inj hold
  obtain ⟨hin, hcc⟩ := List.append_inj hold (by simp)
  obtain ⟨hps, hin⟩ := List.append_inj hin (by simp)
  obtain ⟨-, hin⟩ := List.cons.inj hin
  obtain ⟨hbx, hm⟩ := List.append_inj hin (by simp)
  refine ⟨?_, (Prod.mk.inj hp).2, hbx, hcc⟩
  have hstay : ∀ z ∈ s ++ mid, v p < v z := by
    intro z hz
    exact (List.mem_append.mp hz).elim (hs z) (hmid z)
  rw [parents_append, List.append_nil, List.cons_append, parents, parents_inside hstay, parents_append _ s, ha, hp, hps,
    hm]
  simp only [List.map_append, List.map_cons]

/-- The block comes behind `mid`, lowered to the value of `p` or one below it. -/
theorem parents_outdent_iff [DecidableEq β] (hnodup : (a ++ (p :: s ++ (x :: b ++ (mid ++ c)))).Nodup)
    (hs : ∀ z ∈ s, v p < v z) (hx : v p < v x) (hb : ∀ z ∈ b, v x < v z) (hmid : ∀ z ∈ mid, v p < v z)
    (hhead : ∀ z ∈ mid.head?, v z ≤ v x) (hc : ∀ z ∈ c.head?, v z ≤ v p)
    (hsame : ∀ z ∈ a ++ (p :: s ++ (mid ++ c)), v' z = v z)
    (hcut : ∀ z ∈ x :: b, v' z + (v x - v p) + (if cut z then 1 else 0) = v z)
    (hold : parents v [] (a ++ (p :: s ++ (x :: b ++ (mid ++ c)))) =
      (a ++ (p :: s ++ (x :: b ++ (mid ++ c)))).map fun k => (k, parentOf k)) :
    parents v' [] (a ++ (p :: s ++ (mid ++ (x :: b ++ c)))) = (a ++ (p :: s ++ (mid ++ (x :: b ++ c)))).map
        (fun k => (k, if k = x then parentOf p else parentOf k)) ↔
      (cut x = true → (∀ q ∈ parentOf p, v q + 1 < v p) ∧ ∀ z ∈ c.head?, v z < v p) ∧
      ∀ u y w, b = u ++ y :: w → ∀ l q l', x :: u = l ++ q :: l' → parentOf y = some q →
        (cut y = true → cut q = false → v q + 1 < v y) ∧ ∀ z ∈ l', cut z = true → cut y = false → v y < v z := by
  obtain ⟨hbefore, hp, hbx, hcc⟩ := parents_under hs hx hb hmid hhead hc hold
  have hlist : a ++ (p :: s ++ (mid ++ (x :: b ++ c))) = (a ++ (p :: s ++ mid)) ++ (x :: b ++ c) := by simp
  have hperm : (a ++ (p :: s ++ (x :: b ++ (mid ++ c)))).Perm ((a ++ (p :: s ++ mid)) ++ (x :: b ++ c)) := by
    rw [← hlist]
    refine List.Perm.append_left _ (List.Perm.append_left _ ?_)
    rw [← List.append_assoc, ← List.append_assoc]
    exact List.perm_append_comm.append_right _
  have hnodup' := hperm.nodup_iff.mp hnodup
  obtain ⟨hnodupB, hnodupX, hdisjoint⟩ := List.nodup_append.mp hnodup'
  obtain ⟨hnodupX, hnodupC, hdisjointC⟩ := List.nodup_append.mp hnodupX
  have hsame' : ∀ z ∈ a ++ (p :: s ++ mid), v' z = v z := by
    intro z hz
    have hsplit : a ++ (p :: s ++ (mid ++ c)) = (a ++ (p :: s ++ mid)) ++ c := by simp
    exact hsame z (hsplit ▸ List.mem_append_left _ hz)
  have hmap : ∀ l : List β, x ∉ l → l.map (fun k => (k, if k = x then parentOf p else parentOf k)) =
      l.map fun k => (k, parentOf k) := by
    intro l hl
    refine List.map_congr_left fun k hk => ?_
    have hne : k ≠ x := fun h => hl (h ▸ hk)
    rw [if_neg hne]
  have hxB : x ∉ a ++ (p :: s ++ mid) := fun h => hdisjoint x h x (by simp) rfl
  have hxb : x ∉ b := (List.nodup_cons.mp hnodupX).1
  have hxc : x ∉ c := fun h => hdisjointC x (by simp) x h rfl
  rw [hlist, parents_append, List.append_nil, List.map_append, hmap _ hxB,
    parents_congr (fun z hz => absurd hz List.not_mem_nil) hsame', hbefore, List.append_cancel_left_eq]
  have hge : ∀ z ∈ (p :: s ++ mid).reverse, v p ≤ v' z := by
    intro z hz
    rw [List.mem_reverse] at hz
    rw [hsame' z (List.mem_append_right _ hz)]
    simp only [List.cons_append, List.mem_cons, List.mem_append] at hz
    obtain rfl | hz | hz := hz
    · exact le_rfl
    · exact (hs z hz).le
    · exact (hmid z hz).le
  have hfar : ∀ z ∈ a.reverse, v' z = v z := fun z hz => hsame' z (List.mem_append_left _ (List.mem_reverse.mp hz))
  have hrest : ∀ z ∈ x :: b, z ∉ (a ++ (p :: s ++ mid)).reverse := by
    intro z hz hmem
    exact hdisjoint z (List.mem_reverse.mp hmem) z (List.mem_append_left _ hz) rfl
  have hB := parents_lower_iff hnodupX hrest hcut hbx hb
  have habove : parents v' (x :: (a ++ (p :: s ++ mid)).reverse) b = b.map (fun k => (k, parentOf k)) →
      ∀ z ∈ b, v' x < v' z := lower_above hbx hb
  have hcutx := hcut x List.mem_cons_self
  have hX : parent v' (a ++ (p :: s ++ mid)).reverse (v' x) = parentOf p ↔
      (cut x = true → ∀ q ∈ parentOf p, v q + 1 < v p) := by
    have hle : v' x ≤ v p := by omega
    have hnone : parent v' (p :: s ++ mid).reverse (v' x) = none :=
      parent_eq_none.mpr fun z hz => hle.trans (hge z hz)
    have hsplit : (a ++ (p :: s ++ mid)).reverse = (p :: s ++ mid).reverse ++ a.reverse := List.reverse_append
    have hsearch : parent v' a.reverse (v' x) = parent v a.reverse (v' x) :=
      List.find?_congr fun z hz => by rw [hfar z hz]
    rw [hsplit, parent_append, hnone, Option.none_or, hsearch, ← hp]
    cases hcx : cut x with
    | false =>
      simp only [hcx, Bool.false_eq_true, if_false] at hcutx
      have heq : v' x = v p := by omega
      simp [heq]
    | true =>
      simp only [hcx, if_true] at hcutx
      have hsucc : v p = v' x + 1 := by omega
      have hnodupA : a.reverse.Nodup := (List.reverse_perm a).nodup_iff.mpr (List.nodup_append.mp hnodupB).1
      rw [hsucc, parent_pred hnodupA]
      exact ⟨fun h _ q hq => Nat.succ_lt_succ (h q hq), fun h q hq => Nat.lt_of_succ_lt_succ (h rfl q hq)⟩
  have hC : (∀ z ∈ b, v' x < v' z) → (parents v' (b.reverse ++ x :: (a ++ (p :: s ++ mid)).reverse) c =
      c.map (fun k => (k, parentOf k)) ↔ (cut x = true → ∀ z ∈ c.head?, v z < v p)) := by
    intro hgreater
    have hsamec : ∀ z ∈ c, v' z = v z := by
      intro z hz
      refine hsame z (List.mem_append_right _ (List.mem_append_right _ (List.mem_append_right _ hz)))
    have hsplit : b.reverse ++ x :: (a ++ (p :: s ++ mid)).reverse =
        (b.reverse ++ x :: (p :: s ++ mid).reverse) ++ a.reverse := by simp
    have hlow : ∀ z ∈ b.reverse ++ x :: (p :: s ++ mid).reverse, v' x ≤ v' z := by
      intro z hz
      obtain hz | hz := List.mem_append.mp hz
      · exact (hgreater z (List.mem_reverse.mp hz)).le
      · obtain rfl | hz := List.mem_cons.mp hz
        · exact le_rfl
        · have hle := hge z hz
          omega
    have hgood : (∀ z ∈ c.head?, v' z ≤ v' x) → parents v' (b.reverse ++ x :: (a ++ (p :: s ++ mid)).reverse) c =
        c.map fun k => (k, parentOf k) := by
      intro hle
      rw [hsplit, parents_skip hlow hle, parents_congr hfar hsamec, hcc]
    cases hcx : cut x with
    | false =>
      simp only [hcx, Bool.false_eq_true, if_false] at hcutx
      have hall := hgood fun z hz => by
        have hle := hc z hz
        rw [hsamec z (List.mem_of_mem_head? hz)]
        omega
      exact ⟨fun _ h => absurd h Bool.false_ne_true, fun _ => hall⟩
    | true =>
      simp only [hcx, if_true] at hcutx
      constructor
      · intro hnew _ z hz
        by_contra hge'
        obtain ⟨c', rfl⟩ : ∃ c', c = z :: c' := by
          cases c with
          | nil => cases hz
          | cons z' c' => exact ⟨c', by rw [Option.mem_some_iff.mp hz]⟩
        have hz' := hsamec z List.mem_cons_self
        have hparent := (Prod.mk.inj (List.cons.inj hnew).1).2.trans (Prod.mk.inj (List.cons.inj hcc).1).2.symm
        rw [hsplit, parent_append] at hparent
        -- `x` is nearer, and below.
        cases hq : parent v' (b.reverse ++ x :: (p :: s ++ mid).reverse) (v' z) with
        | none =>
          have hle := parent_eq_none.mp hq x (by simp)
          omega
        | some q =>
          rw [hq, Option.some_or] at hparent
          have hqa : q ∈ a := List.mem_reverse.mp (List.mem_of_find?_eq_some hparent.symm)
          obtain hmem | hmem := List.mem_append.mp (List.mem_of_find?_eq_some hq)
          · have hqx : q ∈ x :: b ++ z :: c' := by simp [List.mem_reverse.mp hmem]
            exact hdisjoint q (List.mem_append_left _ hqa) q hqx rfl
          · obtain rfl | hmem := List.mem_cons.mp hmem
            · exact hdisjoint q (List.mem_append_left _ hqa) q (by simp) rfl
            · exact (List.nodup_append.mp hnodupB).2.2 q hqa q (List.mem_reverse.mp hmem) rfl
      · intro hhead
        refine hgood fun z hz => ?_
        have hlt := hhead rfl z hz
        rw [hsamec z (List.mem_of_mem_head? hz)]
        omega
  have hcons : x :: b ++ c = x :: (b ++ c) := rfl
  rw [hcons, parents, parents_append, List.map_cons, List.map_append, hmap b hxb, hmap c hxc, if_pos rfl]
  constructor
  · intro hnew
    obtain ⟨hx', hnew⟩ := List.cons.inj hnew
    obtain ⟨hb', hc'⟩ := List.append_inj hnew (by simp)
    have hcx := hX.mp (Prod.mk.inj hx').2
    have hcc := (hC (habove hb')).mp hc'
    exact ⟨fun hcut => ⟨hcx hcut, hcc hcut⟩, hB.mp hb'⟩
  · rintro ⟨htop, hblock⟩
    have hb' := hB.mpr hblock
    rw [hX.mpr fun hcut => (htop hcut).1, hb', (hC (habove hb')).mpr fun hcut => (htop hcut).2]

end Lower

end NearestSmaller
