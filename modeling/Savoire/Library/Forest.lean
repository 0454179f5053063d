import Mathlib.Data.List.Chain
import Mathlib.Data.List.Nodup
import Mathlib.Logic.Function.Basic

/-! Parent references: what they lead to, the search of what is below, the way up to a cycle, and
the tree below a root. -/
namespace Forest
variable {α : Type*}

/-- Following the references from `a` leads to `r`. -/
inductive Leads (parent : α → Option α) (r : α) : α → Prop
  | here : Leads parent r r
  | up {a p : α} : parent a = some p → Leads parent r p → Leads parent r a

variable {parent parent' : α → Option α} {r a b p : α}

theorem Leads.trans (ha : Leads parent b a) (hb : Leads parent r b) : Leads parent r a := by
  induction ha with
  | here => exact hb
  | up hp _ ih => exact .up hp ih

theorem Leads.congr (h : Leads parent r a)
    (hsame : ∀ x, x ≠ r → Leads parent r x → parent' x = parent x) : Leads parent' r a := by
  classical
  induction h with
  | here => exact .here
  | up hp hr ih =>
    rename_i x p
    by_cases hx : x = r
    · rw [hx]
      exact .here
    · exact .up ((hsame x hx (.up hp hr)).trans hp) ih

theorem Leads.cases_ne (h : Leads parent r a) (hne : a ≠ r) : ∃ p, parent a = some p ∧ Leads parent r p := by
  cases h with
  | here => exact absurd rfl hne
  | up hp hr => exact ⟨_, hp, hr⟩

theorem leads_of_isChain {l : List α} (h : (l ++ [b]).IsChain fun x y => parent x = some y) (ha : a ∈ l) :
    Leads parent b a := by
  induction l generalizing a with
  | nil => simp at ha
  | cons x l ih =>
    rw [List.cons_append, List.isChain_cons] at h
    obtain ⟨hhead, htail⟩ := h
    obtain rfl | hal := List.mem_cons.1 ha
    · cases l with
      | nil => exact .up (hhead b (by simp)) .here
      | cons y l => exact .up (hhead y (by simp)) (ih htail List.mem_cons_self)
    · exact ih htail hal

theorem leads_of_cycle [BEq α] [LawfulBEq α] {l : List α} {x : α}
    (h : (l ++ [b]).IsChain fun x y => parent x = some y) (hb : b ∈ l) (ha : a ∈ l)
    (hx : x ∈ l.drop (l.idxOf b)) : Leads parent x a := by
  have hback : Leads parent b a := leads_of_isChain h ha
  have hcycle : l.drop (l.idxOf b) = b :: l.drop (l.idxOf b + 1) := by
    rw [List.drop_eq_getElem_cons (List.idxOf_lt_length_of_mem hb), List.getElem_idxOf]
  rw [hcycle] at hx
  obtain rfl | hx := List.mem_cons.1 hx
  · exact hback
  · obtain ⟨s, t, hst⟩ := List.append_of_mem hx
    have hround : ((b :: s) ++ [x]).IsChain fun x y => parent x = some y := by
      have hdrop := h.left_of_append.drop (l.idxOf b)
      have hsplit : l.drop (l.idxOf b) = (b :: s) ++ [x] ++ t := by rw [hcycle, hst]; simp
      rw [hsplit] at hdrop
      exact List.IsChain.left_of_append hdrop
    exact hback.trans (leads_of_isChain hround List.mem_cons_self)

section Search
variable [DecidableEq α]

/-- The children that are new are reached and wait. -/
def visit : List α → List α → List α → List α × List α
  | reached, stack, [] => (reached, stack)
  | reached, stack, c :: cs =>
    if c ∈ reached then visit reached stack cs else visit (reached ++ [c]) (c :: stack) cs

/-- Reaches what is below the stack; at most `n` of those that wait are taken. -/
def search (children : α → List α) : Nat → List α → List α → List α
  | 0, reached, _ => reached
  | _+1, reached, [] => reached
  | n+1, reached, a :: stack =>
    let next := visit reached stack (children a)
    search children n next.1 next.2

variable {reached stack cs all : List α} {children : α → List α}

theorem mem_visit_reached (x : α) : x ∈ (visit reached stack cs).1 ↔ x ∈ reached ∨ x ∈ cs := by
  induction cs generalizing reached stack with
  | nil => simp [visit]
  | cons c cs ih =>
    by_cases hc : c ∈ reached
    · simp only [visit, hc, ↓reduceIte, ih, List.mem_cons]
      constructor
      · tauto
      · rintro (h | rfl | h)
        · exact .inl h
        · exact .inl hc
        · exact .inr h
    · simp only [visit, hc, ↓reduceIte, ih, List.mem_append, List.mem_cons, List.not_mem_nil, or_false,
        or_assoc]

theorem mem_visit_stack (x : α) (h : x ∈ (visit reached stack cs).2) : x ∈ stack ∨ x ∈ cs := by
  induction cs generalizing reached stack with
  | nil => exact .inl h
  | cons c cs ih =>
    rw [visit] at h
    split_ifs at h
    · exact (ih h).imp_right (List.mem_cons_of_mem c)
    · obtain h | h := ih h
      · obtain rfl | h := List.mem_cons.1 h
        · exact .inr List.mem_cons_self
        · exact .inl h
      · exact .inr (List.mem_cons_of_mem c h)

theorem visit_keeps : stack ⊆ (visit reached stack cs).2 := by
  induction cs generalizing reached stack with
  | nil => exact fun _ h => h
  | cons c cs ih =>
    rw [visit]
    split_ifs
    · exact ih
    · exact fun x hx => ih (List.mem_cons_of_mem c hx)

theorem visit_waits (x : α) (h : x ∈ (visit reached stack cs).1) (hr : x ∉ reached) :
    x ∈ (visit reached stack cs).2 := by
  induction cs generalizing reached stack with
  | nil => exact absurd h hr
  | cons c cs ih =>
    rw [visit] at h ⊢
    split_ifs at h ⊢ with hc
    · exact ih h hr
    · by_cases hx : x = c
      · exact visit_keeps (hx ▸ List.mem_cons_self)
      · exact ih h (by simp [hr, hx])

theorem stack_subset_visit (h : stack ⊆ reached) :
    (visit reached stack cs).2 ⊆ (visit reached stack cs).1 := by
  intro x hx
  rw [mem_visit_reached]
  exact (mem_visit_stack x hx).imp_left (@h x)

theorem visit_length : (visit reached stack cs).2.length + reached.length =
    stack.length + (visit reached stack cs).1.length := by
  induction cs generalizing reached stack with
  | nil => rfl
  | cons c cs ih =>
    rw [visit]
    split_ifs
    · exact ih
    · have h := @ih (reached ++ [c]) (c :: stack)
      simp only [List.length_append, List.length_cons, List.length_nil] at h
      omega

theorem visit_nodup (h : reached.Nodup) : (visit reached stack cs).1.Nodup := by
  induction cs generalizing reached stack with
  | nil => exact h
  | cons c cs ih =>
    rw [visit]
    split_ifs with hc
    · exact ih h
    · exact ih (h.append (List.nodup_singleton c) (by simpa using hc))

structure Searching (children : α → List α) (all reached stack : List α) : Prop where
  nodup : reached.Nodup
  within : reached ⊆ all
  waiting : stack ⊆ reached
  closed : ∀ x ∈ reached, x ∉ stack → children x ⊆ reached

theorem Searching.visit {a : α} (h : Searching children all reached (a :: stack))
    (hall : ∀ x ∈ all, children x ⊆ all) :
    Searching children all (visit reached stack (children a)).1 (visit reached stack (children a)).2 where
  nodup := visit_nodup h.nodup
  within x hx := by
    obtain hx | hx := (mem_visit_reached x).1 hx
    · exact h.within hx
    · exact hall a (h.within (h.waiting List.mem_cons_self)) hx
  waiting := stack_subset_visit fun x hx => h.waiting (List.mem_cons_of_mem a hx)
  closed x hx hwait c hc := by
    rw [mem_visit_reached]
    by_cases hr : x ∈ reached
    · by_cases hxa : x = a
      · exact .inr (hxa ▸ hc)
      · have hstack : x ∉ a :: stack := by
          rw [List.mem_cons, not_or]
          exact ⟨hxa, fun hs => hwait (visit_keeps hs)⟩
        exact .inl (h.closed x hr hstack hc)
    · exact absurd (visit_waits x hx hr) hwait

theorem search_spec {n : Nat} (h : Searching children all reached stack)
    (hall : ∀ x ∈ all, children x ⊆ all) (hn : stack.length + all.length ≤ n + reached.length) :
    Searching children all (search children n reached stack) [] := by
  induction n generalizing reached stack with
  | zero =>
    have hlen := h.nodup.length_le_of_subset h.within
    have hnil : stack = [] := List.length_eq_zero_iff.1 (by omega)
    subst hnil
    exact h
  | succ n ih =>
    cases stack with
    | nil => exact h
    | cons a stack =>
      have hlen := @visit_length _ _ reached stack (children a)
      rw [List.length_cons] at hn
      exact ih (h.visit hall) (by omega)

theorem subset_search (n : Nat) : reached ⊆ search children n reached stack := by
  induction n generalizing reached stack with
  | zero => exact fun _ h => h
  | succ n ih =>
    cases stack with
    | nil => exact fun _ h => h
    | cons a stack => exact fun x hx => ih ((mem_visit_reached x).2 (.inl hx))

theorem search_induction {P : α → Prop} (hchild : ∀ a, P a → ∀ c ∈ children a, P c) (n : Nat)
    (hreached : ∀ x ∈ reached, P x) (hstack : ∀ x ∈ stack, P x) :
    ∀ x ∈ search children n reached stack, P x := by
  induction n generalizing reached stack with
  | zero => exact hreached
  | succ n ih =>
    cases stack with
    | nil => exact hreached
    | cons a stack =>
      have hvisit : ∀ x, x ∈ children a → P x := hchild a (hstack a List.mem_cons_self)
      refine ih (fun x hx => ?_) (fun x hx => ?_)
      · exact ((mem_visit_reached x).1 hx).elim (hreached x) (hvisit x)
      · exact (mem_visit_stack x hx).elim (fun hx => hstack x (List.mem_cons_of_mem a hx)) (hvisit x)

/-- Follows the references from `a` until a stop or something seen before; at most `n` steps. -/
def walk (next : α → α) (stop : List α) : Nat → List α → α → List α × α
  | 0, path, a => (path, a)
  | n+1, path, a => if a ∈ stop ∨ a ∈ path then (path, a) else walk next stop n (path ++ [a]) (next a)

theorem walk_spec {next : α → α} {stop path : List α} (n : Nat) (hnext : ∀ x ∈ all, next x ∈ all)
    (hstop : ∀ x ∈ all, x ∉ stop) (ha : a ∈ all) (hnd : path.Nodup) (hpath : path ⊆ all)
    (hchain : (path ++ [a]).IsChain fun x y => next x = y) (hn : all.length < n + path.length) :
    ∃ l b, walk next stop n path a = (l, b) ∧ path <+: l ∧ b ∈ l ∧ l ⊆ all ∧
      (l ++ [b]).IsChain fun x y => next x = y := by
  induction n generalizing path a with
  | zero =>
    have hlen := hnd.length_le_of_subset hpath
    omega
  | succ n ih =>
    by_cases hmem : a ∈ path
    · exact ⟨path, a, by simp [walk, hmem], List.prefix_refl path, hmem, hpath, hchain⟩
    · have hnd' : (path ++ [a]).Nodup := hnd.append (List.nodup_singleton a) (by simpa using hmem)
      have hpath' : path ++ [a] ⊆ all := by
        intro x hx
        obtain hx | hx := List.mem_append.1 hx
        · exact hpath hx
        · exact List.mem_singleton.1 hx ▸ ha
      have hchain' : (path ++ [a] ++ [next a]).IsChain fun x y => next x = y := by
        refine hchain.append (List.isChain_singleton _) ?_
        simp
      obtain ⟨l, b, hwalk, hpre, hb, hl, hch⟩ := ih (hnext a ha) hnd' hpath' hchain' (by
        simp only [List.length_append, List.length_cons, List.length_nil]
        omega)
      refine ⟨l, b, ?_, (List.prefix_append path [a]).trans hpre, hb, hl, hch⟩
      rw [walk, if_neg (by simp [hstop a ha, hmem]), hwalk]

end Search

inductive Tree (β : Type*)
  | node (value : β) (children : List (Tree β))

namespace Tree
variable {β γ : Type*}

mutual
/-- The values, each before those below it. -/
def values : Tree β → List β
  | .node v ts => v :: valuesAll ts

def valuesAll : List (Tree β) → List β
  | [] => []
  | t :: ts => values t ++ valuesAll ts
end

theorem valuesAll_eq (ts : List (Tree β)) : valuesAll ts = ts.flatMap values := by
  induction ts with
  | nil => rfl
  | cons t ts ih => rw [valuesAll, ih, List.flatMap_cons]

@[simp] theorem values_node (v : β) (ts : List (Tree β)) : (node v ts).values = v :: ts.flatMap values := by
  rw [values, valuesAll_eq]

end Tree

/-- The tree below `a`, of depth at most `n`. -/
def build {β : Type*} (value : α → β) (children : α → List α) : Nat → α → Tree β
  | 0, a => .node (value a) []
  | n+1, a => .node (value a) ((children a).map (build value children n))

/-- What the references give after `i` steps. -/
def up (parent : α → Option α) : Nat → α → Option α
  | 0, a => some a
  | i+1, a => (parent a).bind (up parent i)

section Up

theorem up_add (parent : α → Option α) (i j : Nat) (a : α) :
    up parent (i + j) a = (up parent i a).bind (up parent j) := by
  induction i generalizing a with
  | zero => simp [up]
  | succ i ih =>
    rw [Nat.add_right_comm, up, up]
    cases parent a with
    | none => rfl
    | some p => exact ih p

theorem up_succ (parent : α → Option α) (i : Nat) (a : α) :
    up parent (i + 1) a = (up parent i a).bind parent := by
  rw [up_add]
  congr 1
  simp [up]

theorem Leads.up_eq (h : Leads parent r a) : ∃ i, Forest.up parent i a = some r := by
  induction h with
  | here => exact ⟨0, rfl⟩
  | up hp _ ih =>
    obtain ⟨i, hi⟩ := ih
    exact ⟨i + 1, by rw [Forest.up, hp, Option.bind_some, hi]⟩

theorem leads_of_up {i : Nat} (h : up parent i a = some r) : Leads parent r a := by
  induction i generalizing a with
  | zero =>
    obtain rfl := Option.some.inj h
    exact .here
  | succ i ih =>
    obtain ⟨p, hp, hup⟩ := Option.bind_eq_some_iff.1 h
    exact .up hp (ih hup)

theorem up_root (hr : parent r = none) {i : Nat} (h : up parent i r = some r) : i = 0 := by
  cases i with
  | zero => rfl
  | succ i => simp [up, hr] at h

theorem depth_unique (hr : parent r = none) {i j : Nat} (hi : up parent i a = some r)
    (hj : up parent j a = some r) : i = j := by
  obtain h | h := Nat.le_total i j
  · obtain ⟨k, rfl⟩ := Nat.exists_eq_add_of_le h
    rw [up_add, hi, Option.bind_some] at hj
    rw [up_root hr hj, Nat.add_zero]
  · obtain ⟨k, rfl⟩ := Nat.exists_eq_add_of_le h
    rw [up_add, hj, Option.bind_some] at hi
    rw [up_root hr hi, Nat.add_zero]

theorem up_self (hr : parent r = none) (ha : Leads parent r a) {i : Nat} (h : up parent i a = some a) :
    i = 0 := by
  obtain ⟨d, hd⟩ := ha.up_eq
  have hround : up parent (i + d) a = some r := by rw [up_add, h, Option.bind_some, hd]
  have := depth_unique hr hround hd
  omega

end Up

section Build
variable {children : α → List α} {all : List α}

/-- What the tree of depth `n` below `a` holds. -/
def below (children : α → List α) (n : Nat) (a : α) : List α := (build id children n a).values

theorem below_zero (a : α) : below children 0 a = [a] := by simp [below, build]

theorem below_succ (n : Nat) (a : α) :
    below children (n + 1) a = a :: (children a).flatMap (below children n) := by
  simp only [below, build, Tree.values_node, id_eq, List.flatMap_map]
  rfl

theorem values_build {β : Type*} (value : α → β) (children : α → List α) (n : Nat) (a : α) :
    (build value children n a).values = (below children n a).map value := by
  induction n generalizing a with
  | zero => simp [build, below_zero]
  | succ n ih =>
    rw [build, Tree.values_node, below_succ, List.map_cons, List.map_flatMap, List.flatMap_map]
    simp only [ih]

variable (hchildren : ∀ p c, c ∈ children p ↔ parent c = some p)
include hchildren

theorem mem_below (n : Nat) (a x : α) :
    x ∈ below children n a ↔ ∃ i ≤ n, up parent i x = some a := by
  induction n generalizing a with
  | zero =>
    rw [below_zero, List.mem_singleton]
    constructor
    · rintro rfl
      exact ⟨0, le_refl 0, rfl⟩
    · rintro ⟨i, hi, h⟩
      obtain rfl : i = 0 := by omega
      exact Option.some.inj h
  | succ n ih =>
    rw [below_succ, List.mem_cons, List.mem_flatMap]
    constructor
    · rintro (rfl | ⟨c, hc, hx⟩)
      · exact ⟨0, by omega, rfl⟩
      · obtain ⟨i, hi, hup⟩ := (ih c).1 hx
        exact ⟨i + 1, by omega, by rw [up_succ, hup, Option.bind_some, (hchildren a c).1 hc]⟩
    · rintro ⟨i, hi, h⟩
      cases i with
      | zero => exact .inl (Option.some.inj h)
      | succ i =>
        rw [up_succ] at h
        obtain ⟨c, hc, hpc⟩ := Option.bind_eq_some_iff.1 h
        exact .inr ⟨c, (hchildren a c).2 hpc, (ih c).2 ⟨i, by omega, hc⟩⟩

theorem below_nodup (hnodup : ∀ p, (children p).Nodup) (hr : parent r = none) (n : Nat)
    (ha : Leads parent r a) : (below children n a).Nodup := by
  induction n generalizing a with
  | zero => simp [below_zero]
  | succ n ih =>
    have hchild : ∀ c ∈ children a, Leads parent r c := fun c hc => .up ((hchildren a c).1 hc) ha
    have hstep : ∀ c ∈ children a, ∀ x ∈ below children n c, ∃ i, up parent i x = some c ∧
        up parent (i + 1) x = some a := by
      intro c hc x hx
      obtain ⟨i, -, hi⟩ := (mem_below hchildren n c x).1 hx
      exact ⟨i, hi, by rw [up_succ, hi, Option.bind_some, (hchildren a c).1 hc]⟩
    rw [below_succ, List.nodup_cons, List.nodup_flatMap]
    refine ⟨fun hmem => ?_, fun c hc => ih (hchild c hc), ?_⟩
    · obtain ⟨c, hc, hx⟩ := List.mem_flatMap.1 hmem
      obtain ⟨i, -, hi⟩ := hstep c hc a hx
      have := up_self hr ha hi
      omega
    · refine (hnodup a).imp_of_mem fun {c c'} hc hc' hne x hx hx' => hne ?_
      obtain ⟨i, hi, hia⟩ := hstep c hc x hx
      obtain ⟨j, hj, hja⟩ := hstep c' hc' x hx'
      obtain ⟨d, hd⟩ := ha.up_eq
      have hdi : up parent (i + 1 + d) x = some r := by rw [up_add, hia, Option.bind_some, hd]
      have hdj : up parent (j + 1 + d) x = some r := by rw [up_add, hja, Option.bind_some, hd]
      have hij := depth_unique hr hdi hdj
      obtain rfl : i = j := by omega
      exact Option.some.inj (hi.symm.trans hj)

theorem depth_lt (hnodup : ∀ p, (children p).Nodup) (hr : parent r = none)
    (hwithin : ∀ x, Leads parent r x → x ∈ all) {d : Nat} (hd : up parent d a = some r) :
    d < all.length := by
  have hlen : ∀ d a, up parent d a = some r → d < (below children d r).length := by
    intro d
    induction d with
    | zero => simp [below_zero]
    | succ d ih =>
      intro a hd
      obtain ⟨p, hp, hdp⟩ := Option.bind_eq_some_iff.1 hd
      have hnew : a ∉ below children d r := by
        intro hmem
        obtain ⟨i, hi, hup⟩ := (mem_below hchildren d r a).1 hmem
        have := depth_unique hr hup hd
        omega
      have hsub : a :: below children d r ⊆ below children (d + 1) r := by
        intro x hx
        obtain rfl | hx := List.mem_cons.1 hx
        · exact (mem_below hchildren _ r x).2 ⟨d + 1, le_refl _, hd⟩
        · obtain ⟨i, hi, hup⟩ := (mem_below hchildren d r x).1 hx
          exact (mem_below hchildren _ r x).2 ⟨i, by omega, hup⟩
      have hle := (List.nodup_cons.2 ⟨hnew, below_nodup hchildren hnodup hr d .here⟩).length_le_of_subset hsub
      have := ih p hdp
      rw [List.length_cons] at hle
      omega
  refine (hlen d a hd).trans_le ?_
  refine (below_nodup hchildren hnodup hr d .here).length_le_of_subset fun x hx => hwithin x ?_
  obtain ⟨i, -, hi⟩ := (mem_below hchildren d r x).1 hx
  exact leads_of_up hi

theorem below_perm (hnodup : ∀ p, (children p).Nodup) (hr : parent r = none) (hall : all.Nodup)
    (hmem : ∀ x, x ∈ all ↔ Leads parent r x) : (below children all.length r).Perm all := by
  refine (List.perm_ext_iff_of_nodup (below_nodup hchildren hnodup hr _ .here) hall).2 fun x => ?_
  rw [mem_below hchildren, hmem]
  constructor
  · rintro ⟨i, -, hi⟩
    exact leads_of_up hi
  · intro hx
    obtain ⟨d, hd⟩ := hx.up_eq
    have := depth_lt hchildren hnodup hr (fun x => (hmem x).2) hd
    exact ⟨d, by omega, hd⟩

end Build

end Forest
