import Mathlib.Data.List.Forall2
import Mathlib.Data.List.Basic

/-! Conditions built with and, or and not over leaves. -/
inductive Condition (α : Type*)
  | and (cs : List (Condition α))
  | or (cs : List (Condition α))
  | not (c : Condition α)
  | leaf (a : α)

namespace Condition
variable {α β γ : Type*}

@[elab_as_elim, induction_eliminator]
theorem ind {P : Condition α → Prop} (and : ∀ cs, (∀ c ∈ cs, P c) → P (.and cs))
    (or : ∀ cs, (∀ c ∈ cs, P c) → P (.or cs)) (not : ∀ c, P c → P (.not c))
    (leaf : ∀ a, P (.leaf a)) : ∀ c, P c
  | .and cs => and cs fun c _ => ind and or not leaf c
  | .or cs => or cs fun c _ => ind and or not leaf c
  | .not c => not c (ind and or not leaf c)
  | .leaf a => leaf a

section Fold
variable (conj : List β → β) (disj : List β → β) (neg : β → β) (atom : α → β)

mutual
/-- Reads a condition from its leaves up. -/
def fold : Condition α → β
  | .and cs => conj (foldAll cs)
  | .or cs => disj (foldAll cs)
  | .not c => neg (fold c)
  | .leaf a => atom a

def foldAll : List (Condition α) → List β
  | [] => []
  | c :: cs => fold c :: foldAll cs
end

variable (cs : List (Condition α))

theorem foldAll_eq_map :
    foldAll conj disj neg atom cs = cs.map (fold conj disj neg atom) := by
  induction cs with
  | nil => rfl
  | cons c cs ih => simp [foldAll, ih]

@[simp] theorem fold_and :
    fold conj disj neg atom (.and cs) = conj (cs.map (fold conj disj neg atom)) := by
  rw [← foldAll_eq_map]
  rfl

@[simp] theorem fold_or :
    fold conj disj neg atom (.or cs) = disj (cs.map (fold conj disj neg atom)) := by
  rw [← foldAll_eq_map]
  rfl

@[simp] theorem fold_not (c : Condition α) :
    fold conj disj neg atom (.not c) = neg (fold conj disj neg atom c) := rfl

end Fold

def leaves : Condition α → List α := fold List.flatten List.flatten id fun a => [a]

@[simp] theorem leaves_and (cs : List (Condition α)) : (and cs).leaves = cs.flatMap leaves := by
  simp [leaves, List.flatMap]
@[simp] theorem leaves_or (cs : List (Condition α)) : (or cs).leaves = cs.flatMap leaves := by
  simp [leaves, List.flatMap]
@[simp] theorem leaves_not (c : Condition α) : (not c).leaves = c.leaves := rfl
@[simp] theorem leaves_leaf (a : α) : (leaf a).leaves = [a] := rfl

def holds (p : α → Bool) : Condition α → Bool := fold (·.all id) (·.any id) (!·) p

variable (p : α → Bool)

@[simp] theorem holds_and (cs : List (Condition α)) :
    (and cs).holds p = cs.all (holds p) := by simp [holds, Function.comp_def]
@[simp] theorem holds_or (cs : List (Condition α)) :
    (or cs).holds p = cs.any (holds p) := by simp [holds, Function.comp_def]
@[simp] theorem holds_not (c : Condition α) : (not c).holds p = !c.holds p := rfl
@[simp] theorem holds_leaf (a : α) : (leaf a).holds p = p a := rfl

theorem holds_congr {p q : α → Bool} (c : Condition α) (h : ∀ a ∈ c.leaves, p a = q a) :
    c.holds p = c.holds q := by
  induction c with
  | and cs ih =>
    rw [holds_and, holds_and, Bool.eq_iff_iff, List.all_eq_true, List.all_eq_true]
    refine forall₂_congr fun c hc => ?_
    rw [ih c hc fun a ha => h a (by rw [leaves_and]; exact List.mem_flatMap_of_mem hc ha)]
  | or cs ih =>
    rw [holds_or, holds_or, Bool.eq_iff_iff, List.any_eq_true, List.any_eq_true]
    refine exists_congr fun c => and_congr_right fun hc => ?_
    rw [ih c hc fun a ha => h a (by rw [leaves_or]; exact List.mem_flatMap_of_mem hc ha)]
  | not c ih => rw [holds_not, holds_not, ih h]
  | leaf a => exact h a List.mem_cons_self

theorem fold_rel (R : β → γ → Prop) {conj disj : List β → β} {neg : β → β} {atom : α → β}
    {conj' disj' : List γ → γ} {neg' : γ → γ} {atom' : α → γ}
    (hand : ∀ bs cs, List.Forall₂ R bs cs → R (conj bs) (conj' cs))
    (hor : ∀ bs cs, List.Forall₂ R bs cs → R (disj bs) (disj' cs))
    (hnot : ∀ b c, R b c → R (neg b) (neg' c)) (c : Condition α)
    (hleaf : ∀ a ∈ c.leaves, R (atom a) (atom' a)) :
    R (fold conj disj neg atom c) (fold conj' disj' neg' atom' c) := by
  have hall : ∀ cs : List (Condition α),
      (∀ c ∈ cs, R (fold conj disj neg atom c) (fold conj' disj' neg' atom' c)) →
      List.Forall₂ R (cs.map (fold conj disj neg atom)) (cs.map (fold conj' disj' neg' atom')) := by
    intro cs h
    rw [List.forall₂_map_left_iff, List.forall₂_map_right_iff]
    exact List.forall₂_same.2 h
  induction c with
  | and cs ih =>
    rw [fold_and, fold_and]
    refine hand _ _ (hall cs fun c hc => ih c hc fun a ha => hleaf a ?_)
    rw [leaves_and]
    exact List.mem_flatMap_of_mem hc ha
  | or cs ih =>
    rw [fold_or, fold_or]
    refine hor _ _ (hall cs fun c hc => ih c hc fun a ha => hleaf a ?_)
    rw [leaves_or]
    exact List.mem_flatMap_of_mem hc ha
  | not c ih => exact hnot _ _ (ih hleaf)
  | leaf a => exact hleaf a List.mem_cons_self

def map (g : α → β) : Condition α → Condition β := fold .and .or .not fun a => .leaf (g a)

variable (g : α → β)

@[simp] theorem map_and (cs : List (Condition α)) : (and cs).map g = and (cs.map (map g)) := by
  simp [map]
@[simp] theorem map_or (cs : List (Condition α)) : (or cs).map g = or (cs.map (map g)) := by
  simp [map]
@[simp] theorem map_not (c : Condition α) : (not c).map g = not (c.map g) := rfl
theorem holds_map (p : β → Bool) (c : Condition α) : (c.map g).holds p = c.holds fun a => p (g a) := by
  induction c with
  | and cs ih =>
    rw [map_and, holds_and, holds_and, List.all_map, Bool.eq_iff_iff, List.all_eq_true, List.all_eq_true]
    refine forall₂_congr fun c hc => ?_
    rw [Function.comp_apply, ih c hc]
  | or cs ih =>
    rw [map_or, holds_or, holds_or, List.any_map, Bool.eq_iff_iff, List.any_eq_true, List.any_eq_true]
    refine exists_congr fun c => and_congr_right fun hc => ?_
    rw [Function.comp_apply, ih c hc]
  | not c ih => rw [map_not, holds_not, holds_not, ih]
  | leaf a => rfl

theorem leaves_map (c : Condition α) : (c.map g).leaves = c.leaves.map g := by
  induction c with
  | and cs ih =>
    rw [map_and, leaves_and, leaves_and, List.flatMap_map, List.map_flatMap]
    exact List.flatMap_congr fun c hc => ih c hc
  | or cs ih =>
    rw [map_or, leaves_or, leaves_or, List.flatMap_map, List.map_flatMap]
    exact List.flatMap_congr fun c hc => ih c hc
  | not c ih => rw [map_not, leaves_not, leaves_not, ih]
  | leaf a => rfl

/-- Some leaf of the condition meets `p`. -/
def mentions (p : α → Bool) : Condition α → Bool := fold (·.any id) (·.any id) id p

theorem mentions_eq_any_leaves (c : Condition α) : c.mentions p = c.leaves.any p := by
  have hany : ∀ cs : List (Condition α), (∀ c ∈ cs, c.mentions p = c.leaves.any p) →
      (cs.map (mentions p)).any id = (cs.flatMap leaves).any p := by
    intro cs ih
    induction cs with
    | nil => rfl
    | cons c cs ihs =>
      rw [List.map_cons, List.any_cons, List.flatMap_cons, List.any_append,
        ihs fun d hd => ih d (List.mem_cons_of_mem c hd), ← ih c List.mem_cons_self]
      rfl
  induction c with
  | and cs ih =>
    rw [leaves_and, ← hany cs ih, mentions, fold_and]
  | or cs ih =>
    rw [leaves_or, ← hany cs ih, mentions, fold_or]
  | not c ih => exact ih
  | leaf a => rw [leaves_leaf, List.any_cons, List.any_nil, Bool.or_false]; rfl

/-- No condition, the only one, or all of them. -/
def conj : List (Condition α) → Option (Condition α)
  | [] => none
  | [c] => some c
  | cs => some (.and cs)

theorem all_conj (truth : α → Bool) (cs : List (Condition α)) : (conj cs).all (holds truth) = cs.all (holds truth) := by
  match cs with
  | [] => rfl
  | [c] => simp [conj]
  | c :: c' :: cs => exact holds_and truth _

theorem mem_leaves_conj {cs : List (Condition α)} {c : Condition α} (h : conj cs = some c) {a : α} (ha : a ∈ c.leaves) :
    ∃ d ∈ cs, a ∈ d.leaves := by
  match cs with
  | [] => cases h
  | [d] =>
    obtain rfl := Option.some.inj h
    exact ⟨d, List.mem_cons_self, ha⟩
  | d :: d' :: cs =>
    obtain rfl := Option.some.inj h
    rw [leaves_and] at ha
    exact List.mem_flatMap.mp ha

section Cut
variable (p : α → Bool)

/-- What a condition asks without `p`, and what it asks with it. Only a first and is cut. -/
def cut (c : Condition α) : Option (Condition α) × Option (Condition α) :=
  if !c.mentions p then (some c, none)
  else match c with
    | .and cs => (conj (cs.filter fun c => !c.mentions p), conj (cs.filter (mentions p)))
    | c => (none, some c)

theorem all_cut (truth : α → Bool) (c : Condition α) :
    c.holds truth = ((c.cut p).1.all (holds truth) && (c.cut p).2.all (holds truth)) := by
  unfold cut
  split
  · simp
  · cases c with
    | and cs =>
      rw [all_conj, all_conj, holds_and, List.all_filter, List.all_filter, Bool.eq_iff_iff, Bool.and_eq_true,
        List.all_eq_true, List.all_eq_true, List.all_eq_true, ← forall₂_and]
      refine forall₂_congr fun c _ => ?_
      cases c.mentions p <;> simp
    | _ => simp

theorem cut_without {c d : Condition α} (h : (c.cut p).1 = some d) : ∀ a ∈ d.leaves, p a = false := by
  have hfree : ∀ {d : Condition α}, (!d.mentions p) = true → ∀ a ∈ d.leaves, p a = false := by
    intro d hd a ha
    rw [mentions_eq_any_leaves, Bool.not_eq_true', List.any_eq_false] at hd
    simpa using hd a ha
  unfold cut at h
  split at h
  · rename_i hc
    obtain rfl := Option.some.inj h
    exact hfree hc
  · cases c with
    | and cs =>
      intro a ha
      obtain ⟨e, he, hae⟩ := mem_leaves_conj h ha
      exact hfree (List.mem_filter.mp he).2 a hae
    | _ => cases h

end Cut

end Condition
