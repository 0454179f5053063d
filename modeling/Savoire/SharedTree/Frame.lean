import Savoire.SharedTree.Model

/-! What an operation leaves as it is: the nodes that it makes have new ids, and it writes one node. -/
namespace Savoire.SharedTree

/-- What the nodes hold, by their ids. -/
abbrev Contents := Id → Option Content

def contents (nodes : Nodes) : Contents := fun id => (nodeOf nodes id).map (·.content)

section Nodes
variable {nodes news : Nodes} {id x : Id}

theorem contents_eq_none : contents nodes x = none ↔ x ∉ nodes.map (·.id) := by
  simp [contents, nodeOf]

theorem contents_append (h : x ∉ news.map (·.id)) : contents (news ++ nodes) x = contents nodes x := by
  have hnone : news.find? (·.id = x) = none := by
    rw [List.find?_eq_none]
    intro n hn hx
    exact h (List.mem_map.2 ⟨n, hn, by simpa using hx⟩)
  rw [contents, contents, nodeOf, nodeOf, List.find?_append, hnone, Option.none_or]

section Map
variable {f : MemNode → MemNode} (hid : ∀ n, (f n).id = n.id)
include hid

theorem contents_map : contents (nodes.map f) x = (nodeOf nodes x).map fun n => (f n).content := by
  have hkey : ((fun n : MemNode => decide (n.id = x)) ∘ f) = fun n => decide (n.id = x) := by
    funext n
    simp [hid]
  rw [contents, nodeOf, List.find?_map, hkey, Option.map_map]
  rfl

theorem deleted_map (hparent : ∀ n, (f n).parent = n.parent) (hremoved : ∀ n, n.removed = true → (f n).removed = true)
    (h : deleted nodes x = true) : deleted (nodes.map f) x = true := by
  induction nodes generalizing x with
  | nil => exact h
  | cons n nodes ih =>
    rw [deleted] at h
    rw [List.map_cons, deleted, hid, hparent]
    by_cases hx : n.id = x
    · rw [if_pos hx] at h ⊢
      obtain hr | hp := Bool.or_eq_true_iff.1 h
      · rw [hremoved n hr, Bool.true_or]
      · cases hparent : n.parent with
        | none => simp [hparent] at hp
        | some p =>
          rw [hparent] at hp
          simp only [ih hp, Bool.or_true]
    · rw [if_neg hx] at h ⊢
      exact ih h

end Map

theorem contents_setContent (c : Content) :
    contents (setContent id c nodes) x = if x = id then (contents nodes x).map fun _ => c else contents nodes x := by
  rw [setContent, contents_map fun n => by split <;> rfl, contents, Option.map_map]
  cases hn : nodeOf nodes x with
  | none => simp
  | some n =>
    have hx : n.id = x := by simpa using List.find?_some hn
    subst hx
    by_cases hid : n.id = id
    · simp [hid]
    · simp [hid]

theorem contents_dropValues (values : List TreeValue) : contents (dropValues values nodes) x = contents nodes x := by
  rw [dropValues, contents_map fun n => by split <;> rfl, contents]
  congr 1
  funext n
  split <;> rfl

theorem deleted_setContent (c : Content) (h : deleted nodes x = true) :
    deleted (setContent id c nodes) x = true := by
  refine deleted_map (fun n => ?_) (fun n => ?_) (fun n hr => ?_) h
  · split <;> rfl
  · split <;> rfl
  · split
    · exact hr
    · exact hr

theorem deleted_dropValues (values : List TreeValue) (h : deleted nodes x = true) :
    deleted (dropValues values nodes) x = true := by
  refine deleted_map (fun n => ?_) (fun n => ?_) (fun n hr => ?_) h
  · split <;> rfl
  · split <;> rfl
  · split
    · rfl
    · exact hr

theorem deleted_append (h : x ∉ news.map (·.id)) : deleted (news ++ nodes) x = deleted nodes x := by
  induction news with
  | nil => rfl
  | cons n news ih =>
    rw [List.map_cons, List.mem_cons, not_or] at h
    rw [List.cons_append, deleted, if_neg (Ne.symm h.1), ih h.2]

end Nodes

def Made (tree lo hi : Nat) (nodes : Nodes) : Prop :=
  ∀ n ∈ nodes, ∃ k, n.id = .made tree k ∧ lo < k ∧ k ≤ hi

section Made
variable {tree lo mid hi : Nat} {nodes nodes' : Nodes}

theorem Made.append (h : Made tree lo mid nodes) (h' : Made tree mid hi nodes') (hlo : lo ≤ mid) (hhi : mid ≤ hi) :
    Made tree lo hi (nodes' ++ nodes) := by
  intro n hn
  obtain hn | hn := List.mem_append.1 hn
  · obtain ⟨k, hk, hlt, hle⟩ := h' n hn
    exact ⟨k, hk, by omega, hle⟩
  · obtain ⟨k, hk, hlt, hle⟩ := h n hn
    exact ⟨k, hk, hlt, by omega⟩

theorem Made.first {n : MemNode} (hn : n.id = .made tree (lo + 1)) (h : Made tree (lo + 1) hi nodes)
    (hhi : lo + 1 ≤ hi) : Made tree lo hi (nodes ++ [n]) := by
  have hfirst : Made tree lo (lo + 1) [n] := by
    intro m hm
    obtain rfl := List.mem_singleton.1 hm
    exact ⟨lo + 1, hn, Nat.lt_succ_self lo, le_refl _⟩
  exact hfirst.append h (Nat.le_succ lo) hhi

mutual
theorem snapChild_made (tree : Nat) : ∀ (c : TreeElementChildInit) (n : Nat) (parent : Id),
    n ≤ (snapChild tree c n).2 ∧ Made tree n (snapChild tree c n).2 (buildChild parent (snapChild tree c n).1)
  | .text _ delta, n, parent => by
    refine ⟨Nat.le_succ n, fun m hm => ?_⟩
    obtain rfl := List.mem_singleton.1 hm
    exact ⟨n + 1, rfl, Nat.lt_succ_self n, le_refl _⟩
  | .element _ name attributes children, n, parent => by
    obtain ⟨hle, hmade⟩ := snapChildren_made tree children (n + 1) (.made tree (n + 1))
    refine ⟨(Nat.le_succ n).trans hle, ?_⟩
    exact Made.first rfl hmade hle

theorem snapChildren_made (tree : Nat) : ∀ (cs : List TreeElementChildInit) (n : Nat) (parent : Id),
    n ≤ (snapChildren tree cs n).2 ∧
      Made tree n (snapChildren tree cs n).2 (buildChildren parent (snapChildren tree cs n).1)
  | [], n, parent => ⟨le_refl n, by simp [snapChildren, buildChildren, Made]⟩
  | c :: cs, n, parent => by
    obtain ⟨hle, hmade⟩ := snapChild_made tree c n parent
    obtain ⟨hles, hmades⟩ := snapChildren_made tree cs (snapChild tree c n).2 parent
    refine ⟨hle.trans hles, ?_⟩
    exact hmade.append hmades hle hles
end

mutual
theorem snap_made (tree : Nat) : ∀ (v : TreeValueInit) (n : Nat) (parent : Id),
    n ≤ (snap tree v n).2 ∧ Made tree n (snap tree v n).2 (build parent (snap tree v n).1)
  | .prim p, n, parent => ⟨le_refl n, by simp [snap, build, Made]⟩
  | .map _ entries, n, parent => by
    obtain ⟨hle, hmade⟩ := snapEntries_made tree entries (n + 1) (.made tree (n + 1))
    refine ⟨(Nat.le_succ n).trans hle, ?_⟩
    exact Made.first rfl hmade hle
  | .list _ items, n, parent => by
    obtain ⟨hle, hmade⟩ := snapItems_made tree items (n + 1) (.made tree (n + 1))
    refine ⟨(Nat.le_succ n).trans hle, ?_⟩
    exact Made.first rfl hmade hle
  | .child c, n, parent => snapChild_made tree c n parent

theorem snapEntries_made (tree : Nat) : ∀ (es : List (Text × TreeValueInit)) (n : Nat) (parent : Id),
    n ≤ (snapEntries tree es n).2 ∧
      Made tree n (snapEntries tree es n).2 (buildEntries parent (snapEntries tree es n).1)
  | [], n, parent => ⟨le_refl n, by simp [snapEntries, buildEntries, Made]⟩
  | (_, v) :: rest, n, parent => by
    obtain ⟨hle, hmade⟩ := snap_made tree v n parent
    obtain ⟨hles, hmades⟩ := snapEntries_made tree rest (snap tree v n).2 parent
    refine ⟨hle.trans hles, ?_⟩
    exact hmade.append hmades hle hles

theorem snapItems_made (tree : Nat) : ∀ (vs : List TreeValueInit) (n : Nat) (parent : Id),
    n ≤ (snapItems tree vs n).2 ∧
      Made tree n (snapItems tree vs n).2 (buildItems parent (snapItems tree vs n).1)
  | [], n, parent => ⟨le_refl n, by simp [snapItems, buildItems, Made]⟩
  | v :: rest, n, parent => by
    obtain ⟨hle, hmade⟩ := snap_made tree v n parent
    obtain ⟨hles, hmades⟩ := snapItems_made tree rest (snap tree v n).2 parent
    refine ⟨hle.trans hles, ?_⟩
    exact hmade.append hmades hle hles
end

end Made

end Savoire.SharedTree
