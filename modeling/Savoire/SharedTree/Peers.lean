import Savoire.SharedTree.Exactness
import Savoire.Library.Transition

/-! Two linked trees. A local batch is told to the observers first and sent to the other member once they
have all returned; an observer may open a transaction of its own. -/
namespace Savoire.SharedTree
open Transition

inductive Side
  | left
  | right
  deriving DecidableEq

def Side.other : Side → Side
  | left => right
  | right => left

@[simp] theorem Side.other_other (s : Side) : s.other.other = s := by cases s <;> rfl

theorem Side.other_ne (s : Side) : s.other ≠ s := by cases s <;> simp [other]

theorem Side.eq_or (s s' : Side) : s' = s ∨ s' = s.other := by cases s <;> cases s' <;> simp [other]

/-- A batch whose observers are being called. -/
inductive Frame
  | localBatch (side : Side) (tx : Tx)
  | remoteBatch (tx : Tx)

def Frame.changes : Frame → List TreeChange
  | localBatch _ tx | remoteBatch tx => tx.changes

structure Linked where
  trees : Side → MemTree
  /-- The batches that are being told, the innermost first. -/
  stack : List Frame
  /-- The operations of the local transactions of a side, in the order of their commits. -/
  committed : Side → List (List Op)
  /-- The operations that a side has replayed, in their order. -/
  replayed : Side → List (List Op)

inductive Event
  | transact (side : Side) (calls : List Call)
  | returned

/-- The program is running, or an observer of a batch that tells something. -/
def Linked.running (s : Linked) : Bool :=
  match s.stack with
  | [] => true
  | f :: _ => !f.changes.isEmpty

def step (s : Linked) : Event → Option Linked
  | .transact side calls =>
    if s.running then
      let (t, tx) := transact (s.trees side) calls
      some { s with
        trees := Function.update s.trees side t
        stack := .localBatch side tx :: s.stack
        committed := if tx.ops.isEmpty then s.committed
          else Function.update s.committed side (s.committed side ++ [tx.ops]) }
    else none
  | .returned =>
    match s.stack with
    | [] => none
    | .localBatch side tx :: rest =>
      if tx.ops.isEmpty then some { s with stack := rest }
      else
        let (t, tx') := receive (s.trees side.other) tx.ops
        some { s with
          trees := Function.update s.trees side.other t
          stack := .remoteBatch tx' :: rest
          replayed := Function.update s.replayed side.other (s.replayed side.other ++ [tx.ops.map Op.clone]) }
    | .remoteBatch _ :: rest => some { s with stack := rest }

def TreePrimitive.finite : TreePrimitive → Bool
  | num x => x.isFinite
  | _ => true

mutual
/-- No leaf is a number that is not finite. -/
def Shape.finite {ι : Type} : Shape ι → Bool
  | .prim p => p.finite
  | .map _ entries => Shape.finiteEntries entries
  | .list _ items => Shape.finiteItems items
  | .child _ => true

def Shape.finiteEntries {ι : Type} : List (Text × Shape ι) → Bool
  | [] => true
  | (_, v) :: rest => v.finite && Shape.finiteEntries rest

def Shape.finiteItems {ι : Type} : List (Shape ι) → Bool
  | [] => true
  | v :: rest => v.finite && Shape.finiteItems rest
end

def Call.finite : Call → Bool
  | set _ _ value => value.finite
  | insert _ _ values => Shape.finiteItems values
  | _ => true

mutual
theorem clone_clone : ∀ v : JsonValue, clone (clone v) = clone v
  | .null | .bool _ | .str _ => rfl
  | .num x => by
    by_cases h : x.isFinite
    · simp [clone, h]
    · simp [clone, h]
  | .arr items => by simp only [clone, cloneItems_cloneItems items]
  | .obj fields => by simp only [clone, cloneFields_cloneFields fields]

theorem cloneItems_cloneItems : ∀ vs : List JsonValue, cloneItems (cloneItems vs) = cloneItems vs
  | [] => rfl
  | v :: vs => by simp only [cloneItems, clone_clone v, cloneItems_cloneItems vs]

theorem cloneFields_cloneFields : ∀ fs : List (Text × JsonValue), cloneFields (cloneFields fs) = cloneFields fs
  | [] => rfl
  | (_, v) :: fs => by simp only [cloneFields, clone_clone v, cloneFields_cloneFields fs]
end

theorem RichTextDeltaOp.clone_clone (op : RichTextDeltaOp) : op.clone.clone = op.clone := by
  have hmap : ∀ a : Option TextAttributes, (a.map cloneFields).map cloneFields = a.map cloneFields := by
    intro a
    cases a with
    | none => rfl
    | some fs => simp [cloneFields_cloneFields]
  cases op <;> simp [clone, hmap]

mutual
theorem snapChild_clone (tree : Nat) : ∀ (c : TreeElementChildInit) (n : Nat),
    (snapChild tree c n).1.clone = (snapChild tree c n).1
  | .text _ delta, n => by
    simp only [snapChild, Child.clone, List.map_map]
    congr 2
    funext op
    exact op.clone_clone
  | .element _ name attributes children, n => by
    simp only [snapChild, Child.clone, cloneFields_cloneFields, snapChildren_clone tree children]

theorem snapChildren_clone (tree : Nat) : ∀ (cs : List TreeElementChildInit) (n : Nat),
    Child.cloneAll (snapChildren tree cs n).1 = (snapChildren tree cs n).1
  | [], _ => rfl
  | c :: cs, n => by simp only [snapChildren, Child.cloneAll, snapChild_clone tree c, snapChildren_clone tree cs]
end

theorem cloneItems_child (cs : List (Child Id)) :
    Shape.cloneItems (cs.map .child) = (Child.cloneAll cs).map .child := by
  induction cs with
  | nil => rfl
  | cons c cs ih => simp only [List.map_cons, Shape.cloneItems, Shape.clone, Child.cloneAll, ih]

theorem TreePrimitive.clone_of_finite {p : TreePrimitive} (h : p.finite = true) : p.clone = p := by
  cases p with
  | num x => exact if_pos h
  | _ => rfl

mutual
theorem snap_clone (tree : Nat) : ∀ (v : TreeValueInit) (n : Nat), v.finite = true →
    (snap tree v n).1.clone = (snap tree v n).1
  | .prim p, _, h => by simp only [snap, Shape.clone, TreePrimitive.clone_of_finite h]
  | .map _ entries, n, h => by simp only [snap, Shape.clone, snapEntries_clone tree entries _ h]
  | .list _ items, n, h => by simp only [snap, Shape.clone, snapItems_clone tree items _ h]
  | .child c, n, _ => by simp only [snap, Shape.clone, snapChild_clone]

theorem snapEntries_clone (tree : Nat) : ∀ (es : List (Text × TreeValueInit)) (n : Nat),
    Shape.finiteEntries es = true → Shape.cloneEntries (snapEntries tree es n).1 = (snapEntries tree es n).1
  | [], _, _ => rfl
  | (_, v) :: rest, n, h => by
    obtain ⟨hv, hrest⟩ := Bool.and_eq_true_iff.1 h
    simp only [snapEntries, Shape.cloneEntries, snap_clone tree v n hv, snapEntries_clone tree rest _ hrest]

theorem snapItems_clone (tree : Nat) : ∀ (vs : List TreeValueInit) (n : Nat),
    Shape.finiteItems vs = true → Shape.cloneItems (snapItems tree vs n).1 = (snapItems tree vs n).1
  | [], _, _ => rfl
  | v :: rest, n, h => by
    obtain ⟨hv, hrest⟩ := Bool.and_eq_true_iff.1 h
    simp only [snapItems, Shape.cloneItems, snap_clone tree v n hv, snapItems_clone tree rest _ hrest]
end

theorem insertSnaps_clone {nodes : Nodes} {id : Id} {index : Int} {values : List Snap} {op : Op}
    (hv : Shape.cloneItems values = values) (h : insertSnaps nodes id index values = some op) : op.clone = op := by
  unfold insertSnaps at h
  split at h
  · exact absurd h (by simp)
  · split at h
    · obtain rfl := Option.some.inj h
      simp only [Op.clone, hv]
    · obtain rfl := Option.some.inj h
      simp only [Op.clone, hv]
    · exact absurd h (by simp)

theorem textOp_clone {nodes : Nodes} {id : Id} {delta : RichTextDelta} {op : Op}
    (h : textOp nodes id delta = some op) : op.clone = op := by
  unfold textOp at h
  dsimp only at h
  split at h
  · split at h
    · exact absurd h (by simp)
    · obtain rfl := Option.some.inj h
      have hmem : ∀ x ∈ compact (delta.map RichTextDeltaOp.clone), x.clone = x := by
        intro x hx
        obtain ⟨y, -, rfl⟩ := List.mem_map.1 (List.mem_filter.1 hx).1
        exact y.clone_clone
      simp only [Op.clone, List.map_congr_left hmem, List.map_id']
  · exact absurd h (by simp)

/-- What a call without infinite numbers writes reaches the other member as it is. -/
theorem operation_clone {t : MemTree} {call : Call} {op : Op} (hfinite : call.finite = true)
    (h : (operation t call).1 = some op) : op.clone = op := by
  cases call with
  | set id key value =>
    simp only [operation] at h
    split at h
    · obtain rfl := Option.some.inj h
      simp only [Op.clone, snap_clone t.inst value t.counter hfinite]
    · exact absurd h (by simp)
  | deleteKey id key =>
    simp only [operation] at h
    split at h
    · split at h
      · obtain rfl := Option.some.inj h
        rfl
      · exact absurd h (by simp)
    · exact absurd h (by simp)
  | insert id index values => exact insertSnaps_clone (snapItems_clone _ _ _ hfinite) h
  | insertChildren id index children =>
    refine insertSnaps_clone ?_ h
    rw [cloneItems_child, snapChildren_clone]
  | delete id index length =>
    simp only [operation] at h
    split at h
    · exact absurd h (by simp)
    · split at h
      · obtain rfl := Option.some.inj h
        rfl
      · obtain rfl := Option.some.inj h
        rfl
      · exact absurd h (by simp)
  | setAttribute id name value =>
    simp only [operation] at h
    split at h
    · obtain rfl := Option.some.inj h
      simp only [Op.clone, Option.map_some, clone_clone]
    · exact absurd h (by simp)
  | removeAttribute id name =>
    simp only [operation] at h
    split at h
    · split at h
      · obtain rfl := Option.some.inj h
        rfl
      · exact absurd h (by simp)
    · exact absurd h (by simp)
  | insertText id index text attributes =>
    simp only [operation] at h
    split at h
    · exact absurd h (by simp)
    · exact textOp_clone h
  | deleteText id index length =>
    simp only [operation] at h
    split at h
    · exact absurd h (by simp)
    · exact textOp_clone h
  | format id index length attributes =>
    simp only [operation] at h
    split at h
    · exact absurd h (by simp)
    · exact textOp_clone h
  | applyDelta id delta => exact textOp_clone h

end Savoire.SharedTree
