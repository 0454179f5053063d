import Savoire.SharedTree.Peers

/-! When linked trees converge: no batch waits to be sent while another is committed. -/
namespace Savoire.SharedTree
open Transition

/-- The nodes after an operation, whatever the transaction. -/
def applyNodes (nodes : Nodes) (op : Op) : Nodes := (applyTo nodes .empty op).1

theorem applyTo_nodes (nodes : Nodes) (tx : Tx) (op : Op) : (applyTo nodes tx op).1 = applyNodes nodes op := by
  unfold applyNodes applyTo
  cases (nodeOf nodes op.id).bind fun n => applyOp op n.content <;> rfl

theorem applyTo_ops (nodes : Nodes) (tx : Tx) (op : Op) : (applyTo nodes tx op).2.ops = tx.ops := by
  unfold applyTo
  cases (nodeOf nodes op.id).bind fun n => applyOp op n.content <;> rfl

theorem perform_eq (s : MemTree × Tx) (call : Call) :
    (perform s call).2.ops = s.2.ops ++ (operation s.1 call).1.toList ∧
      (perform s call).1.nodes = (operation s.1 call).1.toList.foldl applyNodes s.1.nodes := by
  unfold perform
  cases h : operation s.1 call with
  | mk op n =>
    cases op with
    | none => simp
    | some op => simp [applyTo_ops, applyTo_nodes]

theorem foldl_nodes (calls : List Call) (s : MemTree × Tx) :
    ∃ ops, (calls.foldl perform s).2.ops = s.2.ops ++ ops ∧
      (calls.foldl perform s).1.nodes = ops.foldl applyNodes s.1.nodes ∧
      ((∀ call ∈ calls, call.finite = true) → ops.map Op.clone = ops) := by
  induction calls generalizing s with
  | nil => exact ⟨[], by simp, rfl, fun _ => rfl⟩
  | cons call calls ih =>
    obtain ⟨hops, hnodes⟩ := perform_eq s call
    obtain ⟨ops, hrest, hrun, hclone⟩ := ih (perform s call)
    refine ⟨(operation s.1 call).1.toList ++ ops, ?_, ?_, fun hfinite => ?_⟩
    · rw [List.foldl_cons, hrest, hops, List.append_assoc]
    · rw [List.foldl_cons, hrun, hnodes, List.foldl_append]
    · rw [List.map_append, hclone fun c hc => hfinite c (List.mem_cons_of_mem call hc)]
      cases hop : (operation s.1 call).1 with
      | none => rfl
      | some op => simp [operation_clone (hfinite call List.mem_cons_self) hop]

theorem transact_nodes (t : MemTree) (calls : List Call) :
    (transact t calls).1.nodes = (transact t calls).2.ops.foldl applyNodes t.nodes := by
  obtain ⟨ops, hops, hnodes, -⟩ := foldl_nodes calls (t, .empty)
  have hall : (transact t calls).2.ops = ops := hops
  rw [hall]
  exact hnodes

variable {t : MemTree}

theorem transact_clone {calls : List Call} (h : ∀ call ∈ calls, call.finite = true) :
    (transact t calls).2.ops.map Op.clone = (transact t calls).2.ops := by
  obtain ⟨ops, hops, -, hclone⟩ := foldl_nodes calls (t, .empty)
  have hall : (transact t calls).2.ops = ops := hops
  rw [hall]
  exact hclone h

theorem receive_nodes (t : MemTree) (ops : List Op) :
    (receive t ops).1.nodes = (ops.map Op.clone).foldl applyNodes t.nodes := by
  have hfold : ∀ (ops : List Op) (s : Nodes × Tx),
      (ops.foldl (fun s op => applyTo s.1 s.2 op) s).1 = ops.foldl applyNodes s.1 := by
    intro ops
    induction ops with
    | nil => intro s; rfl
    | cons op ops ih =>
      intro s
      rw [List.foldl_cons, ih, applyTo_nodes, List.foldl_cons]
  exact hfold _ _

def Idle : MemTree → List Call → Prop
  | _, [] => True
  | t, call :: calls => (operation t call).1 = none ∧ Idle { t with counter := (operation t call).2 } calls

instance decidableIdle : ∀ (t : MemTree) (calls : List Call), Decidable (Idle t calls)
  | _, [] => .isTrue trivial
  | t, call :: calls =>
    have := decidableIdle { t with counter := (operation t call).2 } calls
    inferInstanceAs (Decidable (_ ∧ _))

theorem idle_spec {tx : Tx} {calls : List Call} (h : Idle t calls) :
    (calls.foldl perform (t, tx)).2 = tx := by
  induction calls generalizing t with
  | nil => rfl
  | cons call calls ih =>
    obtain ⟨hop, hrest⟩ := h
    have hstep : perform (t, tx) call = ({ t with counter := (operation t call).2 }, tx) := by
      unfold perform
      cases hc : operation t call with
      | mk op n =>
        rw [hc] at hop
        obtain rfl : op = none := hop
        rfl
    rw [List.foldl_cons, hstep]
    exact ih hrest

/-- The operations of a batch that waits to be sent. -/
def Frame.pending : Frame → Option (Side × List Op)
  | localBatch side tx => if tx.ops.isEmpty then none else some (side, tx.ops)
  | remoteBatch _ => none

def Linked.pending (s : Linked) : List (Side × List Op) := s.stack.filterMap Frame.pending

/-- While a batch waits to be sent, no transaction writes; and numbers are finite. -/
def Quiet (s : Linked) : Event → Prop
  | .transact side calls => (∀ call ∈ calls, call.finite = true) ∧
      (s.pending = [] ∨ Idle (s.trees side) calls)
  | .returned => True

instance (s : Linked) (e : Event) : Decidable (Quiet s e) :=
  match e with
  | .transact _ _ => inferInstanceAs (Decidable (_ ∧ _))
  | .returned => .isTrue trivial

/-- Both sides have the same nodes, but for a batch that waits to be sent. -/
def Synced (s : Linked) : Prop :=
  match s.pending with
  | [] => (∀ a b, (s.trees a).nodes = (s.trees b).nodes) ∧ ∀ side, s.replayed side.other = s.committed side
  | [(side, ops)] => ops.map Op.clone = ops ∧
      (s.trees side).nodes = ops.foldl applyNodes (s.trees side.other).nodes ∧
      s.committed side = s.replayed side.other ++ [ops] ∧ s.committed side.other = s.replayed side
  | _ => False

variable {s s' : Linked}

theorem Synced.congr (h : Synced s) (hnodes : ∀ a, (s'.trees a).nodes = (s.trees a).nodes)
    (hpending : s'.pending = s.pending) (hcommitted : s'.committed = s.committed)
    (hreplayed : s'.replayed = s.replayed) : Synced s' := by
  unfold Synced at h ⊢
  rw [hpending]
  simp only [hnodes, hcommitted, hreplayed]
  exact h

theorem Synced.commit {side : Side} {ops : List Op} (h : Synced s)
    (hnone : s.pending = []) (hclone : ops.map Op.clone = ops)
    (ht : t.nodes = ops.foldl applyNodes (s.trees side).nodes) (hpending : s'.pending = [(side, ops)])
    (htrees : s'.trees = Function.update s.trees side t)
    (hcommitted : s'.committed = Function.update s.committed side (s.committed side ++ [ops]))
    (hreplayed : s'.replayed = s.replayed) : Synced s' := by
  unfold Synced at h ⊢
  rw [hnone] at h
  rw [hpending]
  obtain ⟨hnodes, hlogs⟩ := h
  dsimp only
  rw [htrees, hcommitted, hreplayed, Function.update_self, Function.update_self,
    Function.update_of_ne (Side.other_ne side), Function.update_of_ne (Side.other_ne side), hlogs, ht,
    hnodes side side.other]
  refine ⟨hclone, rfl, rfl, ?_⟩
  have hother := hlogs side.other
  rw [Side.other_other] at hother
  exact hother.symm

theorem Synced.deliver {side : Side} {ops : List Op} {rest : List (Side × List Op)}
    (h : Synced s) (hwait : s.pending = (side, ops) :: rest)
    (ht : t.nodes = (ops.map Op.clone).foldl applyNodes (s.trees side.other).nodes) (hpending : s'.pending = rest)
    (htrees : s'.trees = Function.update s.trees side.other t) (hcommitted : s'.committed = s.committed)
    (hreplayed : s'.replayed =
      Function.update s.replayed side.other (s.replayed side.other ++ [ops.map Op.clone])) : Synced s' := by
  unfold Synced at h ⊢
  rw [hwait] at h
  cases rest with
  | cons _ _ => exact h.elim
  | nil =>
    obtain ⟨hclone, hnodes, hside, hother⟩ := h
    rw [hclone] at ht hreplayed
    rw [hpending, htrees, hcommitted, hreplayed]
    have hsame : ∀ a, (Function.update s.trees side.other t a).nodes = t.nodes := by
      intro a
      obtain rfl | rfl := side.eq_or a
      · rw [Function.update_of_ne (Side.other_ne _).symm, hnodes, ht]
      · rw [Function.update_self]
    refine ⟨fun a b => by rw [hsame, hsame], fun a => ?_⟩
    obtain rfl | rfl := side.eq_or a
    · rw [Function.update_self, hside]
    · rw [Side.other_other, Function.update_of_ne (Side.other_ne side).symm, hother]

theorem Synced.step {e : Event} (h : Synced s) (hq : Quiet s e) (hs : step s e = some s') :
    Synced s' := by
  cases e with
  | transact side calls =>
    obtain ⟨hfinite, hquiet⟩ := hq
    simp only [SharedTree.step] at hs
    split at hs
    · obtain rfl := Option.some.inj hs
      have hnodes := transact_nodes (s.trees side) calls
      by_cases hops : (transact (s.trees side) calls).2.ops = []
      · -- Nothing is written.
        refine h.congr (fun a => ?_) ?_ (by simp [hops]) rfl
        · rw [hops] at hnodes
          dsimp only
          by_cases ha : a = side
          · subst ha
            rw [Function.update_self, hnodes, List.foldl_nil]
          · rw [Function.update_of_ne ha]
        · simp [Linked.pending, Frame.pending, hops]
      · have hnone : s.pending = [] := by
          refine hquiet.resolve_right fun hidle => hops ?_
          have hempty : (transact (s.trees side) calls).2 = .empty := idle_spec hidle
          rw [hempty, Tx.empty]
        refine h.commit hnone (transact_clone hfinite) hnodes ?_ rfl (by simp [hops]) rfl
        rw [Linked.pending] at hnone ⊢
        simp [Frame.pending, hops, hnone]
    · exact absurd hs (by simp)
  | returned =>
    simp only [SharedTree.step] at hs
    split at hs
    · exact absurd hs (by simp)
    · rename_i side tx rest hstack
      split at hs
      · rename_i hops
        obtain rfl := Option.some.inj hs
        exact h.congr (fun _ => rfl) (by simp [Linked.pending, hstack, Frame.pending, hops]) rfl rfl
      · rename_i hops
        obtain rfl := Option.some.inj hs
        have hwait : s.pending = (side, tx.ops) :: rest.filterMap Frame.pending := by
          simp [Linked.pending, hstack, Frame.pending, hops]
        exact h.deliver hwait (receive_nodes ..) (List.filterMap_cons_none rfl) rfl rfl rfl
    · rename_i tx rest hstack
      obtain rfl := Option.some.inj hs
      have hpending : s.pending = rest.filterMap Frame.pending := by
        rw [Linked.pending, hstack, List.filterMap_cons_none rfl]
      exact h.congr (fun _ => rfl) hpending.symm rfl rfl

/-- Two trees that are linked while they hold the same. -/
def linkTrees (left right : MemTree) : Linked where
  trees side := match side with
    | .left => left
    | .right => right
  stack := []
  committed _ := []
  replayed _ := []

/-- In a quiet run each side replays the batches of the other in their order, and when all observers have
returned it has replayed them all and both trees are the same. -/
theorem linked_trees_converge {left right : MemTree} (hsame : left.nodes = right.nodes) {s : Linked}
    (hrun : Run step Quiet (linkTrees left right) s) :
    (∀ side, s.replayed side.other <+: s.committed side) ∧
    (s.stack = [] → (∀ side, s.replayed side.other = s.committed side) ∧
      toJSON (s.trees .left) = toJSON (s.trees .right)) := by
  have hsynced : Synced s := by
    refine hrun.invariant Synced ⟨fun a b => ?_, fun _ => rfl⟩ fun s e s' hs hq hstep => hs.step hq hstep
    cases a <;> cases b <;> first | rfl | exact hsame | exact hsame.symm
  have horder : ∀ side, s.replayed side.other <+: s.committed side := by
    intro side
    unfold Synced at hsynced
    split at hsynced
    · exact hsynced.2 side ▸ List.prefix_refl _
    · rename_i sender ops _
      obtain ⟨-, -, hside, hother⟩ := hsynced
      obtain rfl | rfl := sender.eq_or side
      · rw [hside]
        exact List.prefix_append _ _
      · rw [Side.other_other]
        exact hother ▸ List.prefix_refl _
    · exact hsynced.elim
  refine ⟨horder, fun hstack => ?_⟩
  have hnone : s.pending = [] := by rw [Linked.pending, hstack, List.filterMap_nil]
  unfold Synced at hsynced
  rw [hnone] at hsynced
  obtain ⟨hnodes, hlogs⟩ := hsynced
  exact ⟨hlogs, by rw [toJSON, toJSON, hnodes .left .right]⟩

def newTree (inst : Nat) : MemTree := ⟨inst, 0, [⟨.root, none, false, .map []⟩]⟩

/-- Both sides write, the right one from an observer of what it receives. -/
def replySteps : List Event :=
  [.transact .left [.set .root "a".toList (.prim (.bool true))], .returned,
    .transact .right [.set .root "b".toList (.prim .null)], .returned, .returned, .returned]

def replied : Linked :=
  (exec step (fun _ _ => True) (linkTrees (newTree 1) (newTree 2)) replySteps).getD
    (linkTrees (newTree 1) (newTree 2))

theorem linked_trees_converge_replied : toJSON (replied.trees .left) = toJSON (replied.trees .right) ∧
    toJSON (replied.trees .left) =
      .map [("a".toList, .prim (.bool true)), ("b".toList, .prim .null)] := by
  have hrun : Run step Quiet (linkTrees (newTree 1) (newTree 2)) replied := run_of_exec replySteps _ _ rfl
  have hsame : (newTree 1).nodes = (newTree 2).nodes := rfl
  exact ⟨((linked_trees_converge hsame hrun).2 rfl).2, rfl⟩

/-- An observer of the left side writes the key again: the right side receives the second value first. -/
def rewriteSteps : List Event :=
  [.transact .left [.set .root "a".toList (.prim (.bool true))],
    .transact .left [.set .root "a".toList (.prim (.bool false))],
    .returned, .returned, .returned, .returned]

theorem rewrite_diverges : ∃ s, Run step (fun _ _ => True) (linkTrees (newTree 1) (newTree 2)) s ∧
    s.stack = [] ∧ toJSON (s.trees .left) = .map [("a".toList, .prim (.bool false))] ∧
    toJSON (s.trees .right) = .map [("a".toList, .prim (.bool true))] ∧
    s.replayed .right = (s.committed .left).reverse :=
  ⟨_, run_of_exec rewriteSteps _ _ rfl, rfl, rfl, rfl, rfl⟩

end Savoire.SharedTree
