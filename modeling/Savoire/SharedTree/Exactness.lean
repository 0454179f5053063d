import Savoire.SharedTree.Replay

/-! Whole transactions: what one call does to the tree and to the batch, and when the batch replays
exactly. -/
namespace Savoire.SharedTree

theorem buildItems_child (parent : Id) (cs : List (Child Id)) :
    buildItems parent (cs.map .child) = buildChildren parent cs := by
  induction cs with
  | nil => rfl
  | cons c cs ih => rw [List.map_cons, buildItems, build, ih, buildChildren]

variable {nodes : Nodes} {c : Content}

theorem handle_eq {id : Id} (h : handle nodes id = some c) :
    deleted nodes id = false ∧ contents nodes id = some c := by
  unfold handle at h
  cases hd : deleted nodes id
  · simp only [hd, Bool.false_eq_true, ↓reduceIte] at h
    exact ⟨rfl, h⟩
  · simp [hd] at h

variable {op : Op}

theorem insertSnaps_spec {id : Id} {index : Int} {values : List Snap}
    (h : insertSnaps nodes id index values = some op) :
    ∃ c e, handle nodes op.id = some c ∧ applyOp op c = some e ∧ e.created = buildItems id values := by
  unfold insertSnaps at h
  split at h
  · exact absurd h (by simp)
  · split at h
    · rename_i items hc
      obtain rfl := Option.some.inj h
      exact ⟨_, _, hc, rfl, rfl⟩
    · rename_i name attrs items hc
      obtain rfl := Option.some.inj h
      exact ⟨_, _, hc, rfl, rfl⟩
    · exact absurd h (by simp)

theorem textOp_spec {id : Id} {delta : RichTextDelta} (h : textOp nodes id delta = some op) :
    ∃ c e, handle nodes op.id = some c ∧ applyOp op c = some e ∧ e.created = [] := by
  unfold textOp at h
  dsimp only at h
  split at h
  · rename_i chars hc
    split at h
    · exact absurd h (by simp)
    · obtain rfl := Option.some.inj h
      exact ⟨_, _, hc, rfl, rfl⟩
  · exact absurd h (by simp)

/-- A call writes to a node of the tree, and the nodes that it makes are new. -/
theorem operation_spec (t : MemTree) (call : Call) :
    t.counter ≤ (operation t call).2 ∧ ∀ op, (operation t call).1 = some op →
      ∃ c e, handle t.nodes op.id = some c ∧ applyOp op c = some e ∧
        Made t.inst t.counter (operation t call).2 e.created := by
  have hold : ∀ {op : Op} {n : Nat}, (∃ c e, handle t.nodes op.id = some c ∧ applyOp op c = some e ∧
      e.created = []) → ∃ c e, handle t.nodes op.id = some c ∧ applyOp op c = some e ∧
        Made t.inst t.counter n e.created := by
    rintro op n ⟨c, e, hc, he, hnil⟩
    exact ⟨c, e, hc, he, by simp [hnil, Made]⟩
  cases call with
  | set id key value =>
    refine ⟨(snap_made t.inst value t.counter id).1, fun op h => ?_⟩
    simp only [operation] at h
    split at h
    · rename_i entries hc
      obtain rfl := Option.some.inj h
      exact ⟨_, _, hc, rfl, (snap_made t.inst value t.counter id).2⟩
    · exact absurd h (by simp)
  | deleteKey id key =>
    refine ⟨le_refl _, fun op h => ?_⟩
    simp only [operation] at h
    split at h
    · rename_i entries hc
      split at h
      · obtain rfl := Option.some.inj h
        exact hold ⟨_, _, hc, rfl, rfl⟩
      · exact absurd h (by simp)
    · exact absurd h (by simp)
  | insert id index values =>
    have hmade := snapItems_made t.inst values t.counter id
    refine ⟨hmade.1, fun op h => ?_⟩
    obtain ⟨c, e, hc, he, hcreated⟩ := insertSnaps_spec h
    exact ⟨c, e, hc, he, hcreated ▸ hmade.2⟩
  | insertChildren id index children =>
    have hmade := snapChildren_made t.inst children t.counter id
    refine ⟨hmade.1, fun op h => ?_⟩
    obtain ⟨c, e, hc, he, hcreated⟩ := insertSnaps_spec h
    rw [buildItems_child] at hcreated
    exact ⟨c, e, hc, he, hcreated ▸ hmade.2⟩
  | delete id index length =>
    refine ⟨le_refl _, fun op h => ?_⟩
    simp only [operation] at h
    split at h
    · exact absurd h (by simp)
    · split at h
      · rename_i items hc
        obtain rfl := Option.some.inj h
        exact hold ⟨_, _, hc, rfl, rfl⟩
      · rename_i name attrs items hc
        obtain rfl := Option.some.inj h
        exact hold ⟨_, _, hc, rfl, rfl⟩
      · exact absurd h (by simp)
  | setAttribute id name value =>
    refine ⟨le_refl _, fun op h => ?_⟩
    simp only [operation] at h
    split at h
    · rename_i name' attrs items hc
      obtain rfl := Option.some.inj h
      exact hold ⟨_, _, hc, rfl, rfl⟩
    · exact absurd h (by simp)
  | removeAttribute id name =>
    refine ⟨le_refl _, fun op h => ?_⟩
    simp only [operation] at h
    split at h
    · rename_i name' attrs items hc
      split at h
      · obtain rfl := Option.some.inj h
        exact hold ⟨_, _, hc, rfl, rfl⟩
      · exact absurd h (by simp)
    · exact absurd h (by simp)
  | insertText id index text attributes =>
    refine ⟨le_refl _, fun op h => ?_⟩
    simp only [operation] at h
    split at h
    · exact absurd h (by simp)
    · exact hold (textOp_spec h)
  | deleteText id index length =>
    refine ⟨le_refl _, fun op h => ?_⟩
    simp only [operation] at h
    split at h
    · exact absurd h (by simp)
    · exact hold (textOp_spec h)
  | format id index length attributes =>
    refine ⟨le_refl _, fun op h => ?_⟩
    simp only [operation] at h
    split at h
    · exact absurd h (by simp)
    · exact hold (textOp_spec h)
  | applyDelta id delta => exact ⟨le_refl _, fun op h => hold (textOp_spec h)⟩

/-- The nodes after an operation. -/
def written (nodes : Nodes) (id : Id) (e : Effect) : Nodes :=
  e.created ++ setContent id e.content (dropValues e.dropped nodes)

theorem perform_cases (t : MemTree) (tx : Tx) (call : Call) : ∃ n, t.counter ≤ n ∧
    (perform (t, tx) call = ({ t with counter := n }, tx) ∨
    ∃ op c e, (operation t call).1 = some op ∧ deleted t.nodes op.id = false ∧
      contents t.nodes op.id = some c ∧ applyOp op c = some e ∧ Made t.inst t.counter n e.created ∧
      perform (t, tx) call = ({ t with counter := n, nodes := written t.nodes op.id e },
        { ops := tx.ops ++ [op]
          changes := tx.changes ++ record (written t.nodes op.id e) op.id
            (tx.created ++ e.created.map (·.id)) e.change
          created := tx.created ++ e.created.map (·.id) })) := by
  obtain ⟨hle, hspec⟩ := operation_spec t call
  refine ⟨_, hle, ?_⟩
  cases hop : operation t call with
  | mk op n =>
    cases op with
    | none => exact .inl (by simp only [perform, hop])
    | some op =>
      obtain ⟨c, e, hc, he, hmade⟩ := hspec op (by rw [hop])
      obtain ⟨hd, hcontent⟩ := handle_eq hc
      rw [hop] at hmade
      refine .inr ⟨op, c, e, rfl, hd, hcontent, he, hmade, ?_⟩
      obtain ⟨node, hnode, hnc⟩ := Option.map_eq_some_iff.1 hcontent
      simp only [perform, hop, applyTo, hnode, Option.bind_some, hnc, he]
      rfl

/-- The ids that the tree will give are new. -/
def Fresh (t : MemTree) : Prop := ∀ k, t.counter < k → contents t.nodes (.made t.inst k) = none

section Written
variable {t : MemTree} {n : Nat} {id x : Id} {e : Effect}

theorem not_mem_created (hfresh : Fresh t) (hmade : Made t.inst t.counter n e.created)
    (hx : contents t.nodes x ≠ none) : x ∉ e.created.map (·.id) := by
  intro hmem
  obtain ⟨node, hnode, rfl⟩ := List.mem_map.1 hmem
  obtain ⟨k, hk, hlt, -⟩ := hmade node hnode
  exact hx (hk ▸ hfresh k hlt)

theorem contents_written (hfresh : Fresh t) (hmade : Made t.inst t.counter n e.created)
    (hx : contents t.nodes x ≠ none) :
    contents (written t.nodes id e) x = if x = id then some e.content else contents t.nodes x := by
  rw [written, contents_append (not_mem_created hfresh hmade hx), contents_setContent, contents_dropValues]
  cases h : contents t.nodes x with
  | none => exact absurd h hx
  | some c => rfl

theorem deleted_written (hfresh : Fresh t) (hmade : Made t.inst t.counter n e.created)
    (hx : contents t.nodes x ≠ none) (hd : deleted t.nodes x = true) :
    deleted (written t.nodes id e) x = true := by
  rw [written, deleted_append (not_mem_created hfresh hmade hx)]
  exact deleted_setContent _ (deleted_dropValues _ hd)

end Written

variable {t : MemTree}

theorem perform_fresh (hfresh : Fresh t) (tx : Tx) (call : Call) : Fresh (perform (t, tx) call).1 := by
  obtain ⟨n, hle, heq | ⟨op, c, e, -, -, -, -, hmade, heq⟩⟩ := perform_cases t tx call
  · rw [heq]
    exact fun k hk => hfresh k (hle.trans_lt hk)
  · rw [heq]
    intro k hk
    have hnew : .made t.inst k ∉ e.created.map (·.id) := by
      intro hmem
      obtain ⟨node, hnode, hid⟩ := List.mem_map.1 hmem
      obtain ⟨k', hk', -, hle'⟩ := hmade node hnode
      obtain rfl : k' = k := by simpa using hk'.symm.trans hid
      exact absurd hk (by simpa using hle')
    rw [written, contents_append hnew, contents_setContent, contents_dropValues, hfresh k (hle.trans_lt hk)]
    simp

/-- An in-memory tree: the ids that it will give are new. -/
structure InMemorySharedTree extends MemTree where
  fresh : Fresh toMemTree

variable {s : MemTree × Tx}

theorem foldl_fresh (hfresh : Fresh s.1) (calls : List Call) :
    Fresh (calls.foldl perform s).1 := by
  induction calls generalizing s with
  | nil => exact hfresh
  | cons call calls ih => exact ih (perform_fresh hfresh s.2 call)

def InMemorySharedTree.transact (t : InMemorySharedTree) (calls : List Call) : InMemorySharedTree × Tx :=
  (⟨(SharedTree.transact t.toMemTree calls).1, foldl_fresh t.fresh calls⟩, (SharedTree.transact t.toMemTree calls).2)

theorem perform_keeps (hfresh : Fresh t) (tx : Tx) (call : Call) {x : Id}
    (hx : contents t.nodes x ≠ none) :
    contents (perform (t, tx) call).1.nodes x ≠ none ∧
      (deleted t.nodes x = true → deleted (perform (t, tx) call).1.nodes x = true) := by
  obtain ⟨n, -, heq | ⟨op, c, e, -, -, -, -, hmade, heq⟩⟩ := perform_cases t tx call
  · rw [heq]
    exact ⟨hx, id⟩
  · rw [heq]
    refine ⟨?_, deleted_written hfresh hmade hx⟩
    rw [contents_written hfresh hmade hx]
    split
    · exact Option.some_ne_none _
    · exact hx

theorem foldl_keeps (hfresh : Fresh s.1) (calls : List Call) {x : Id} (hx : contents s.1.nodes x ≠ none) :
    contents (calls.foldl perform s).1.nodes x ≠ none ∧
      (deleted s.1.nodes x = true → deleted (calls.foldl perform s).1.nodes x = true) := by
  induction calls generalizing s with
  | nil => exact ⟨hx, id⟩
  | cons call calls ih =>
    obtain ⟨hstep, hdel⟩ := perform_keeps hfresh s.2 call hx
    obtain ⟨hrun, hdels⟩ := ih (perform_fresh hfresh s.2 call) hstep
    exact ⟨hrun, fun hd => hdels (hdel hd)⟩

theorem perform_created (hfresh : Fresh t) (tx : Tx) (call : Call) :
    ∃ news, (perform (t, tx) call).2.created = tx.created ++ news ∧ (∀ x ∈ news, contents t.nodes x = none) ∧
      ∀ x, contents t.nodes x = none → x ∉ news → contents (perform (t, tx) call).1.nodes x = none := by
  obtain ⟨n, -, heq | ⟨op, c, e, -, -, -, -, hmade, heq⟩⟩ := perform_cases t tx call
  · rw [heq]
    exact ⟨[], by simp, by simp, fun _ h _ => h⟩
  · rw [heq]
    refine ⟨_, rfl, fun x hx => ?_, fun x hnone hx => ?_⟩
    · by_contra hne
      exact not_mem_created hfresh hmade hne hx
    · rw [written, contents_append hx, contents_setContent, contents_dropValues, hnone]
      simp

theorem foldl_created (hfresh : Fresh s.1) (calls : List Call) :
    ∃ news, (calls.foldl perform s).2.created = s.2.created ++ news ∧
      (∀ x ∈ news, contents s.1.nodes x = none) ∧
      ∀ x, contents s.1.nodes x = none → x ∉ news → contents (calls.foldl perform s).1.nodes x = none := by
  induction calls generalizing s with
  | nil => exact ⟨[], by simp, by simp, fun _ h _ => h⟩
  | cons call calls ih =>
    obtain ⟨first, hfirst, hnew, hadd⟩ := perform_created hfresh s.2 call
    obtain ⟨rest, hrest, hnews, hadds⟩ := ih (perform_fresh hfresh s.2 call)
    refine ⟨first ++ rest, by rw [List.foldl_cons, hrest, hfirst, List.append_assoc], fun x hx => ?_,
      fun x hnone hx => ?_⟩
    · obtain hx | hx := List.mem_append.1 hx
      · exact hnew x hx
      · by_contra hne
        exact (perform_keeps hfresh s.2 call hne).1 (hnews x hx)
    · rw [List.mem_append, not_or] at hx
      exact hadds x (hadd x hnone hx.1) hx.2

theorem target_of_applyOp {e : Effect} {change : TreeChange} (h : applyOp op c = some e)
    (hc : e.change = some change) : change.target = op.id := by
  have hseq : ∀ (xs : List TreeValue) (f : List TreeValue → Content) (g : ListDelta → TreeChange),
      (∀ delta, (g delta).target = op.id) → ((applySeq xs op).map fun r =>
        (⟨f r.1, r.2.1, r.2.2.1, r.2.2.2.map g⟩ : Effect)) = some e → change.target = op.id := by
    intro xs f g hg h
    obtain ⟨⟨items', dropped, created, delta⟩, -, rfl⟩ := Option.map_eq_some_iff.1 h
    obtain ⟨delta, -, rfl⟩ := Option.map_eq_some_iff.1 hc
    exact hg delta
  cases c with
  | map entries =>
    cases op <;> simp only [applyOp, Option.some.injEq, reduceCtorEq] at h <;> subst h <;>
      · obtain rfl := Option.some.inj hc
        rfl
  | list items => exact hseq items .list (.list op.id) (fun _ => rfl) h
  | text chars =>
    cases op <;> simp only [applyOp, Option.some.injEq, reduceCtorEq] at h
    subst h
    obtain rfl := Option.some.inj hc
    rfl
  | element name attrs items =>
    cases op with
    | attr id key value =>
      cases value <;>
        · obtain rfl := Option.some.inj h
          obtain rfl := Option.some.inj hc
          rfl
    | _ => exact hseq items (.element name attrs) (.element _ []) (fun _ => rfl) h

/-- The call deletes nothing at a negative index in a sequence that was there before the transaction, but
where the elements before the deleted ones recur. -/
def Call.Straight (t : MemTree) (created : List Id) : Call → Prop
  | delete id index length => index < 0 → id ∉ created → ∀ c, handle t.nodes id = some c →
      Recurs c.items (spliceStart c.items.length index) length.toNat
  | _ => True

def StraightRun : MemTree × Tx → List Call → Prop
  | _, [] => True
  | s, call :: calls => call.Straight s.1 s.2.created ∧ StraightRun (perform s call) calls

theorem operation_listDel {call : Call} {id : Id} {index : Int} {length : Nat}
    (h : (operation t call).1 = some (.listDel id index length)) :
    ∃ n, call = .delete id index n ∧ length = n.toNat := by
  cases call <;> simp only [operation, insertSnaps, textOp] at h <;> repeat' split at h
  all_goals simp_all

theorem straight_operation {created : List Id} {call : Call}
    (hs : call.Straight t created) (hop : (operation t call).1 = some op) (hnew : op.id ∉ created)
    (hd : deleted t.nodes op.id = false) (hc : contents t.nodes op.id = some c) : op.Straight c.items := by
  cases op with
  | listDel id index length =>
    obtain ⟨n, rfl, rfl⟩ := operation_listDel hop
    intro hneg
    refine hs hneg hnew c ?_
    rw [handle, if_neg (by rw [show deleted t.nodes id = false from hd]; simp)]
    exact hc
  | _ => trivial

theorem replay_append (after : Nodes) (changes changes' : List TreeChange) (mirror : Contents) :
    replay after (changes ++ changes') mirror = replay after changes' (replay after changes mirror) :=
  List.foldl_append

theorem replay_of_not_target {after : Nodes} {changes : List TreeChange} {x : Id} (mirror : Contents)
    (h : ∀ change ∈ changes, change.target ≠ x) : replay after changes mirror x = mirror x := by
  induction changes generalizing mirror with
  | nil => rfl
  | cons change changes ih =>
    have hx : change.target ≠ x := h change List.mem_cons_self
    rw [replay, List.foldl_cons]
    refine (ih _ fun ch hch => h ch (List.mem_cons_of_mem _ hch)).trans ?_
    cases contents after change.target with
    | none => rfl
    | some now =>
      cases deleted after change.target
      · exact Function.update_of_ne (Ne.symm hx) ..
      · rfl

theorem replay_target {after : Nodes} {change : TreeChange} {now m : Content} {mirror : Contents}
    (hnow : contents after change.target = some now) (hlive : deleted after change.target = false)
    (hm : mirror change.target = some m) :
    replay after [change] mirror change.target = some (replayChange now change m) := by
  simp [replay, hnow, hlive, hm]

/-- A run of calls tells changes of nodes that it does not create; replayed, they take a mirror that is
ahead of a node to the node. -/
theorem foldl_replay (hfresh : Fresh s.1) {calls : List Call} (hs : StraightRun s calls) :
    ∃ changes, (calls.foldl perform s).2.changes = s.2.changes ++ changes ∧
      (∀ change ∈ changes, change.target ∉ (calls.foldl perform s).2.created) ∧
      ∀ (mirror : Contents) id c now m, contents s.1.nodes id = some c → id ∉ s.2.created →
        deleted (calls.foldl perform s).1.nodes id = false →
        contents (calls.foldl perform s).1.nodes id = some now → mirror id = some m → Ahead now m c →
        ∃ m', replay (calls.foldl perform s).1.nodes changes mirror id = some m' ∧ Same m' now := by
  induction calls generalizing s with
  | nil =>
    refine ⟨[], by simp, by simp, fun mirror id c now m hc _ _ hnow hm hahead => ⟨m, hm, ?_⟩⟩
    obtain rfl := Option.some.inj (hc.symm.trans hnow)
    exact hahead.same
  | cons call calls ih =>
    obtain ⟨t, tx⟩ := s
    obtain ⟨hcall, hcalls⟩ := hs
    obtain ⟨changes, hchanges, htargets, hreplay⟩ := ih (perform_fresh hfresh tx call) hcalls
    obtain ⟨n, -, heq | ⟨op, c0, e, hop, hd, hc0, he, hmade, heq⟩⟩ := perform_cases t tx call
    · -- The call writes nothing.
      rw [heq] at hchanges hreplay
      refine ⟨changes, by rw [List.foldl_cons, heq, hchanges], htargets, ?_⟩
      simp only [List.foldl_cons, heq]
      exact hreplay
    · have hnew : op.id ∉ e.created.map (·.id) := not_mem_created hfresh hmade (by simp [hc0])
      obtain ⟨news, hcreated, hnews, -⟩ := foldl_created (perform_fresh hfresh tx call) calls
      have hkept := perform_keeps hfresh tx call (x := op.id) (by simp [hc0])
      have hlater : op.id ∉ news := fun hmem => hkept.1 (hnews _ hmem)
      have hkeeps : ∀ x, deleted (written t.nodes op.id e) x = true → contents t.nodes x ≠ none →
          deleted (calls.foldl perform (perform (t, tx) call)).1.nodes x = true := by
        intro x hdx hx
        refine (foldl_keeps (perform_fresh hfresh tx call) calls (perform_keeps hfresh tx call hx).1).2 ?_
        rwa [heq]
      rw [List.foldl_cons] at *
      have hrecord : record (written t.nodes op.id e) op.id (tx.created ++ e.created.map (·.id)) e.change = [] ∨
          ∃ change, e.change = some change ∧ op.id ∉ tx.created ∧
            record (written t.nodes op.id e) op.id (tx.created ++ e.created.map (·.id)) e.change = [change] := by
        cases e.change with
        | none => exact .inl rfl
        | some change =>
          by_cases hno : op.id ∈ tx.created ++ e.created.map (·.id) ∨ deleted (written t.nodes op.id e) op.id
          · exact .inl (if_pos hno)
          · refine .inr ⟨change, rfl, fun hold => hno (.inl (List.mem_append_left _ hold)), if_neg hno⟩
      refine ⟨record (written t.nodes op.id e) op.id (tx.created ++ e.created.map (·.id)) e.change ++ changes,
        ?_, ?_, ?_⟩
      · rw [hchanges, heq, List.append_assoc]
      · intro change hmem
        obtain hmem | hmem := List.mem_append.1 hmem
        · obtain hnil | ⟨change', hchange, hold, hone⟩ := hrecord
          · simp [hnil] at hmem
          · rw [hone, List.mem_singleton] at hmem
            subst hmem
            rw [target_of_applyOp he hchange, hcreated, heq]
            simp only [List.mem_append, not_or]
            exact ⟨⟨hold, hnew⟩, hlater⟩
        · exact htargets change hmem
      · intro mirror id c now m hc hid hlive hnow hm hahead
        rw [replay_append]
        by_cases htarget : id = op.id
        · subst htarget
          obtain rfl := Option.some.inj (hc0.symm.trans hc)
          have hlive' : deleted (written t.nodes op.id e) op.id = false := by
            cases hdx : deleted (written t.nodes op.id e) op.id with
            | false => rfl
            | true => rw [hkeeps _ hdx (by simp [hc0])] at hlive; exact absurd hlive (by simp)
          have hahead' := ahead_applyOp he hahead (straight_operation hcall hop hid hd hc0)
          have hcontent : contents (perform (t, tx) call).1.nodes op.id = some e.content := by
            rw [heq]
            exact (contents_written hfresh hmade (by simp [hc0])).trans (if_pos rfl)
          have hidcreated : op.id ∉ (perform (t, tx) call).2.created := by
            rw [heq]
            simp only [List.mem_append, not_or]
            exact ⟨hid, hnew⟩
          refine hreplay _ op.id e.content now _ hcontent hidcreated hlive hnow ?_ hahead'
          cases hchange : e.change with
          | none => exact hm
          | some change =>
            have htar := target_of_applyOp he hchange
            have hone : record (written t.nodes op.id e) op.id (tx.created ++ e.created.map (·.id))
                (some change) = [change] := by
              rw [record, if_neg]
              simp only [List.mem_append, not_or, hlive', Bool.false_eq_true, not_false_eq_true, and_true]
              exact ⟨hid, hnew⟩
            rw [hone, ← htar]
            rw [← htar] at hnow hlive hm
            exact replay_target hnow hlive hm
        · have hcontent : contents (perform (t, tx) call).1.nodes id = some c := by
            rw [heq]
            exact (contents_written hfresh hmade (by simp [hc])).trans ((if_neg htarget).trans hc)
          have hidcreated : id ∉ (perform (t, tx) call).2.created := by
            rw [heq]
            simp only [List.mem_append, not_or]
            exact ⟨hid, not_mem_created hfresh hmade (by simp [hc])⟩
          refine hreplay _ id c now m hcontent hidcreated hlive hnow ?_ hahead
          refine (replay_of_not_target mirror fun change hmem => ?_).trans hm
          obtain hnil | ⟨change', hchange, -, hone⟩ := hrecord
          · simp [hnil] at hmem
          · rw [hone, List.mem_singleton] at hmem
            subst hmem
            rw [target_of_applyOp he hchange]
            exact Ne.symm htarget

theorem exact_of_straightRun (t : InMemorySharedTree) {calls : List Call}
    (hs : StraightRun (t.toMemTree, .empty) calls) : Exact t.toMemTree calls := by
  obtain ⟨changes, hchanges, htargets, hreplay⟩ := foldl_replay (s := (t.toMemTree, .empty)) t.fresh hs
  obtain ⟨news, hcreated, hnews, hadd⟩ := foldl_created (s := (t.toMemTree, .empty)) t.fresh calls
  intro id c hlive hc
  rw [hchanges]
  by_cases hid : id ∈ (calls.foldl perform (t.toMemTree, Tx.empty)).2.created
  · refine ⟨c, ?_, (Ahead.refl c c).same⟩
    exact (replay_of_not_target _ fun change hmem heq => htargets change hmem (heq ▸ hid)).trans
      ((if_pos hid).trans hc)
  · cases hold : contents t.nodes id with
    | none =>
      have hgone := hadd id hold (by rwa [hcreated] at hid)
      exact absurd (hgone.symm.trans hc) (by simp)
    | some c0 =>
      refine hreplay _ id c0 c c0 hold (by simp [Tx.empty]) hlive hc ((if_neg hid).trans hold) (Ahead.refl c c0)

def listTree : InMemorySharedTree where
  inst := 1
  counter := 1
  nodes := [⟨.made 1 1, some .root, false, .list [.prim (.bool true), .prim .null, .prim (.bool false)]⟩,
    ⟨.root, none, false, .map [("l".toList, .node (.made 1 1))]⟩]
  fresh k hk := by
    rw [contents_eq_none]
    have hone : k ≠ 1 := Nat.ne_of_gt hk
    simpa using hone

/-- The last element goes, and the delta tells that the first one does. -/
theorem delete_negative_not_exact : ¬ Exact listTree.toMemTree [.delete (.made 1 1) (-1) 1] := by
  intro h
  obtain ⟨m, hm, hsame⟩ := h (.made 1 1) (.list [.prim (.bool true), .prim .null]) rfl rfl
  obtain rfl : Content.list [.prim .null, .prim (.bool false)] = m := Option.some.inj hm
  exact absurd hsame (by simp [Same])

/-- A batch replays exactly, and alters no node that the transaction leaves as it is, when every deletion
at a negative index is in a sequence that recurs. The delta of such a deletion is wrong in any other. -/
theorem batch_exact (t : InMemorySharedTree) (calls : List Call) (hs : StraightRun (t.toMemTree, .empty) calls) :
    Exact t.toMemTree calls ∧
    (∀ id c, deleted (transact t.toMemTree calls).1.nodes id = false → contents t.nodes id = some c →
      contents (transact t.toMemTree calls).1.nodes id = some c →
      ∃ m, replay (transact t.toMemTree calls).1.nodes (transact t.toMemTree calls).2.changes
        (mirrored t.nodes (transact t.toMemTree calls).1.nodes (transact t.toMemTree calls).2.created) id =
          some m ∧ Same m c) ∧
    ∀ (items : List TreeValue) (id : Id) (index : Int) (length : Nat) items' dropped created delta,
      applySeq items (.listDel id index length) = some (items', dropped, created, delta) →
      (mirrorItems items delta = items' ↔
        (index < 0 → Recurs items (spliceStart items.length index) length)) :=
  have hexact := exact_of_straightRun t hs
  ⟨hexact, fun id c hlive _ hafter => hexact id c hlive hafter, fun _ _ _ _ _ _ _ _ h => mirrorItems_delete h⟩

def deleteCalls : List Call :=
  [.delete (.made 1 1) 0 2, .set .root "k".toList (.prim (.bool true)), .delete (.made 1 1) (-1) 1]

theorem batch_exact_deleteCalls : Exact listTree.toMemTree deleteCalls := by
  have hs : StraightRun (listTree.toMemTree, .empty) deleteCalls := by
    refine ⟨fun h => absurd h (by decide), trivial, fun _ _ c hc => ?_, trivial⟩
    obtain rfl : Content.list [.prim (.bool false)] = c := Option.some.inj hc
    decide
  exact (batch_exact listTree deleteCalls hs).1

end Savoire.SharedTree
