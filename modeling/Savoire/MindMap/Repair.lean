import Savoire.MindMap.Model

/-! The repair of a mind map: from any references it makes a tree of all the nodes, and keeps every
reference that led to the root. -/
namespace Savoire.MindMap
open Forest
open Query (sortTexts mem_sortTexts sortTexts_perm sortTexts_eq_of_perm)

section Repair
variable {nodes : List FlatNode}

variable {id : Text}

theorem mem_sortedIds : id ∈ sortedIds nodes ↔ id ∈ nodes.map (·.id) := mem_sortTexts

theorem sortedIds_nodup (hids : (nodes.map (·.id)).Nodup) : (sortedIds nodes).Nodup :=
  (sortTexts_perm _).nodup_iff.2 hids

theorem rootOf_mem (hne : nodes ≠ []) : rootOf nodes ∈ sortedIds nodes := by
  have hnil : sortedIds nodes ≠ [] := by
    intro h
    have hlen := (sortTexts_perm (nodes.map (·.id))).length_eq
    rw [show sortTexts (nodes.map (·.id)) = [] from h, List.length_map] at hlen
    exact hne (List.length_eq_zero_iff.1 hlen.symm)
  obtain ⟨first, rest, hids⟩ := List.exists_cons_of_ne_nil hnil
  rw [rootOf]
  cases h : (sortedIds nodes).filter fun id => named nodes id = none with
  | nil => simp [hids]
  | cons id _ =>
    have hmem : id ∈ (sortedIds nodes).filter fun id => named nodes id = none := by simp [h]
    exact (List.mem_filter.1 hmem).1

theorem firstParents_some (hid : id ∈ sortedIds nodes) (hroot : id ≠ rootOf nodes) :
    ∃ p ∈ sortedIds nodes, firstParents nodes id = some p := by
  have hmem := mem_sortedIds.1 hid
  have hr : rootOf nodes ∈ sortedIds nodes := rootOf_mem (by rintro rfl; simp at hmem)
  unfold firstParents
  rw [if_neg (by simp only [not_or, not_not]; exact ⟨hmem, hroot⟩)]
  cases named nodes id with
  | none => exact ⟨_, hr, rfl⟩
  | some p =>
    dsimp only
    split_ifs with h
    · exact ⟨_, hr, rfl⟩
    · exact ⟨p, mem_sortedIds.2 (by tauto), rfl⟩

theorem mem_of_firstParents {id p : Text} (h : firstParents nodes id = some p) :
    id ∈ sortedIds nodes ∧ id ≠ rootOf nodes := by
  unfold firstParents at h
  split_ifs at h with hno
  simp only [not_or, not_not] at hno
  exact ⟨mem_sortedIds.2 hno.1, hno.2⟩

variable (nodes) in
structure Repairing (s : Repair) : Prop where
  has_parent : ∀ id ∈ sortedIds nodes, id ≠ rootOf nodes → ∃ p ∈ sortedIds nodes, s.parentOf id = some p
  of_parent : ∀ {id p}, s.parentOf id = some p → id ∈ sortedIds nodes ∧ id ≠ rootOf nodes
  children : ∀ p c, c ∈ s.childrenOf p ↔ s.parentOf c = some p
  searching : Searching s.childrenOf (sortedIds nodes) s.reached []
  root : rootOf nodes ∈ s.reached
  leads : ∀ id ∈ s.reached, Leads s.parentOf (rootOf nodes) id
  /-- What led to the root is as it was. -/
  kept : ∀ id, Leads (firstParents nodes) (rootOf nodes) id →
    id ∈ s.reached ∧ s.parentOf id = firstParents nodes id

variable {s : Repair}

theorem Repairing.root_parent (h : Repairing nodes s) : s.parentOf (rootOf nodes) = none := by
  cases hp : s.parentOf (rootOf nodes) with
  | none => rfl
  | some p => exact absurd rfl (h.of_parent hp).2

theorem Repairing.reached_of_parent (h : Repairing nodes s) {id p : Text}
    (hp : s.parentOf id = some p) (hr : p ∈ s.reached) : id ∈ s.reached :=
  h.searching.closed p hr (by simp) ((h.children p id).2 hp)

theorem children_within {parentOf : Text → Option Text} {childrenOf : Text → List Text}
    (hchildren : ∀ p c, c ∈ childrenOf p ↔ parentOf c = some p)
    (hof : ∀ {id p}, parentOf id = some p → id ∈ sortedIds nodes ∧ id ≠ rootOf nodes) :
    ∀ p ∈ sortedIds nodes, childrenOf p ⊆ sortedIds nodes :=
  fun p _ c hc => (hof ((hchildren p c).1 hc)).1

theorem firstRepair_repairing (hne : nodes ≠ []) :
    Repairing nodes (firstRepair nodes) := by
  have hroot := rootOf_mem hne
  have hchildren : ∀ p c, c ∈ (firstRepair nodes).childrenOf p ↔ (firstRepair nodes).parentOf c = some p := by
    intro p c
    simp only [firstRepair, List.mem_filter, decide_eq_true_eq]
    exact ⟨And.right, fun h => ⟨(mem_of_firstParents h).1, h⟩⟩
  have hwithin := children_within hchildren mem_of_firstParents
  have hstart : Searching (firstRepair nodes).childrenOf (sortedIds nodes) [rootOf nodes] [rootOf nodes] :=
    ⟨List.nodup_singleton _, by simpa using hroot, fun _ h => h, by simp⟩
  have hsearch := search_spec (n := (sortedIds nodes).length) hstart hwithin (by omega)
  have hrootmem : rootOf nodes ∈ (firstRepair nodes).reached := subset_search _ (by simp)
  refine ⟨fun id => firstParents_some, mem_of_firstParents, hchildren, hsearch, hrootmem, ?_, ?_⟩
  · refine search_induction (fun a ha c hc => .up ((hchildren a c).1 hc) ha) _ ?_ ?_
    · simpa using Leads.here
    · simpa using Leads.here
  · intro id hid
    refine ⟨?_, rfl⟩
    induction hid with
    | here => exact hrootmem
    | up hp _ ih => exact hsearch.closed _ ih (by simp) ((hchildren _ _).2 hp)

theorem Repairing.reached_of_leads (h : Repairing nodes s) {id b : Text}
    (hid : Leads s.parentOf b id) (hb : b ∈ s.reached) : id ∈ s.reached := by
  induction hid with
  | here => exact hb
  | up hp _ ih => exact h.reached_of_parent hp ih

theorem Repairing.exists_cycle (h : Repairing nodes s) (hid : id ∈ sortedIds nodes)
    (hnew : id ∉ s.reached) : ∃ path cur breakAt,
      walk (fun x => (s.parentOf x).getD x) s.reached ((sortedIds nodes).length + 1) [] id = (path, cur) ∧
      cur ∉ s.reached ∧ (sortTexts (path.drop (path.idxOf cur))).headD cur = breakAt ∧
      breakAt ∈ sortedIds nodes ∧ breakAt ∉ s.reached ∧ Leads s.parentOf breakAt id := by
  let loose : List Text := (sortedIds nodes).filter (· ∉ s.reached)
  have hloose : ∀ x, x ∈ loose ↔ x ∈ sortedIds nodes ∧ x ∉ s.reached := by simp [loose]
  have hparent : ∀ x ∈ loose, s.parentOf x = some ((s.parentOf x).getD x) ∧
      (s.parentOf x).getD x ∈ loose := by
    intro x hx
    obtain ⟨hmem, hout⟩ := (hloose x).1 hx
    have hroot : x ≠ rootOf nodes := fun he => hout (he ▸ h.root)
    obtain ⟨p, hp, hxp⟩ := h.has_parent x hmem hroot
    rw [hxp]
    exact ⟨rfl, (hloose p).2 ⟨hp, fun hr => hout (h.reached_of_parent hxp hr)⟩⟩
  have hidl : id ∈ loose := (hloose id).2 ⟨hid, hnew⟩
  have hlen : loose.length ≤ (sortedIds nodes).length := List.length_filter_le ..
  -- The first step is taken by hand, so that the path starts at the given node.
  obtain ⟨path, cur, hwalk, hpre, hcur, hpath, hchain⟩ := walk_spec (sortedIds nodes).length
    (fun x hx => (hparent x hx).2) (fun x hx => ((hloose x).1 hx).2) (hparent id hidl).2
    (List.nodup_singleton id) (by simpa using hidl) (by simp) (by simp; omega)
  have hchain' : (path ++ [cur]).IsChain fun x y => s.parentOf x = some y := by
    refine hchain.imp_of_mem_imp fun x y hx _ hxy => ?_
    have hxl : x ∈ loose := by
      obtain hx | hx := List.mem_append.1 hx
      · exact hpath hx
      · exact hpath (List.mem_singleton.1 hx ▸ hcur)
    rw [(hparent x hxl).1, hxy]
  obtain ⟨least, rest, hsorted⟩ : ∃ least rest, sortTexts (path.drop (path.idxOf cur)) = least :: rest := by
    refine List.exists_cons_of_ne_nil fun hnil => ?_
    have hlen := (sortTexts_perm (path.drop (path.idxOf cur))).length_eq
    have hlt := List.idxOf_lt_length_of_mem hcur
    rw [hnil, List.length_nil, List.length_drop] at hlen
    omega
  have hleast : least ∈ path.drop (path.idxOf cur) := by
    rw [← mem_sortTexts, hsorted]
    exact List.mem_cons_self
  have hll := (hloose least).1 (hpath (List.drop_subset _ _ hleast))
  refine ⟨path, cur, least, ?_, ((hloose cur).1 (hpath hcur)).2, by rw [hsorted]; rfl, hll.1, hll.2, ?_⟩
  · rw [walk, if_neg (by simp [hnew])]
    exact hwalk
  · exact leads_of_cycle hchain' hcur (hpre.subset List.mem_cons_self) hleast

def cutAt (nodes : List FlatNode) (s : Repair) (breakAt : Text) : Repair :=
  let old := (s.parentOf breakAt).getD breakAt
  let detached := Function.update s.childrenOf old ((s.childrenOf old).filter (· ≠ breakAt))
  let childrenOf := Function.update detached (rootOf nodes) (detached (rootOf nodes) ++ [breakAt])
  { parentOf := Function.update s.parentOf breakAt (some (rootOf nodes))
    childrenOf := childrenOf
    reached := search childrenOf (sortedIds nodes).length (s.reached ++ [breakAt]) [breakAt] }

theorem breakCycle_eq (h : Repairing nodes s) (hid : id ∈ sortedIds nodes)
    (hnew : id ∉ s.reached) : ∃ breakAt, breakCycle nodes s id = cutAt nodes s breakAt ∧
      breakAt ∈ sortedIds nodes ∧ breakAt ∉ s.reached ∧ Leads s.parentOf breakAt id := by
  obtain ⟨path, cur, breakAt, hwalk, hcur, rfl, hat⟩ := h.exists_cycle hid hnew
  refine ⟨_, ?_, hat⟩
  simp only [breakCycle, hnew, hwalk, hcur, ↓reduceIte, cutAt]

section Cut
variable {s : Repair} {breakAt : Text}

theorem cutAt_parent (x : Text) :
    (cutAt nodes s breakAt).parentOf x = if x = breakAt then some (rootOf nodes) else s.parentOf x := by
  simp [cutAt, Function.update_apply]

theorem cutAt_children (h : Repairing nodes s) (hat : breakAt ∈ sortedIds nodes)
    (hnew : breakAt ∉ s.reached) (p c : Text) :
    c ∈ (cutAt nodes s breakAt).childrenOf p ↔ (cutAt nodes s breakAt).parentOf c = some p := by
  obtain ⟨old, -, hold⟩ := h.has_parent breakAt hat fun he => hnew (he ▸ h.root)
  have hdetached : ∀ p, c ∈ Function.update s.childrenOf old ((s.childrenOf old).filter (· ≠ breakAt)) p ↔
      s.parentOf c = some p ∧ c ≠ breakAt := by
    intro p
    by_cases hp : p = old
    · subst hp
      simp [h.children]
    · rw [Function.update_of_ne hp, h.children, iff_self_and]
      rintro hc rfl
      exact hp (Option.some.inj (hc.symm.trans hold))
  have hmem : c ∈ (cutAt nodes s breakAt).childrenOf p ↔
      (s.parentOf c = some p ∧ c ≠ breakAt) ∨ (p = rootOf nodes ∧ c = breakAt) := by
    simp only [cutAt, hold, Option.getD_some]
    by_cases hp : p = rootOf nodes
    · subst hp
      rw [Function.update_self, List.mem_append, hdetached, List.mem_singleton]
      simp
    · rw [Function.update_of_ne hp, hdetached]
      simp [hp]
  rw [hmem, cutAt_parent]
  by_cases hc : c = breakAt
  · simp [hc, eq_comm]
  · simp [hc]

theorem reached_subset_cutAt : s.reached ++ [breakAt] ⊆ (cutAt nodes s breakAt).reached := subset_search _

variable (h : Repairing nodes s) (hat : breakAt ∈ sortedIds nodes) (hnew : breakAt ∉ s.reached)
include h hat hnew

theorem cutAt_searching :
    Searching (cutAt nodes s breakAt).childrenOf (sortedIds nodes) (cutAt nodes s breakAt).reached [] := by
  have hstart : Searching (cutAt nodes s breakAt).childrenOf (sortedIds nodes) (s.reached ++ [breakAt])
      [breakAt] := by
    refine ⟨?_, ?_, by simp, fun x hx hxb c hc => ?_⟩
    · exact h.searching.nodup.append (List.nodup_singleton _) (by simpa using hnew)
    · exact List.append_subset.2 ⟨h.searching.within, by simpa using hat⟩
    · have hxr : x ∈ s.reached := (List.mem_append.1 hx).resolve_right hxb
      rw [cutAt_children h hat hnew, cutAt_parent] at hc
      by_cases hcb : c = breakAt
      · simp [hcb]
      · rw [if_neg hcb] at hc
        exact List.mem_append_left _ (h.reached_of_parent hc hxr)
  refine search_spec hstart (fun p _ c hc => ?_) (by simp; omega)
  rw [cutAt_children h hat hnew, cutAt_parent] at hc
  by_cases hcb : c = breakAt
  · exact hcb ▸ hat
  · rw [if_neg hcb] at hc
    exact (h.of_parent hc).1

theorem cutAt_repairing : Repairing nodes (cutAt nodes s breakAt) := by
  have hsub : s.reached ++ [breakAt] ⊆ (cutAt nodes s breakAt).reached := reached_subset_cutAt
  have hroot : breakAt ≠ rootOf nodes := fun he => hnew (he ▸ h.root)
  have hrootmem : rootOf nodes ∈ sortedIds nodes := h.searching.within h.root
  have hsame : ∀ x ∈ s.reached, (cutAt nodes s breakAt).parentOf x = s.parentOf x := by
    intro x hx
    rw [cutAt_parent, if_neg]
    exact fun he => hnew (he ▸ hx)
  refine ⟨fun id hid hne => ?_, fun {id p} hp => ?_, cutAt_children h hat hnew,
    cutAt_searching h hat hnew, hsub (List.mem_append_left _ h.root), ?_, fun id hid => ?_⟩
  · rw [cutAt_parent]
    by_cases hb : id = breakAt
    · exact ⟨_, hrootmem, if_pos hb⟩
    · rw [if_neg hb]
      exact h.has_parent id hid hne
  · rw [cutAt_parent] at hp
    by_cases hb : id = breakAt
    · exact hb ▸ ⟨hat, hroot⟩
    · rw [if_neg hb] at hp
      exact h.of_parent hp
  · have hbreak : Leads (cutAt nodes s breakAt).parentOf (rootOf nodes) breakAt :=
      .up ((cutAt_parent breakAt).trans (if_pos rfl)) .here
    refine search_induction (fun a ha c hc => .up ((cutAt_children h hat hnew a c).1 hc) ha) _ ?_ ?_
    · intro x hx
      obtain hx | hx := List.mem_append.1 hx
      · exact (h.leads x hx).congr fun y _ hy => hsame y (h.reached_of_leads hy h.root)
      · exact List.mem_singleton.1 hx ▸ hbreak
    · simpa using hbreak
  · obtain ⟨hr, hp⟩ := h.kept id hid
    exact ⟨hsub (List.mem_append_left _ hr), (hsame id hr).trans hp⟩

theorem reached_of_cutAt {id : Text} (hid : Leads s.parentOf breakAt id) :
    id ∈ (cutAt nodes s breakAt).reached := by
  have hlead : Leads (cutAt nodes s breakAt).parentOf breakAt id :=
    hid.congr fun x hx _ => (cutAt_parent x).trans (if_neg hx)
  exact (cutAt_repairing h hat hnew).reached_of_leads hlead
    (reached_subset_cutAt (by simp))

end Cut

theorem Repairing.breakCycle (h : Repairing nodes s) (hid : id ∈ sortedIds nodes) :
    Repairing nodes (breakCycle nodes s id) ∧ id ∈ (MindMap.breakCycle nodes s id).reached ∧
      s.reached ⊆ (MindMap.breakCycle nodes s id).reached := by
  by_cases hnew : id ∈ s.reached
  · rw [MindMap.breakCycle, if_pos hnew]
    exact ⟨h, hnew, fun _ hx => hx⟩
  · obtain ⟨breakAt, heq, hat, hout, hlead⟩ := breakCycle_eq h hid hnew
    rw [heq]
    refine ⟨cutAt_repairing h hat hout, reached_of_cutAt h hat hout hlead, fun x hx => ?_⟩
    exact reached_subset_cutAt (List.mem_append_left _ hx)

theorem Repairing.foldl (h : Repairing nodes s) {ids : List Text} (hids : ids ⊆ sortedIds nodes) :
    Repairing nodes (ids.foldl (MindMap.breakCycle nodes) s) ∧
      s.reached ⊆ (ids.foldl (MindMap.breakCycle nodes) s).reached ∧
      ids ⊆ (ids.foldl (MindMap.breakCycle nodes) s).reached := by
  induction ids generalizing s with
  | nil => exact ⟨h, fun _ hx => hx, by simp⟩
  | cons id ids ih =>
    rw [List.cons_subset] at hids
    obtain ⟨hstep, hid, hsub⟩ := h.breakCycle hids.1
    obtain ⟨hrun, hkeep, hall⟩ := ih hstep hids.2
    exact ⟨hrun, fun x hx => hkeep (hsub hx), List.cons_subset.2 ⟨hkeep hid, hall⟩⟩

theorem repair_repairing (hne : nodes ≠ []) :
    Repairing nodes (repair nodes) ∧ ∀ id ∈ sortedIds nodes, id ∈ (repair nodes).reached := by
  obtain ⟨hrun, -, hall⟩ := (firstRepair_repairing hne).foldl (List.Subset.refl (sortedIds nodes))
  exact ⟨hrun, fun id hid => hall hid⟩

end Repair

end Savoire.MindMap
