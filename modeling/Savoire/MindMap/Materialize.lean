import Savoire.MindMap.Repair

/-! What a view shows of a mind map: every node once, whatever the order of the map. -/
namespace Savoire.MindMap
open Forest
open Query (sortTexts mem_sortTexts sortTexts_perm sortTexts_eq_of_perm)

section Get
variable {nodes nodes' : List FlatNode}

theorem get_id {id : Text} {n : FlatNode} (h : get nodes id = some n) : n.id = id := by
  simpa using List.find?_some h

theorem exists_get {id : Text} (h : id ∈ sortedIds nodes) : ∃ n, get nodes id = some n := by
  obtain ⟨n, hn, hid⟩ := List.mem_map.1 (mem_sortedIds.1 h)
  rw [← Option.isSome_iff_exists, get, List.find?_isSome]
  exact ⟨n, hn, by simpa using hid⟩

theorem leads_of_named {id : Text} (h : Leads (named nodes) (rootOf nodes) id) :
    id = rootOf nodes ∨ firstParents nodes id = named nodes id ∧ Leads (firstParents nodes) (rootOf nodes) id := by
  induction h with
  | here => exact .inl rfl
  | up hp hr ih =>
    rename_i id p
    by_cases hid : id = rootOf nodes
    · exact .inl hid
    by_cases hpid : p = id
    · exact hpid ▸ ih
    have hmem : id ∈ nodes.map (·.id) := by
      obtain ⟨n, hn, -⟩ := Option.bind_eq_some_iff.1 hp
      exact List.mem_map.2 ⟨n, List.mem_of_find?_eq_some hn, get_id hn⟩
    have hpmem : p ∈ nodes.map (·.id) := by
      obtain rfl | ⟨hfirst, hlead⟩ := ih
      · exact mem_sortedIds.1 (rootOf_mem (by rintro rfl; simp at hmem))
      · by_cases hpr : p = rootOf nodes
        · exact hpr ▸ mem_sortedIds.1 (rootOf_mem (by rintro rfl; simp at hmem))
        · obtain ⟨q, hq, -⟩ := hlead.cases_ne hpr
          exact mem_sortedIds.1 (mem_of_firstParents hq).1
    have hfirst : firstParents nodes id = some p := by
      rw [firstParents, if_neg (by simp only [not_or, not_not]; exact ⟨hmem, hid⟩), hp]
      simp only [hpid, hpmem, not_true_eq_false, or_self, ↓reduceIte]
    refine .inr ⟨hfirst.trans hp.symm, .up hfirst ?_⟩
    obtain rfl | ⟨-, hlead⟩ := ih
    · exact .here
    · exact hlead

theorem get_eq_of_perm (hids : (nodes.map (·.id)).Nodup) (h : nodes'.Perm nodes) : get nodes' = get nodes := by
  funext id
  cases hn : get nodes id with
  | none =>
    rw [get, List.find?_eq_none] at hn ⊢
    exact fun n hmem => hn n (h.subset hmem)
  | some n =>
    have hmem : n ∈ nodes' := h.symm.subset (List.mem_of_find?_eq_some hn)
    have hsome : (get nodes' id).isSome := by
      rw [get, List.find?_isSome]
      exact ⟨n, hmem, by simpa using get_id hn⟩
    obtain ⟨n', hn'⟩ := Option.isSome_iff_exists.1 hsome
    have hids' : (nodes'.map (·.id)).Nodup := (h.map _).nodup_iff.2 hids
    rw [hn', List.inj_on_of_nodup_map hids' (List.mem_of_find?_eq_some hn') hmem
      ((get_id hn').trans (get_id hn).symm)]

variable (hids : (nodes.map (·.id)).Nodup) (h : nodes'.Perm nodes)
include h

theorem sortedIds_eq_of_perm : sortedIds nodes' = sortedIds nodes := sortTexts_eq_of_perm (h.map _)

include hids

theorem named_eq_of_perm : named nodes' = named nodes := by
  funext id
  rw [named, named, get_eq_of_perm hids h]

theorem rootOf_eq_of_perm : rootOf nodes' = rootOf nodes := by
  rw [rootOf, rootOf, sortedIds_eq_of_perm h, named_eq_of_perm hids h]

theorem firstParents_eq_of_perm : firstParents nodes' = firstParents nodes := by
  have hmem : ∀ id, id ∈ nodes'.map (·.id) ↔ id ∈ nodes.map (·.id) := fun id => (h.map _).mem_iff
  funext id
  simp only [firstParents, hmem, rootOf_eq_of_perm hids h, named_eq_of_perm hids h]

theorem repair_eq_of_perm : repair nodes' = repair nodes := by
  have hstep : breakCycle nodes' = breakCycle nodes := by
    funext s id
    simp only [breakCycle, rootOf_eq_of_perm hids h, sortedIds_eq_of_perm h]
  have hfirst : firstRepair nodes' = firstRepair nodes := by
    simp only [firstRepair, rootOf_eq_of_perm hids h, sortedIds_eq_of_perm h, firstParents_eq_of_perm hids h]
  rw [repair, repair, hstep, hfirst, sortedIds_eq_of_perm h]

theorem resolveParents_eq_of_perm : resolveParents nodes' = resolveParents nodes := by
  have hnil : nodes' = [] ↔ nodes = [] := by
    rw [← List.length_eq_zero_iff, h.length_eq, List.length_eq_zero_iff]
  simp only [resolveParents, hnil, rootOf_eq_of_perm hids h, repair_eq_of_perm hids h]

theorem kidsOf_eq_of_perm : kidsOf nodes' = kidsOf nodes := by
  funext parentOf p
  rw [kidsOf, kidsOf, sortedIds_eq_of_perm h, get_eq_of_perm hids h]

theorem nodeObj_eq_of_perm : nodeObj nodes' = nodeObj nodes := by
  funext collapsed kids id
  rw [nodeObj, nodeObj, get_eq_of_perm hids h]

end Get

theorem materialize_eq_of_perm {m m' : FlatModel} (collapsed : Text → Bool) (h : m'.nodes.Perm m.nodes)
    (harrows : m'.arrows = m.arrows) (hsummaries : m'.summaries = m.summaries) :
    materialize m' collapsed = materialize m collapsed := by
  have harrowsOf : arrowsOf m' = arrowsOf m := by
    have hnames : names m'.nodes = names m.nodes := by
      funext v
      simp only [names, get_eq_of_perm m.ids h]
    rw [arrowsOf, arrowsOf, harrows, hnames]
  have hsummariesOf : summariesOf m' = summariesOf m := by
    funext r kids
    rw [summariesOf, summariesOf, hsummaries]
  rw [materialize, materialize, resolveParents_eq_of_perm m.ids h, kidsOf_eq_of_perm m.ids h,
    nodeObj_eq_of_perm m.ids h, h.length_eq, harrowsOf, hsummariesOf]

section Tree
variable {nodes : List FlatNode}

theorem filterMap_get {ids : List Text} (h : ids ⊆ sortedIds nodes) :
    (ids.filterMap (get nodes)).map (·.id) = ids := by
  induction ids with
  | nil => rfl
  | cons id ids ih =>
    rw [List.cons_subset] at h
    obtain ⟨n, hn⟩ := exists_get h.1
    rw [List.filterMap_cons_some hn, List.map_cons, get_id hn, ih h.2]

theorem kidsOf_perm (parentOf : Text → Option Text) (p : Text) :
    (kidsOf nodes parentOf p).Perm ((sortedIds nodes).filter fun id => parentOf id = some p) := by
  refine ((StableSort.sort_perm compareSiblings _).map _).trans ?_
  rw [filterMap_get (List.filter_subset_self _)]

theorem nodeObj_id (collapsed : Text → Bool) (kids : Text → List Text) (id : Text) :
    (nodeObj nodes collapsed kids id).id = id := by
  unfold nodeObj
  cases h : get nodes id with
  | none => rfl
  | some n => exact get_id h

end Tree

/-- The repair makes a tree of all the nodes, keeps the references that led to the root and does not
depend on the order of the nodes. -/
theorem repaired_tree (m m' : FlatModel) (collapsed : Text → Bool) (h : m'.nodes.Perm m.nodes)
    (harrows : m'.arrows = m.arrows) (hsummaries : m'.summaries = m.summaries) :
    resolveParents m'.nodes = resolveParents m.nodes ∧ materialize m' collapsed = materialize m collapsed ∧
    (resolveParents m.nodes = none ↔ m.nodes = []) ∧
    ∀ r, resolveParents m.nodes = some r →
      r.rootId ∈ m.nodes.map (·.id) ∧ r.parentOf r.rootId = none ∧
      (∀ id ∈ m.nodes.map (·.id), Leads r.parentOf r.rootId id) ∧
      (∀ id, id ≠ r.rootId → Leads (named m.nodes) r.rootId id → r.parentOf id = named m.nodes id) ∧
      ∃ data, materialize m collapsed = some data ∧
        (data.nodeData.values.map (·.id)).Perm (m.nodes.map (·.id)) := by
  refine ⟨resolveParents_eq_of_perm m.ids h, materialize_eq_of_perm collapsed h harrows hsummaries, ?_, ?_⟩
  · simp [resolveParents]
  · intro r hr
    by_cases hne : m.nodes = []
    · simp [resolveParents, hne] at hr
    have hmat : materialize m collapsed = (some r).map _ := congrArg (Option.map _) hr
    simp only [resolveParents, hne, ↓reduceIte, Option.some.injEq] at hr
    subst hr
    obtain ⟨hrepair, hall⟩ := repair_repairing hne
    have hleads : ∀ id ∈ m.nodes.map (·.id), Leads (repair m.nodes).parentOf (rootOf m.nodes) id :=
      fun id hid => hrepair.leads id (hall id (mem_sortedIds.2 hid))
    have hwithin : ∀ id, id ∈ m.nodes.map (·.id) ↔ Leads (repair m.nodes).parentOf (rootOf m.nodes) id := by
      refine fun id => ⟨hleads id, fun hid => mem_sortedIds.1 ?_⟩
      exact hrepair.searching.within (hrepair.reached_of_leads hid hrepair.root)
    have hkids : ∀ p c, c ∈ kidsOf m.nodes (repair m.nodes).parentOf p ↔
        (repair m.nodes).parentOf c = some p := by
      intro p c
      rw [(kidsOf_perm _ p).mem_iff, List.mem_filter, decide_eq_true_eq]
      exact ⟨And.right, fun hc => ⟨(hrepair.of_parent hc).1, hc⟩⟩
    have hnodup : ∀ p, (kidsOf m.nodes (repair m.nodes).parentOf p).Nodup := fun p =>
      (kidsOf_perm _ p).nodup_iff.2 ((sortedIds_nodup m.ids).filter _)
    refine ⟨mem_sortedIds.1 (rootOf_mem hne), hrepair.root_parent, hleads, fun id hid hlead => ?_,
      _, hmat, ?_⟩
    · obtain rfl | ⟨hfirst, hlead⟩ := leads_of_named hlead
      · exact absurd rfl hid
      · exact (hrepair.kept id hlead).2.trans hfirst
    · have hbelow := below_perm hkids hnodup hrepair.root_parent m.ids hwithin
      rw [List.length_map] at hbelow
      rw [values_build, List.map_map]
      have hcomp : ((·.id) ∘ nodeObj m.nodes collapsed (kidsOf m.nodes (repair m.nodes).parentOf)) = id :=
        funext fun id => nodeObj_id ..
      rw [hcomp, List.map_id]
      exact hbelow

/-- Two nodes that are each other's parents and one whose parent is gone. -/
def loopMap : FlatModel where
  nodes := [⟨"c".toList, some "b".toList, "k".toList, [], []⟩, ⟨"b".toList, some "c".toList, "m".toList, [], []⟩,
    ⟨"d".toList, some "x".toList, "a".toList, [], []⟩, ⟨"a".toList, none, [], [], []⟩]
  arrows := []
  summaries := []
  ids := by decide

def loopMapReversed : FlatModel where
  nodes := loopMap.nodes.reverse
  arrows := []
  summaries := []
  ids := by decide

theorem repaired_tree_loop :
    resolveParents loopMapReversed.nodes = resolveParents loopMap.nodes ∧
    (materialize loopMap fun _ => false).map (fun data => data.nodeData.values.map (·.id)) =
      some ["a".toList, "d".toList, "b".toList, "c".toList] := by
  obtain ⟨hresolve, -⟩ := repaired_tree loopMap loopMapReversed (fun _ => false) (List.reverse_perm _) rfl rfl
  exact ⟨hresolve, by decide +kernel⟩

end Savoire.MindMap
