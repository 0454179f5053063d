import Savoire.Base.Comparisons

/-! The query cut in two: the engine accepts its base where it accepts the query, and finds what it
keeps by its own part of the filter and by the one of the client. -/
namespace Savoire.Base
open Query InMemory
open StableSort (Sorter)

section Accepted
variable {host : EngineHost}

structure Compiled (host : EngineHost) (seen : List Text) : Prop where
  length : seen.length ≤ queryMaxFormulas
  ok : ∀ src ∈ seen, ∃ evaluate, host.compile src = .ok evaluate

theorem checkFormulas_cons {seen : List Text} (hseen : Compiled host seen) {src : Text} {fields : List Field}
    (h : checkFormulas host seen (.formula src :: fields) = .ok ()) :
    VaultIndex.jsTrim src ≠ [] ∧ (src.flatMap Utf.utf16).length ≤ formulaMaxLength ∧
      ∃ seen', Compiled host seen' ∧ seen ⊆ seen' ∧ src ∈ seen' ∧ checkFormulas host seen' fields = .ok () := by
  simp only [checkFormulas] at h
  split at h
  · cases h
  split at h
  · cases h
  next htrim hlen =>
    refine ⟨htrim, not_lt.1 hlen, ?_⟩
    split at h
    next hmem => exact ⟨seen, hseen, fun _ => id, hmem, h⟩
    next hmem =>
      split at h
      · cases h
      next hfull =>
        cases hc : host.compile src with
        | error message =>
          rw [hc] at h
          cases h
        | ok evaluate =>
          rw [hc] at h
          refine ⟨seen ++ [src], ⟨?_, ?_⟩, List.subset_append_left _ _, by simp, h⟩
          · rw [List.length_append, List.length_singleton]
            omega
          · intro src' hsrc'
            obtain hsrc' | hsrc' := List.mem_append.1 hsrc'
            · exact hseen.ok src' hsrc'
            · rw [List.mem_singleton.1 hsrc']
              exact ⟨evaluate, hc⟩

theorem checkFormulas_sublist {fields fields' : List Field} (hsub : fields'.Sublist fields) {seen seen' : List Text}
    (hseen : Compiled host seen) (hsub' : seen' ⊆ seen) (hnd : seen'.Nodup)
    (h : checkFormulas host seen fields = .ok ()) : checkFormulas host seen' fields' = .ok () := by
  induction hsub generalizing seen seen' with
  | slnil => rfl
  | cons f hsub ih =>
    cases f with
    | stored f => exact ih hseen hsub' hnd h
    | formula src =>
      obtain ⟨-, -, more, hmore, hseenmore, -, hrest⟩ := checkFormulas_cons hseen h
      exact ih hmore (fun s hs => hseenmore (hsub' hs)) hnd hrest
  | cons_cons f hsub ih =>
    cases f with
    | stored f => exact ih hseen hsub' hnd h
    | formula src =>
      obtain ⟨htrim, hlen, more, hmore, hseenmore, hsrc, hrest⟩ := checkFormulas_cons hseen h
      have hin : seen' ⊆ more := fun s hs => hseenmore (hsub' hs)
      simp only [checkFormulas, if_neg htrim, if_neg (not_lt.2 hlen)]
      split
      next => exact ih hmore hin hnd hrest
      next hmem =>
        have hnd' : (seen' ++ [src]).Nodup := by
          rw [List.nodup_append]
          exact ⟨hnd, List.nodup_singleton _, fun a ha b hb hab => hmem (List.mem_singleton.1 hb ▸ hab ▸ ha)⟩
        have hin' : seen' ++ [src] ⊆ more :=
          List.append_subset.2 ⟨hin, List.cons_subset.2 ⟨hsrc, List.nil_subset _⟩⟩
        have hlength := (List.subperm_of_subset hnd' hin').length_le
        have hmax := hmore.length
        rw [List.length_append, List.length_singleton] at hlength
        rw [if_neg (by omega)]
        obtain ⟨evaluate, hc⟩ := hmore.ok src hsrc
        rw [hc]
        exact ih hmore hin' hnd' hrest

theorem countNodes_and (fs : List InMemory.QueryFilter) : countNodes (.and fs) = 1 + (fs.map countNodes).sum := by
  simp only [countNodes, Condition.fold_and]
  rfl

theorem countNodes_map (g : InMemory.FilterLeaf → InMemory.FilterLeaf) (f : InMemory.QueryFilter) :
    countNodes (f.map g) = countNodes f := by
  induction f using Condition.ind with
  | and fs ih =>
    rw [Condition.map_and, countNodes_and, countNodes_and, List.map_map]
    exact congrArg (1 + ·.sum) (List.map_congr_left ih)
  | or fs ih =>
    simp only [countNodes, Condition.map_or, Condition.fold_or, List.map_map]
    exact congrArg (1 + ·.sum) (List.map_congr_left ih)
  | not f ih => exact congrArg (1 + ·) ih
  | leaf l => rfl

theorem filterFields_eq (f : InMemory.QueryFilter) : filterFields f = f.leaves.map (·.field) := by
  induction f using Condition.ind with
  | and fs ih =>
    rw [Condition.leaves_and, List.map_flatMap, filterFields, Condition.fold_and]
    exact List.flatMap_congr ih
  | or fs ih =>
    rw [Condition.leaves_or, List.map_flatMap, filterFields, Condition.fold_or]
    exact List.flatMap_congr ih
  | not f ih => exact ih
  | leaf l => rfl

theorem countNodes_join (fs gs : List InMemory.QueryFilter) (hsub : fs.Sublist gs) :
    (join fs).elim 0 countNodes ≤ countNodes (.and gs) := by
  have hsum : (fs.map countNodes).sum ≤ (gs.map countNodes).sum :=
    (hsub.map countNodes).sum_le_sum fun _ _ => Nat.zero_le _
  rw [countNodes_and]
  match fs with
  | [] => exact Nat.zero_le _
  | [f] =>
    rw [List.map_singleton, List.sum_singleton] at hsum
    simp only [join, Option.elim_some]
    omega
  | f :: f' :: fs =>
    simp only [join, Option.elim_some, countNodes_and]
    omega

theorem leaves_join (fs : List InMemory.QueryFilter) :
    (join fs).elim [] Condition.leaves = fs.flatMap Condition.leaves := by
  match fs with
  | [] => rfl
  | [f] => simp [join]
  | f :: f' :: fs => simp [join]

end Accepted

section Split
variable {host : ClientHost} {formula : FormulaLookup host.toEngineHost}

theorem toEngineLeaf_of_not {l : InMemory.FilterLeaf} (h : isFormulaField l.field = false) :
    toEngineLeaf host formula l = l := by
  rw [toEngineLeaf, if_neg (by simp [h])]

theorem not_uses {f : InMemory.QueryFilter} (h : usesFormula f = false) {l : InMemory.FilterLeaf} (hl : l ∈ f.leaves) :
    isFormulaField l.field = false := by
  simpa using List.any_eq_false.1 h l hl

theorem matches_of_not_uses {f : InMemory.QueryFilter} (h : usesFormula f = false) (d : EvalDoc) :
    matchesFilter host.toEngineHost d (toEngineFilter host formula f) = matchesFilter host.toEngineHost d f := by
  rw [matchesFilter, matchesFilter, toEngineFilter, Condition.holds_map]
  exact Condition.holds_congr f fun l hl => by rw [toEngineLeaf_of_not (not_uses h hl)]

theorem all_join {p : InMemory.QueryFilter → Bool} (hp : ∀ fs, p (.and fs) = fs.all p)
    (fs : List InMemory.QueryFilter) : (join fs).all p = fs.all p := by
  match fs with
  | [] => rfl
  | [f] => simp [join]
  | f :: f' :: fs => exact hp _

theorem engine_fields (w : Option InMemory.QueryFilter) :
    (((splitWhere w).engine).elim [] filterFields).Sublist
      ((w.map (toEngineFilter host formula)).elim [] filterFields) := by
  have hkeep : ∀ f : InMemory.QueryFilter, usesFormula f = false →
      filterFields (toEngineFilter host formula f) = filterFields f := by
    intro f hf
    rw [filterFields_eq, filterFields_eq, toEngineFilter, Condition.leaves_map, List.map_map]
    refine List.map_congr_left fun l hl => ?_
    rw [Function.comp_apply, toEngineLeaf_of_not (not_uses hf hl)]
  have hleaves : ∀ w : Option InMemory.QueryFilter,
      w.elim [] filterFields = (w.elim [] Condition.leaves).map (·.field) := by
    intro w
    cases w with
    | none => rfl
    | some f => exact filterFields_eq f
  cases w with
  | none => exact .refl _
  | some f =>
    simp only [splitWhere]
    cases hf : usesFormula f with
    | false =>
      simp only [Bool.not_false, if_true, Option.map_some, Option.elim_some, hkeep f hf]
      exact .refl _
    | true =>
      simp only [Bool.not_true, Bool.false_eq_true, if_false]
      cases f with
      | and fs =>
        simp only [Option.map_some, Option.elim_some]
        rw [hleaves, leaves_join, filterFields_eq, toEngineFilter, Condition.leaves_map, Condition.leaves_and]
        have hfields : ((fs.filter fun f => !usesFormula f).flatMap Condition.leaves).map (·.field) =
            ((fs.filter fun f => !usesFormula f).flatMap Condition.leaves).map
              (fun l => (toEngineLeaf host formula l).field) := by
          refine List.map_congr_left fun l hl => ?_
          obtain ⟨f, hf, hl⟩ := List.mem_flatMap.1 hl
          have hnot : usesFormula f = false := by simpa using (List.mem_filter.1 hf).2
          rw [toEngineLeaf_of_not (not_uses hnot hl)]
        rw [hfields, List.map_map]
        exact (List.filter_sublist.flatMap Condition.leaves).map _
      | _ => exact List.nil_sublist _

theorem engine_nodes (formula : FormulaLookup host.toEngineHost) (w : Option InMemory.QueryFilter) :
    (splitWhere w).engine.elim 0 countNodes ≤ (w.map (toEngineFilter host formula)).elim 0 countNodes := by
  cases w with
  | none => exact le_rfl
  | some f =>
    rw [Option.map_some, Option.elim_some, toEngineFilter, countNodes_map]
    simp only [splitWhere]
    split
    · exact le_rfl
    · cases f with
      | and fs => exact countNodes_join _ fs List.filter_sublist
      | _ => exact Nat.zero_le _

theorem checkQuery_base {q : InMemory.Query} {inSource : IndexedDoc → Bool}
    (h : checkQuery host.toEngineHost (toEngineQuery host formula q) = .ok inSource) :
    checkQuery host.toEngineHost (baseOf host q) = .ok inSource := by
  simp only [checkQuery] at h ⊢
  have hnodes : checkNodes (toEngineQuery host formula q) = .ok () := by
    cases hn : checkNodes (toEngineQuery host formula q) with
    | ok u => rfl
    | error err =>
      rw [hn] at h
      cases h
  rw [hnodes] at h
  have hformulas : checkFormulas host.toEngineHost [] (eachField (toEngineQuery host formula q)) = .ok () := by
    cases hf : checkFormulas host.toEngineHost [] (eachField (toEngineQuery host formula q)) with
    | ok u => rfl
    | error err =>
      rw [hf] at h
      cases h
  rw [hformulas] at h
  have hsource : sourceOf host.toEngineHost (toEngineQuery host formula q) = .ok inSource := by
    cases ha : checkAggregates (toEngineQuery host formula q).aggregate with
    | ok u =>
      rw [ha] at h
      exact h
    | error err =>
      rw [ha] at h
      cases h
  have hnodes' : checkNodes (baseOf host q) = .ok () := by
    have hle := engine_nodes formula q.filter
    unfold checkNodes at hnodes ⊢
    split at hnodes
    · cases hnodes
    next hmax =>
      refine if_neg fun hgt => hmax ?_
      exact hgt.trans_le (Nat.add_le_add_right hle _)
  have hsub : (eachField (baseOf host q)).Sublist (eachField (toEngineQuery host formula q)) := by
    have hsorts : ((if clientSort q then [] else q.sort).map (·.field)).Sublist
        ((q.sort.map (toEngineSort host formula)).map (·.field)) := by
      split
      · exact List.nil_sublist _
      next hsort =>
        rw [List.map_map]
        have hsame : q.sort.map (·.field) = q.sort.map ((·.field) ∘ toEngineSort host formula) := by
          refine List.map_congr_left fun s hs => ?_
          have hnot : isFormulaField s.field = false := by
            simpa using List.any_eq_false.1 (Bool.not_eq_true _ ▸ hsort) s hs
          exact (toEngineField_of_not hnot).symm
        rw [hsame]
    refine .append (.append (.append (.append (engine_fields q.filter) (.refl _)) hsorts) ?_) ?_
    · exact List.nil_sublist _
    · exact List.nil_sublist _
  have hformulas' : checkFormulas host.toEngineHost [] (eachField (baseOf host q)) = .ok () :=
    checkFormulas_sublist hsub ⟨Nat.zero_le _, by simp⟩ (fun _ => id) List.nodup_nil hformulas
  rw [hnodes', hformulas']
  exact hsource

def clientKeeps (host : ClientHost) (formula : FormulaLookup host.toEngineHost) (q : InMemory.Query)
    (row : QueryRow) : Bool :=
  (splitWhere q.filter).client.all fun f => matchRow host formula row f

theorem keptRows_eq (sorter : Sorter) (q : InMemory.Query) (rows : List QueryRow) :
    keptRows host formula sorter q rows =
      if clientSort q then sortRows host formula sorter (rows.filter (clientKeeps host formula q)) q.sort
      else rows.filter (clientKeeps host formula q) := by
  unfold keptRows clientKeeps
  cases (splitWhere q.filter).client with
  | none => simp
  | some f => rfl

theorem split_holds (w : Option InMemory.QueryFilter) (d : EvalDoc) :
    (w.all fun f => matchesFilter host.toEngineHost d (toEngineFilter host formula f)) =
      ((splitWhere w).engine.all (fun f => matchesFilter host.toEngineHost d f) &&
        (splitWhere w).client.all fun f => matchesFilter host.toEngineHost d (toEngineFilter host formula f)) := by
  have hand : ∀ fs, matchesFilter host.toEngineHost d (toEngineFilter host formula (.and fs)) =
      fs.all fun f => matchesFilter host.toEngineHost d (toEngineFilter host formula f) := by
    intro fs
    simp only [matchesFilter, toEngineFilter, Condition.map_and, Condition.holds_and, List.all_map]
    rfl
  have hand' : ∀ fs, matchesFilter host.toEngineHost d (.and fs) =
      fs.all fun f => matchesFilter host.toEngineHost d f := by
    intro fs
    simp only [matchesFilter, Condition.holds_and]
  cases w with
  | none => rfl
  | some f =>
    simp only [splitWhere]
    cases hf : usesFormula f with
    | false => simp [matches_of_not_uses hf]
    | true =>
      simp only [Bool.not_true, Bool.false_eq_true, if_false, Option.all_some]
      cases f with
      | and fs =>
        rw [all_join hand', all_join hand, hand, List.all_filter, List.all_filter, Bool.eq_iff_iff,
          Bool.and_eq_true, List.all_eq_true, List.all_eq_true, List.all_eq_true, ← forall₂_and]
        refine forall₂_congr fun f _ => ?_
        cases hf : usesFormula f with
        | false => simp [matches_of_not_uses hf]
        | true => simp
      | _ => simp

theorem keeps_toEngine (q : InMemory.Query) (inSource : IndexedDoc → Bool) (d : IndexedDoc) :
    keeps host.toEngineHost inSource (toEngineQuery host formula q) d =
      (keeps host.toEngineHost inSource (baseOf host q) d && (splitWhere q.filter).client.all fun f =>
        matchesFilter host.toEngineHost d.toEvalDoc (toEngineFilter host formula f)) := by
  simp only [keeps, toEngineQuery, baseOf, withKey, Option.all_map]
  rw [split_holds q.filter d.toEvalDoc]
  simp only [Bool.and_assoc]

theorem clientKeeps_eq {q : InMemory.Query} {d : IndexedDoc} {row : QueryRow} (hrow : Shows row d.toEvalDoc)
    (hsafe : ∀ f, (splitWhere q.filter).client = some f → ∀ l ∈ f.leaves, LeafSafe host formula d.toEvalDoc l) :
    clientKeeps host formula q row = (splitWhere q.filter).client.all fun f =>
      matchesFilter host.toEngineHost d.toEvalDoc (toEngineFilter host formula f) := by
  unfold clientKeeps
  cases hc : (splitWhere q.filter).client with
  | none => rfl
  | some f => exact matchRow_eq hrow (hsafe f hc)

end Split

end Savoire.Base
