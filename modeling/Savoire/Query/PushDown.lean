import Savoire.Query.Comparison

/-! A formula given to the query engine as a filter: it selects the rows where the formula holds,
when each of its comparisons agrees on the row. -/
namespace Savoire.Query
variable {host : FormulaHost}

/-- The formula becomes the filter, by its own structure. -/
inductive Pushes : Node → QueryFilter → Prop
  | and {a b : Node} {f g : QueryFilter} : Pushes a f → Pushes b g →
      Pushes (.bin .and a b) (.and [f, g])
  | or {a b : Node} {f g : QueryFilter} : Pushes a f → Pushes b g →
      Pushes (.bin .or a b) (.or [f, g])
  | not {a : Node} {f : QueryFilter} : Pushes a f → Pushes (.un .not a) (.not f)
  | callNot {a : Node} {f : QueryFilter} : Pushes a f → Pushes (.call .not [a]) (.not f)
  | comparison {n : Node} {f : QueryFilter} (k : Comparison) : comparisonOf n = some k →
      toFilterNode n = some f → Pushes n f

variable {n : Node} {k : Comparison}

theorem comparisons_of_comparison (h : comparisonOf n = some k) :
    comparisons n = [n] := by
  unfold comparisonOf at h
  split at h
  · rfl
  · rename_i op name v
    cases op <;> first | rfl | simp [testOf] at h
  · rename_i op v name
    cases op <;> first | rfl | simp [testOf, flipOp] at h
  · cases h

variable {op : BinOp}

theorem toFilterNode_left {name : Text} {v : FValue} {t : Test} (h : testOf op v = some t) :
    toFilterNode (.bin op (.prop name) (.lit v)) = comparisonFilter op name v := by
  cases op <;> first | rfl | simp [testOf] at h

theorem toFilterNode_right {name : Text} {v : FValue} {t : Test} (h : testOf (flipOp op) v = some t) :
    toFilterNode (.bin op (.lit v) (.prop name)) = comparisonFilter (flipOp op) name v := by
  cases op <;> first | rfl | simp [testOf, flipOp] at h

theorem matches_comparison (host : FormulaHost) (d : EvalDoc) (h : comparisonOf n = some k) :
    ∃ f, toFilterNode n = some f ∧ matchesDoc host.toHost d f =
      filterTest host k.test (fieldValue host.toHost d (fieldOfProp k.name)) := by
  unfold comparisonOf at h
  split at h
  · obtain rfl := Option.some.inj h
    exact ⟨_, rfl, by simp [filterTest, matchesDoc, matchesLeaf]⟩
  · obtain ⟨t, ht, rfl⟩ := Option.map_eq_some_iff.1 h
    rw [toFilterNode_left ht]
    exact matches_comparisonFilter d ht
  · obtain ⟨t, ht, rfl⟩ := Option.map_eq_some_iff.1 h
    rw [toFilterNode_right ht]
    exact matches_comparisonFilter d ht
  · cases h

variable {f : QueryFilter}

theorem comparisonOf_bin {a b : Node} (hand : op ≠ .and)
    (hor : op ≠ .or) (h : toFilterNode (.bin op a b) = some f) :
    ∃ k, comparisonOf (.bin op a b) = some k := by
  have hleft : ∀ name v, a = .prop name → b = .lit v → ∃ k, comparisonOf (.bin op a b) = some k := by
    rintro name v rfl rfl
    have hf : comparisonFilter op name v = some f := by
      cases op <;> first | contradiction | exact h
    obtain ⟨t, ht⟩ := testOf_of_comparisonFilter hf
    exact ⟨⟨name, t⟩, by simp [comparisonOf, ht]⟩
  have hright : ∀ name v, a = .lit v → b = .prop name → ∃ k, comparisonOf (.bin op a b) = some k := by
    rintro name v rfl rfl
    have hf : comparisonFilter (flipOp op) name v = some f := by
      cases op <;> first | contradiction | exact h
    obtain ⟨t, ht⟩ := testOf_of_comparisonFilter hf
    exact ⟨⟨name, t⟩, by simp [comparisonOf, ht]⟩
  cases a with
  | prop name =>
    cases b with
    | lit v => exact hleft name v rfl rfl
    | _ => cases op <;> contradiction
  | lit v =>
    cases b with
    | prop name => exact hright name v rfl rfl
    | _ => cases op <;> contradiction
  | _ => cases op <;> contradiction

theorem pushes_of_toFilterNode : ∀ (n : Node) {f : QueryFilter}, toFilterNode n = some f → Pushes n f
  | .bin op a b, f, h => by
    by_cases hand : op = .and
    · subst hand
      simp only [toFilterNode, bind, Option.bind_eq_some_iff, pure, Option.some.injEq] at h
      obtain ⟨g, hg, k, hk, rfl⟩ := h
      exact .and (pushes_of_toFilterNode a hg) (pushes_of_toFilterNode b hk)
    by_cases hor : op = .or
    · subst hor
      simp only [toFilterNode, bind, Option.bind_eq_some_iff, pure, Option.some.injEq] at h
      obtain ⟨g, hg, k, hk, rfl⟩ := h
      exact .or (pushes_of_toFilterNode a hg) (pushes_of_toFilterNode b hk)
    obtain ⟨k, hk⟩ := comparisonOf_bin hand hor h
    exact .comparison k hk h
  | .un op a, f, h => by
    cases op with
    | not =>
      simp only [toFilterNode, bind, Option.bind_eq_some_iff, pure, Option.some.injEq] at h
      obtain ⟨g, hg, rfl⟩ := h
      exact .not (pushes_of_toFilterNode a hg)
    | _ => simp [toFilterNode] at h
  | .call fn [], f, h => by cases fn <;> simp [toFilterNode, toFilterNodes] at h
  | .call fn (a :: b :: rest), f, h => by
    cases fn <;> simp [toFilterNode, toFilterNodes] at h
  | .call fn [a], f, h => by
    cases fn with
    | not =>
      cases hg : toFilterNode a with
      | none => simp [toFilterNode, toFilterNodes, hg] at h
      | some g =>
        simp only [toFilterNode, toFilterNodes, hg, Option.some.injEq] at h
        subst h
        exact .callNot (pushes_of_toFilterNode a hg)
    | empty =>
      cases a with
      | prop name => exact .comparison ⟨name, .empty⟩ rfl h
      | _ => simp [toFilterNode] at h
    | _ => simp [toFilterNode] at h
  | .lit _, _, h => by simp [toFilterNode] at h
  | .prop _, _, h => by simp [toFilterNode] at h
  | .tern .., _, h => by simp [toFilterNode] at h
  | .list _, _, h => by simp [toFilterNode] at h

def EvalDoc.row (d : EvalDoc) : FormulaRow := ⟨d.title, d.props⟩

/-- A comparison gives the same on the document in the formula and in the filter. Of a property
that hides the title, the formula reads the property and the filter reads the title. -/
def ComparisonAgrees (host : FormulaHost) (d : EvalDoc) (k : Comparison) : Prop :=
  match d.props.read host.toHost k.name, decide (k.name ∈ titleProps) with
  | some v, true => formulaTest host k.test (some v) =
      some (filterTest host k.test (some (.scalar (.text d.title))))
  | none, true => TestAgrees host k.test (some (.scalar (.text d.title)))
  | v, false => TestAgrees host k.test v

theorem comparisonAgrees_iff (d : EvalDoc) (k : Comparison) :
    formulaTest host k.test (readProp host d.row k.name) =
        some (filterTest host k.test (fieldValue host.toHost d (fieldOfProp k.name))) ↔
      ComparisonAgrees host d k := by
  by_cases htitle : k.name ∈ titleProps
  · have hfield : fieldValue host.toHost d (fieldOfProp k.name) = some (.scalar (.text d.title)) := by
      rw [fieldOfProp, if_pos htitle]
      rfl
    cases hread : d.props.read host.toHost k.name with
    | some v => simp [ComparisonAgrees, hread, htitle, readProp, EvalDoc.row, hfield]
    | none =>
      simp only [ComparisonAgrees, hread, htitle, decide_true, readProp, EvalDoc.row, hfield, if_true]
      exact formulaTest_iff k.test (some (.scalar (.text d.title)))
  · have hfield : fieldValue host.toHost d (fieldOfProp k.name) = d.props.read host.toHost k.name := by
      rw [fieldOfProp, if_neg htitle]
      rfl
    have hprop : readProp host d.row k.name = d.props.read host.toHost k.name := by
      simp only [readProp, EvalDoc.row, htitle, if_false]
      cases d.props.read host.toHost k.name <;> rfl
    rw [hfield, hprop, formulaTest_iff]
    simp [ComparisonAgrees, htitle]

theorem evalNode_of_agrees (d : EvalDoc) (hp : Pushes n f)
    (h : ∀ c ∈ comparisons n, ∀ k, comparisonOf c = some k → ComparisonAgrees host d k) :
    evalNode host d.row n = .ok (.bool (matchesDoc host.toHost d f)) := by
  induction hp with
  | and _ _ iha ihb =>
    have ha := iha fun c hc => h c (List.mem_append_left _ hc)
    have hb := ihb fun c hc => h c (List.mem_append_right _ hc)
    rw [evalNode, ha, hb]
    simp only [matchesDoc, Condition.holds_and, List.all_cons, List.all_nil, Bool.and_true]
    cases Condition.holds (matchesLeaf host.toHost d) _ <;> rfl
  | or _ _ iha ihb =>
    have ha := iha fun c hc => h c (List.mem_append_left _ hc)
    have hb := ihb fun c hc => h c (List.mem_append_right _ hc)
    rw [evalNode, ha, hb]
    simp only [matchesDoc, Condition.holds_or, List.any_cons, List.any_nil, Bool.or_false]
    cases Condition.holds (matchesLeaf host.toHost d) _ <;> rfl
  | not _ ih =>
    rw [evalNode, ih h]
    rfl
  | callNot _ ih =>
    have ha := ih fun c hc => h c (List.mem_append_left _ hc)
    rw [evalNode, evalNodes, evalNodes, ha]
    rfl
  | comparison k hk hf =>
    rename_i n f
    have hagrees := h n (by rw [comparisons_of_comparison hk]; exact List.mem_singleton_self n) k hk
    have heval := evaluates_comparison host d.row hk
    obtain ⟨g, hg, hmatch⟩ := matches_comparison host d hk
    obtain rfl := Option.some.inj (hf.symm.trans hg)
    rw [(comparisonAgrees_iff d k).2 hagrees, ← hmatch] at heval
    exact heval

theorem formulaHolds_of_eval {row : FormulaRow} {b : Bool}
    (h : evalNode host row n = .ok (.bool b)) : formulaHolds host row n = b := by
  simp [formulaHolds, h, output, asBool]

theorem agrees_of_both (d : EvalDoc) (hk : comparisonOf n = some k) (hf : toFilterNode n = some f)
    (h : matchesDoc host.toHost d f = formulaHolds host d.row n)
    (hnot : matchesDoc host.toHost d (.not f) = formulaHolds host d.row (.un .not n)) :
    ComparisonAgrees host d k := by
  have heval := evaluates_comparison host d.row hk
  obtain ⟨g, hg, hmatch⟩ := matches_comparison host d hk
  obtain rfl := Option.some.inj (hf.symm.trans hg)
  refine (comparisonAgrees_iff d k).1 ?_
  rw [← hmatch]
  cases hr : formulaTest host k.test (readProp host d.row k.name) with
  | some b =>
    rw [hr] at heval
    rw [h, formulaHolds_of_eval heval]
  | none =>
    rw [hr] at heval
    obtain ⟨e, he⟩ := heval
    -- an error holds neither in the comparison nor in its negation
    have hleft : formulaHolds host d.row n = false := by simp [formulaHolds, he]
    have hright : formulaHolds host d.row (.un .not n) = false := by
      have hn : evalNode host d.row (.un .not n) = .error e := by
        rw [evalNode, he]
        rfl
      simp [formulaHolds, hn]
    have hf : matchesDoc host.toHost d f = true := by
      simpa [matchesDoc, hright] using hnot
    rw [hf, hleft] at h
    cases h

theorem comparisonOf_of_pushes (hp : Pushes n f) :
    ∀ c ∈ comparisons n, ∃ k g, comparisonOf c = some k ∧ toFilterNode c = some g := by
  induction hp with
  | and _ _ iha ihb => exact fun c hc => (List.mem_append.1 hc).elim (iha c) (ihb c)
  | or _ _ iha ihb => exact fun c hc => (List.mem_append.1 hc).elim (iha c) (ihb c)
  | not _ ih => exact ih
  | callNot _ ih => exact fun c hc => ih c (by simpa [comparisons, comparisonsAll] using hc)
  | comparison k hk hf =>
    rename_i n f
    intro c hc
    rw [comparisons_of_comparison hk, List.mem_singleton] at hc
    subst hc
    exact ⟨k, f, hk, hf⟩

/-- The filter of a formula selects a document exactly when the formula holds there, in whatever
way its comparisons are combined, if and only if each of the comparisons agrees on the document. -/
theorem pushDown_iff (host : FormulaHost) (d : EvalDoc) (n : Node) (f : QueryFilter)
    (h : toFilterNode n = some f) :
    (∀ m g, toFilterNode m = some g → comparisons m ⊆ comparisons n →
        matchesDoc host.toHost d g = formulaHolds host d.row m) ↔
      ∀ c ∈ comparisons n, ∀ k, comparisonOf c = some k → ComparisonAgrees host d k := by
  constructor
  · intro hall c hc k hk
    obtain ⟨k', g, hk', hg⟩ := comparisonOf_of_pushes (pushes_of_toFilterNode n h) c hc
    have hsub : comparisons c ⊆ comparisons n := by
      rw [comparisons_of_comparison hk]
      exact List.cons_subset.2 ⟨hc, List.nil_subset _⟩
    have hnot : toFilterNode (.un .not c) = some (.not g) := by
      rw [toFilterNode, hg]
      rfl
    exact agrees_of_both d hk hg (hall c g hg hsub) (hall _ _ hnot hsub)
  · intro hagree m g hg hsub
    have heval := evalNode_of_agrees d (pushes_of_toFilterNode m hg)
      fun c hc => hagree c (hsub hc)
    exact (formulaHolds_of_eval heval).symm

/-- The plain host, with numerals of whole numbers read as numbers, exact arithmetic, no dates and
no further functions. -/
def plainFormulaHost : FormulaHost where
  toHost := plainHost
  toNumber s :=
    if s.all (·.isDigit) then .fin (s.foldl (fun n c => 10 * n + (c.toNat - '0'.toNat)) 0 : Nat) else .nan
  round10 := id
  dateText _ := []
  parseDate _ := .nan
  localeCompare a b := textSign a b
  arith
    | .sub, x, y => x.sub y
    | .add, .fin x, .fin y => .fin (x + y)
    | .mul, .fin x, .fin y => .fin (x * y)
    | _, _, _ => .nan
  call _ _ := .error .invalid

/-- `prop("rating") >= 3 and not (prop("done") == true)` -/
def toReview : Node :=
  .bin .and (.bin (.order .gte) (.prop "rating".toList) (.lit (.num (.fin 3))))
    (.un .not (.bin .eq (.prop "done".toList) (.lit (.bool true))))

def toReviewFilter : QueryFilter :=
  .and [.leaf ⟨.prop "rating".toList, .order .gte, some (.scalar (.num (.fin 3)))⟩,
    .not (.leaf ⟨.prop "done".toList, .eq, some (.scalar (.bool true))⟩)]

def noteOf (entries : List (Text × PropertyValue)) (h : (entries.map Prod.fst).Nodup) : EvalDoc :=
  ⟨"n".toList, "Notes/n.md".toList, "n".toList, ⟨entries, h⟩, none, none⟩

def ratedNote : EvalDoc :=
  noteOf [("rating".toList, .scalar (.num (.fin 4))), ("done".toList, .scalar (.bool false))] (by decide)

theorem pushDown_toReview :
    matchesDoc plainFormulaHost.toHost ratedNote toReviewFilter =
      formulaHolds plainFormulaHost ratedNote.row toReview := by
  have hrating : comparisonFilter (.order .gte) "rating".toList (.num (.fin 3)) =
      some (.leaf ⟨.prop "rating".toList, .order .gte, some (.scalar (.num (.fin 3)))⟩) :=
    if_neg (by decide +kernel)
  have hf : toFilterNode toReview = some toReviewFilter := by
    rw [toReview, toFilterNode, toFilterNode, toFilterNode_left (t := .order .gte (.fin 3)) rfl, hrating]
    rfl
  refine (pushDown_iff plainFormulaHost ratedNote toReview toReviewFilter hf).2 ?_ toReview toReviewFilter
    hf (List.Subset.refl _)
  intro c hc k hk
  obtain rfl | rfl := List.mem_pair.1 hc
  · obtain rfl := Option.some.inj hk
    exact trivial
  · obtain rfl := Option.some.inj hk
    exact trivial

/-- The formula compares the text as a number, the filter compares the texts. -/
theorem pushDown_fails : ¬ ∀ (host : FormulaHost) (d : EvalDoc) (n : Node) (f : QueryFilter),
    toFilterNode n = some f → matchesDoc host.toHost d f = formulaHolds host d.row n := by
  intro h
  have hcase := h plainFormulaHost (noteOf [("x".toList, .scalar (.text "9".toList))] (by decide))
    (.bin (.order .gt) (.prop "x".toList) (.lit (.num (.fin 10))))
    (.leaf ⟨.prop "x".toList, .order .gt, some (.scalar (.num (.fin 10)))⟩) (if_neg (by decide +kernel))
  exact absurd hcase (by decide +kernel)

end Savoire.Query
