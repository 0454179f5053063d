import Savoire.Query.Compare
import Savoire.Query.Formula

/-! The comparison of a property with a literal, in a formula and in the filter that the formula
becomes, and the values on which the two agree. -/
namespace Savoire.Query
variable {host : FormulaHost}

inductive Literal
  | bool (b : Bool)
  | num (n : Num)
  deriving DecidableEq

def Literal.scalar : Literal → Scalar
  | bool b => .bool b
  | num n => .num n

/-- `empty(prop)`, `prop == lit`, `prop != lit` and the order comparisons with a number. -/
inductive Test
  | empty
  | equal (neg : Bool) (lit : Literal)
  | order (o : Order) (n : Num)
  deriving DecidableEq

structure Comparison where
  name : Text
  test : Test
  deriving DecidableEq

def literalOf : FValue → Option Literal
  | .bool b => some (.bool b)
  | .num n => some (.num n)
  | _ => none

def testOf (op : BinOp) (lit : FValue) : Option Test :=
  match op, lit with
  | .eq, lit => (literalOf lit).map (.equal false)
  | .ne, lit => (literalOf lit).map (.equal true)
  | .order o, .num n => some (.order o n)
  | _, _ => none

def comparisonOf : Node → Option Comparison
  | .call .empty [.prop name] => some ⟨name, .empty⟩
  | .bin op (.prop name) (.lit v) => (testOf op v).map (⟨name, ·⟩)
  | .bin op (.lit v) (.prop name) => (testOf (flipOp op) v).map (⟨name, ·⟩)
  | _ => none

mutual
/-- The comparisons of a formula, under `and`, `or` and `not`. -/
def comparisons : Node → List Node
  | .bin .and a b => comparisons a ++ comparisons b
  | .bin .or a b => comparisons a ++ comparisons b
  | .un .not a => comparisons a
  | .call .not args => comparisonsAll args
  | n => [n]

def comparisonsAll : List Node → List Node
  | [] => []
  | a :: rest => comparisons a ++ comparisonsAll rest
end

def formulaTest (host : FormulaHost) (t : Test) (v : Option PropertyValue) : Option Bool :=
  match t with
  | .empty => some (readValue v).isEmpty
  | .equal neg lit => some (neg ^^ equals host (readValue v) (scalarValue lit.scalar))
  | .order o n => (compare host (readValue v) (.num n)).toOption.map o.test

def filterTest (host : FormulaHost) (t : Test) (v : Option PropertyValue) : Bool :=
  match t with
  | .empty => isEmptyValue v
  | .equal neg lit => (neg && isEmptyValue v) ||
    matchesValue host.toHost (if neg then .neq else .eq) (some (.scalar lit.scalar)) v
  | .order o n => (o.test ((Num.fin 0).sub n) && isEmptyValue v) ||
    matchesValue host.toHost (.order o) (some (.scalar (.num n))) v

theorem sub_eq_zero_comm (x y : Num) : x.sub y = .fin 0 ↔ y.sub x = .fin 0 := by
  cases x <;> cases y <;> simp [Num.sub, sub_eq_zero, eq_comm]

variable (o : Order)

theorem test_flip (x y : Num) : o.test (x.sub y) = o.flip.test (y.sub x) := by
  cases x <;> cases y <;> cases o <;> simp [Num.sub, Order.flip, Order.test]

theorem compare_num (v : FValue) (n : Num) :
    compare host v (.num n) = (asNumber host v).map (·.sub n) := by
  have hdate : (FValue.num n).isDateLike = false := rfl
  have hnum : (FValue.num n).isNumber = true := rfl
  simp only [compare, hdate, hnum, Bool.and_false, Bool.or_true, Bool.false_eq_true, if_false, if_true]
  cases asNumber host v <;> rfl

theorem num_compare (v : FValue) (n : Num) :
    compare host (.num n) v = (asNumber host v).map (n.sub ·) := by
  have hdate : (FValue.num n).isDateLike = false := rfl
  have hnum : (FValue.num n).isNumber = true := rfl
  simp only [compare, hdate, hnum, Bool.false_and, Bool.true_or, Bool.false_eq_true, if_false, if_true]
  cases asNumber host v <;> rfl

theorem equals_comm_lit (v : FValue) (lit : Literal) :
    equals host (scalarValue lit.scalar) v = equals host v (scalarValue lit.scalar) := by
  unfold equals
  rw [Bool.or_comm, Bool.and_comm, Bool.or_comm (FValue.isList _), Bool.or_comm (FValue.isBool _)]
  split_ifs
  · rfl
  · exact decide_eq_decide.2 eq_comm
  · exact Bool.beq_comm
  · rename_i hbool
    cases lit with
    | bool b => simp [Literal.scalar, scalarValue, FValue.isBool] at hbool
    | num n =>
      rw [Literal.scalar, scalarValue, compare_num, num_compare]
      cases asNumber host v with
      | error e => rfl
      | ok x => exact decide_eq_decide.2 (sub_eq_zero_comm n x)

/-- The node gives what the test gives. -/
def Evaluates (host : FormulaHost) (row : FormulaRow) (n : Node) (o : Option Bool) : Prop :=
  match o with
  | some b => evalNode host row n = .ok (.bool b)
  | none => ∃ e, evalNode host row n = .error e

theorem evaluates_order (host : FormulaHost) (row : FormulaRow) {n : Node}
    (r : Except FormulaError Num) {o : Order}
    (h : evalNode host row n = do return .bool (o.test (← r))) :
    Evaluates host row n (r.toOption.map o.test) := by
  cases r with
  | ok x => exact h
  | error e => exact ⟨e, h⟩

variable {v : FValue}

theorem literalOf_eq {lit : Literal} (h : literalOf v = some lit) :
    v = scalarValue lit.scalar := by
  cases v <;> simp [literalOf] at h <;> subst h <;> rfl

variable {op : BinOp} {name : Text} {t : Test}

theorem evaluates_left (row : FormulaRow) (h : testOf op v = some t) :
    Evaluates host row (.bin op (.prop name) (.lit v)) (formulaTest host t (readProp host row name)) := by
  unfold testOf at h
  split at h
  · obtain ⟨lit, hlit, rfl⟩ := Option.map_eq_some_iff.1 h
    rw [literalOf_eq hlit, formulaTest, Bool.false_xor]
    rfl
  · obtain ⟨lit, hlit, rfl⟩ := Option.map_eq_some_iff.1 h
    rw [literalOf_eq hlit, formulaTest, Bool.true_xor]
    rfl
  · rename_i o x
    obtain rfl := Option.some.inj h
    exact evaluates_order host row (compare host (readValue (readProp host row name)) (.num x)) rfl
  · cases h

theorem evaluates_right (row : FormulaRow) (h : testOf (flipOp op) v = some t) :
    Evaluates host row (.bin op (.lit v) (.prop name)) (formulaTest host t (readProp host row name)) := by
  cases op with
  | eq =>
    obtain ⟨lit, hlit, rfl⟩ := Option.map_eq_some_iff.1 h
    rw [literalOf_eq hlit, formulaTest, Bool.false_xor, ← equals_comm_lit]
    rfl
  | ne =>
    obtain ⟨lit, hlit, rfl⟩ := Option.map_eq_some_iff.1 h
    rw [literalOf_eq hlit, formulaTest, Bool.true_xor, ← equals_comm_lit]
    rfl
  | order o =>
    cases v with
    | num n =>
      obtain rfl := Option.some.inj h
      have hev := evaluates_order host row (o := o)
        (n := .bin (.order o) (.lit (.num n)) (.prop name))
        (compare host (.num n) (readValue (readProp host row name))) rfl
      have heq : (compare host (.num n) (readValue (readProp host row name))).toOption.map o.test =
          formulaTest host (.order o.flip n) (readProp host row name) := by
        rw [formulaTest, num_compare, compare_num]
        cases asNumber host (readValue (readProp host row name)) with
        | error e => rfl
        | ok x => exact congrArg some (test_flip o n x)
      rwa [heq] at hev
    | _ => simp [testOf, flipOp] at h
  | _ => simp [testOf, flipOp] at h

theorem evaluates_comparison (host : FormulaHost) (row : FormulaRow) {n : Node} {k : Comparison}
    (h : comparisonOf n = some k) :
    Evaluates host row n (formulaTest host k.test (readProp host row k.name)) := by
  unfold comparisonOf at h
  split at h
  · obtain rfl := Option.some.inj h
    rfl
  · obtain ⟨t, ht, rfl⟩ := Option.map_eq_some_iff.1 h
    exact evaluates_left row ht
  · obtain ⟨t, ht, rfl⟩ := Option.map_eq_some_iff.1 h
    exact evaluates_right row ht
  · cases h

theorem matches_comparisonFilter (d : EvalDoc)
    (h : testOf op v = some t) : ∃ f, comparisonFilter op name v = some f ∧
      matchesDoc host.toHost d f = filterTest host t (fieldValue host.toHost d (fieldOfProp name)) := by
  unfold testOf at h
  split at h
  · obtain ⟨lit, hlit, rfl⟩ := Option.map_eq_some_iff.1 h
    rw [literalOf_eq hlit]
    cases lit with
    | bool b => exact ⟨_, rfl, by simp [filterTest, matchesDoc, matchesLeaf, Literal.scalar]⟩
    | num n => exact ⟨_, rfl, by simp [filterTest, matchesDoc, matchesLeaf, Literal.scalar]⟩
  · obtain ⟨lit, hlit, rfl⟩ := Option.map_eq_some_iff.1 h
    rw [literalOf_eq hlit]
    cases lit with
    | bool b => exact ⟨_, rfl, by simp [filterTest, matchesDoc, matchesLeaf, Literal.scalar]⟩
    | num n => exact ⟨_, rfl, by simp [filterTest, matchesDoc, matchesLeaf, Literal.scalar]⟩
  · rename_i o n
    obtain rfl := Option.some.inj h
    cases hz : o.test ((Num.fin 0).sub n) with
    | true =>
      refine ⟨_, if_pos hz, ?_⟩
      simp [filterTest, hz, matchesDoc, matchesLeaf]
    | false =>
      refine ⟨_, if_neg (by simp [hz]), ?_⟩
      simp [filterTest, hz, matchesDoc, matchesLeaf]
  · cases h

theorem testOf_of_comparisonFilter {f : QueryFilter}
    (h : comparisonFilter op name v = some f) : ∃ t, testOf op v = some t := by
  unfold comparisonFilter at h
  split at h
  · exact ⟨_, rfl⟩
  · exact ⟨_, rfl⟩
  · exact ⟨_, rfl⟩
  · exact ⟨_, rfl⟩
  · exact ⟨_, rfl⟩
  · cases h

/-- `==` with a literal gives the same in the formula and in the filter. -/
def EqualTestAgrees (host : FormulaHost) (lit : Literal) : PropertyValue → Prop
  | .list xs => xs = [] ∨
    ((FValue.list (xs.map scalarValue)).asText host = (scalarValue lit.scalar).asText host ↔
      ∃ x ∈ xs, scalarEquals host.toHost x (.scalar lit.scalar) = true)
  | .scalar x => match x, lit with
    | .null, _ | .num _, .num _ | .bool _, .bool _ => True
    -- the filter compares texts: a number never equals a boolean
    | .num x, .bool b => b = !x.ne0
    | .bool b, .num n => b = !n.ne0
    | .text s, .bool b => s = [] ∨
      ((b = decide (s ≠ "false".toList)) ↔ foldText host.toHost s = boolText b)
    | .text s, .num n => s = [] ∨ ((∃ x, textNumber host s = some x ∧ x.sub n = .fin 0) ↔
      foldText host.toHost s = foldText host.toHost (host.numText n))

/-- An order comparison with a number gives the same, and is no error. -/
def OrderTestAgrees (host : FormulaHost) (o : Order) (n : Num) : PropertyValue → Prop
  | .list _ => False
  | .scalar x => match x with
    | .null | .num _ => True
    | .bool b => o.test ((Num.fin b.toNat).sub n) =
      o.test (textSign (boolText b) (foldText host.toHost (host.numText n)))
    | .text s => s = [] ∨ ∃ x, textNumber host s = some x ∧ o.test (x.sub n) =
      o.test (textSign (foldText host.toHost s) (foldText host.toHost (host.numText n)))

def TestAgrees (host : FormulaHost) (t : Test) : Option PropertyValue → Prop
  | none => True
  | some v => match t with
    | .empty => True
    | .equal _ lit => EqualTestAgrees host lit v
    | .order o n => OrderTestAgrees host o n v

theorem isEmpty_readValue (v : Option PropertyValue) : (readValue v).isEmpty = isEmptyValue v := by
  cases v with
  | none => rfl
  | some v =>
    cases v with
    | scalar x =>
      cases x with
      | text s => cases s <;> rfl
      | _ => rfl
    | list xs => cases xs <;> rfl

theorem matchesPresent_neq (v want : PropertyValue) :
    matchesPresent host.toHost .neq v want = !matchesPresent host.toHost .eq v want := by
  cases v <;> rfl

theorem filterTest_equal (neg : Bool) (lit : Literal) (v : PropertyValue) :
    filterTest host (.equal neg lit) (some v) =
      (neg ^^ (!isEmptyValue (some v) && matchesPresent host.toHost .eq v (.scalar lit.scalar))) := by
  have hop : operand (some (.scalar lit.scalar)) = some (.scalar lit.scalar) := by
    cases lit <;> simp [operand, Literal.scalar]
  cases neg with
  | false => simp [filterTest, matchesValue, hop]
  | true =>
    cases hv : isEmptyValue (some v) with
    | true => simp [filterTest, hv]
    | false => simp [filterTest, matchesValue, hop, hv, matchesPresent_neq]

variable (lit : Literal)

theorem lit_nonempty : (scalarValue lit.scalar).isEmpty = false := by
  cases lit <;> rfl

theorem lit_not_list : (scalarValue lit.scalar).isList = false := by
  cases lit <;> rfl

theorem foldText_num_ne_bool (x : Num) (b : Bool) : foldText host.toHost (host.numText x) ≠ boolText b := by
  have hb : foldText host.toHost (host.numText x) ≠ "true".toList ∧
      foldText host.toHost (host.numText x) ≠ "false".toList := by
    cases x with
    | nan =>
      rw [foldText_nan]
      decide
    | negInf =>
      rw [host.numText_negInf, foldText_ascii (by decide)]
      decide
    | posInf =>
      rw [host.numText_posInf, foldText_ascii (by decide)]
      decide
    | fin q =>
      obtain ⟨c, rest, heq, hc⟩ := foldText_fin host.toHost q
      rw [heq]
      constructor
      · intro h
        obtain rfl : c = 't' := List.head_eq_of_cons_eq h
        exact absurd hc (by decide)
      · intro h
        obtain rfl : c = 'f' := List.head_eq_of_cons_eq h
        exact absurd hc (by decide)
  cases b with
  | true => exact hb.1
  | false => exact hb.2

theorem foldText_bool_eq (b : Bool) : foldText host.toHost ((Scalar.bool b).str host.toHost) = boolText b :=
  foldText_bool _ b

variable {x : Scalar}

theorem scalarEquals_text {w : Scalar} (hnum : ∀ a b, ¬ (x = .num a ∧ w = .num b))
    (hbool : ∀ a b, ¬ (x = .bool a ∧ w = .bool b)) :
    scalarEquals host.toHost x (.scalar w) =
      decide (foldText host.toHost (x.str host.toHost) = foldText host.toHost (w.str host.toHost)) := by
  have h := compareScalar_eq_textSign host.toHost (x := x) (w := .scalar w)
    (fun a b hab => hnum a b ⟨hab.1, PropertyValue.scalar.inj hab.2⟩)
    (fun a b hab => hbool a b ⟨hab.1, PropertyValue.scalar.inj hab.2⟩)
  rw [scalarEquals, h]
  exact textSign_eq_zero _ _

theorem equals_empty (hv : v.isEmpty = true) (lit : Literal) :
    equals host v (scalarValue lit.scalar) = false := by
  unfold equals
  rw [hv, lit_nonempty]
  rfl

theorem equals_list {xs : List Scalar} (hxs : xs ≠ []) :
    equals host (propertyFValue (.list xs)) (scalarValue lit.scalar) = true ↔
      (FValue.list (xs.map scalarValue)).asText host = (scalarValue lit.scalar).asText host := by
  have hempty : (FValue.list (xs.map scalarValue)).isEmpty = false := by
    cases xs with
    | nil => contradiction
    | cons x xs => rfl
  unfold equals propertyFValue
  rw [hempty, lit_nonempty, lit_not_list]
  exact decide_eq_true_iff

theorem equals_scalar (host : FormulaHost) (lit : Literal) (hx : isEmptyValue (some (.scalar x)) = false) :
    equals host (scalarValue x) (scalarValue lit.scalar) =
      if (scalarValue x).isBool || (scalarValue lit.scalar).isBool then
        asBool (scalarValue x) == asBool (scalarValue lit.scalar)
      else match compare host (scalarValue x) (scalarValue lit.scalar) with
        | .ok n => decide (n = .fin 0)
        | .error _ => false := by
  have hempty : (scalarValue x).isEmpty = false := by
    rw [← hx, ← isEmpty_readValue]
    rfl
  have hlist : (scalarValue x).isList = false := by cases x <;> rfl
  unfold equals
  rw [hempty, hlist, lit_nonempty, lit_not_list]
  rfl

theorem asNumber_text {s : Text} (hs : s ≠ []) :
    (asNumber host (.text s)).toOption = textNumber host s := by
  cases s with
  | nil => contradiction
  | cons c s =>
    simp only [asNumber]
    cases textNumber host (c :: s) <;> rfl

theorem equals_num (host : FormulaHost) (hx : isEmptyValue (some (.scalar x)) = false)
    (hbool : (scalarValue x).isBool = false) (n : Num) :
    equals host (scalarValue x) (.num n) = true ↔
      ∃ y, (asNumber host (scalarValue x)).toOption = some y ∧ y.sub n = .fin 0 := by
  have heq := equals_scalar host (.num n) hx
  rw [hbool] at heq
  change equals host (scalarValue x) (.num n) =
    (match compare host (scalarValue x) (.num n) with | .ok n => decide (n = Num.fin 0) | .error _ => false) at heq
  rw [heq, compare_num]
  cases asNumber host (scalarValue x) with
  | error e => simp [Except.map, Except.toOption]
  | ok x => simp [Except.map, Except.toOption]

theorem equals_bool (hx : isEmptyValue (some (.scalar x)) = false) (lit : Literal)
    (hbool : (scalarValue x).isBool = true ∨ (scalarValue lit.scalar).isBool = true) :
    equals host (scalarValue x) (scalarValue lit.scalar) =
      (asBool (scalarValue x) == asBool (scalarValue lit.scalar)) := by
  rw [equals_scalar _ lit hx, if_pos (by simpa using hbool)]

theorem equals_scalar_iff (hx : isEmptyValue (some (.scalar x)) = false) :
    equals host (scalarValue x) (scalarValue lit.scalar) =
      scalarEquals host.toHost x (.scalar lit.scalar) ↔ EqualTestAgrees host lit (.scalar x) := by
  cases x with
  | null => cases hx
  | num x =>
    cases lit with
    | num n =>
      have heq := equals_num host hx rfl n
      simp only [scalarValue, asNumber, Except.toOption, Option.some.injEq, exists_eq_left'] at heq
      refine iff_of_true (Bool.eq_iff_iff.2 (heq.trans ?_)) trivial
      exact decide_eq_true_iff.symm
    | bool b =>
      have hfilter : scalarEquals host.toHost (.num x) (.scalar (.bool b)) = false := by
        rw [scalarEquals_text (by simp) (by simp), foldText_bool_eq]
        exact decide_eq_false (foldText_num_ne_bool x b)
      rw [equals_bool hx (.bool b) (.inr rfl)]
      simp only [Literal.scalar, hfilter, EqualTestAgrees]
      cases b <;> cases hz : x.ne0 <;> simp [scalarValue, asBool, hz]
  | bool b =>
    cases lit with
    | num n =>
      have hfilter : scalarEquals host.toHost (.bool b) (.scalar (.num n)) = false := by
        rw [scalarEquals_text (by simp) (by simp), foldText_bool_eq]
        exact decide_eq_false fun h => foldText_num_ne_bool n b h.symm
      rw [equals_bool hx (.num n) (.inl rfl)]
      simp only [Literal.scalar, hfilter, EqualTestAgrees]
      cases b <;> cases hz : n.ne0 <;> simp [scalarValue, asBool, hz]
    | bool c =>
      rw [equals_bool hx (.bool c) (.inl rfl)]
      cases b <;> cases c <;> simp [scalarValue, Literal.scalar, asBool, scalarEquals, compareScalar, EqualTestAgrees]
  | text s =>
    have hs : s ≠ [] := by
      rintro rfl
      cases hx
    cases lit with
    | num n =>
      rw [scalarEquals_text (by simp) (by simp), Bool.eq_iff_iff]
      change (equals host (scalarValue (.text s)) (.num n) = true ↔ _) ↔ _
      rw [equals_num _ hx rfl, decide_eq_true_iff]
      simp [EqualTestAgrees, hs, Scalar.str, Literal.scalar, scalarValue, asNumber_text hs]
    | bool b =>
      have hlit : foldText host.toHost ((Literal.bool b).scalar.str host.toHost) = boolText b :=
        foldText_bool_eq b
      rw [equals_bool hx (.bool b) (.inr rfl), scalarEquals_text (by simp) (by simp), hlit,
        Bool.eq_iff_iff, decide_eq_true_iff]
      have hbool : asBool (.text s) = decide (s ≠ "false".toList) := by simp [asBool, hs]
      simp only [EqualTestAgrees, hs, false_or, scalarValue, Literal.scalar, hbool, Scalar.str, beq_iff_eq]
      rw [eq_comm]
      rfl

theorem formulaTest_equal_iff (neg : Bool) (lit : Literal) (v : PropertyValue) :
    formulaTest host (.equal neg lit) (some v) = some (filterTest host (.equal neg lit) (some v)) ↔
      EqualTestAgrees host lit v := by
  rw [filterTest_equal, formulaTest, Option.some_inj, Bool.xor_right_inj]
  change equals host (propertyFValue v) (scalarValue lit.scalar) = _ ↔ _
  cases v with
  | list xs =>
    by_cases hxs : xs = []
    · subst hxs
      rw [equals_empty (by rfl)]
      exact iff_of_true rfl (.inl rfl)
    · have hempty : isEmptyValue (some (.list xs)) = false := by
        cases xs with
        | nil => contradiction
        | cons x xs => rfl
      rw [Bool.eq_iff_iff, equals_list lit hxs, hempty]
      simp [matchesPresent, matchesList, EqualTestAgrees, hxs]
  | scalar x =>
    cases hx : isEmptyValue (some (.scalar x)) with
    | false => exact equals_scalar_iff lit hx
    | true =>
      have hempty : (scalarValue x).isEmpty = true := by
        rw [← hx, ← isEmpty_readValue]
        rfl
      refine iff_of_true ((equals_empty hempty lit).trans rfl) ?_
      cases x with
      | null => trivial
      | text s =>
        cases s with
        | nil => cases lit <;> exact Or.inl rfl
        | cons c s => cases hx
      | _ => cases hx

theorem formulaTest_order (n : Num) (v : Option PropertyValue) :
    formulaTest host (.order o n) v =
      (asNumber host (readValue v)).toOption.map fun x => o.test (x.sub n) := by
  rw [formulaTest, compare_num]
  cases asNumber host (readValue v) <;> rfl

theorem filterTest_order_scalar (n : Num) (hx : isEmptyValue (some (.scalar x)) = false) :
    filterTest host (.order o n) (some (.scalar x)) =
      o.test (compareScalar host.toHost x (.scalar (.num n))) := by
  have hop : operand (some (.scalar (.num n))) = some (.scalar (.num n)) := by simp [operand]
  simp [filterTest, hx, matchesValue, hop, matchesPresent, matchesScalar]

theorem filterTest_order_empty (n : Num) {v : Option PropertyValue}
    (hv : isEmptyValue v = true) :
    filterTest host (.order o n) v = o.test ((Num.fin 0).sub n) := by
  have hop : operand (some (.scalar (.num n))) = some (.scalar (.num n)) := by simp [operand]
  cases v with
  | none => simp [filterTest, hv, matchesValue]
  | some v => simp [filterTest, hv, matchesValue, hop]

theorem formulaTest_order_iff (n : Num) (v : PropertyValue) :
    formulaTest host (.order o n) (some v) = some (filterTest host (.order o n) (some v)) ↔
      OrderTestAgrees host o n v := by
  rw [formulaTest_order]
  cases v with
  | list xs =>
    refine iff_of_false ?_ id
    simp [readValue, propertyFValue, asNumber, Except.toOption]
  | scalar x =>
    cases x with
    | null =>
      rw [filterTest_order_empty o n rfl]
      exact iff_of_true rfl trivial
    | num x =>
      rw [filterTest_order_scalar o n rfl]
      exact iff_of_true rfl trivial
    | bool b =>
      rw [filterTest_order_scalar o n rfl, compareScalar_eq_textSign _ (by simp) (by simp), foldText_bool_eq]
      exact Option.some_inj
    | text s =>
      by_cases hs : s = []
      · subst hs
        rw [filterTest_order_empty o n rfl]
        exact iff_of_true rfl (.inl rfl)
      · have hempty : isEmptyValue (some (.scalar (.text s))) = false := by
          cases s with
          | nil => contradiction
          | cons c s => rfl
        have hnum : asNumber host (readValue (some (.scalar (.text s)))) = asNumber host (.text s) := rfl
        rw [filterTest_order_scalar o n hempty, compareScalar_eq_textSign _ (by simp) (by simp), hnum,
          asNumber_text hs, Option.map_eq_some_iff]
        simp [OrderTestAgrees, hs, Scalar.str, PropertyValue.str]

theorem formulaTest_iff (t : Test) (v : Option PropertyValue) :
    formulaTest host t v = some (filterTest host t v) ↔ TestAgrees host t v := by
  cases v with
  | none =>
    refine iff_of_true ?_ trivial
    cases t with
    | empty => rfl
    | equal neg lit =>
      have hequals : equals host .null (scalarValue lit.scalar) = false := equals_empty rfl lit
      cases neg <;> simp [formulaTest, readValue, hequals, filterTest, matchesValue, isEmptyValue]
    | order o n =>
      rw [filterTest_order_empty o n rfl, formulaTest_order]
      rfl
  | some v =>
    cases t with
    | empty => exact iff_of_true (congrArg some (isEmpty_readValue _)) trivial
    | equal neg lit => exact formulaTest_equal_iff neg lit v
    | order o n => exact formulaTest_order_iff o n v

end Savoire.Query
