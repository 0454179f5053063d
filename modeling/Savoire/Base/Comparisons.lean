import Savoire.Base.FormulaEngine

/-! The conditions under which the client finds in a row what the engine finds in the document: a
field that both read, and a text that both compare in one way. -/
namespace Savoire.Base
open Query InMemory

section Definitions
variable (host : ClientHost)

def Readable (d : EvalDoc) (f : Field) : Prop :=
  match f with
  | .stored (.doc .created) | .stored (.doc .modified) | .formula _ =>
    isEmptyValue (InMemory.fieldOf host.toEngineHost d f) = true
  | _ => True

/-- Two values that nothing tells apart. -/
def Alike (v w : Option PropertyValue) : Prop := v = w ∨ isEmptyValue v = true ∧ isEmptyValue w = true

def scalars : PropertyValue → List Scalar
  | .scalar x => [x]
  | .list xs => xs

/-- The text is the one of the number, capitals and marks aside. -/
def Numeral (t : Text) (n : Query.Num) : Prop := foldText host.toHost t = foldText host.toHost (host.numText n)

/-- The conditions that compare the value with the operand; the others look for one text in another. -/
def compares : FilterOp → PropertyValue → Bool
  | .startsWith, _ | .contains, .scalar _ => false
  | _, _ => true

def TextSafe (op : FilterOp) (v : PropertyValue) (t : Text) : Prop :=
  readsAsNumber host t = true → compares op v = true →
    (∀ x, .num x ∉ scalars v) ∨ (∀ o, op ≠ .order o) ∧ Numeral host t (host.toNumber t)

/-- A text that the engine gets as a number has no comma, and is the numeral or meets numbers only. -/
def NumberSafe (op : FilterOp) (v : PropertyValue) (t : Text) : Prop :=
  readsDotted host t = true → ',' ∉ t ∧
    (Numeral host t (host.toNumber t) ∨ compares op v = true ∧ ∀ x ∈ scalars v, ∃ n, x = .num n)

def OperandSafe (op : FilterOp) (isFormula : Bool) (v : PropertyValue) : Option PropertyValue → Prop
  | some (.scalar (.text t)) => if isFormula then NumberSafe host op v t else TextSafe host op v t
  | some (.list ws) => op = .inValues → ∀ t, .text t ∈ ws → TextSafe host op v t
  | _ => True

/-- The condition finds one answer on a value, by the client and by the engine. -/
def LeafSafe (formula : FormulaLookup host.toEngineHost) (d : EvalDoc) (l : InMemory.FilterLeaf) : Prop :=
  Readable host d l.field ∧
    (l.op ≠ .empty → l.op ≠ .notEmpty → ∀ v, isEmptyValue (some v) = false →
      InMemory.fieldOf host.toEngineHost d (toEngineField host formula l.field) = some v →
      OperandSafe host l.op (isFormulaField l.field) v l.value)

end Definitions

variable {host : ClientHost}

variable {t : Text}

section Compare

variable {a : Scalar}

theorem compareScalar_of_not_text {w : PropertyValue} (h : ∀ t, w ≠ .scalar (.text t)) :
    compareScalar host a w = Query.compareScalar host.toHost a w := by
  cases w with
  | list ws => cases a <;> rfl
  | scalar b =>
    cases b with
    | text t => exact absurd rfl (h t)
    | _ => cases a <;> rfl

theorem compareScalar_of_not_num {w : PropertyValue} (h : ∀ x, a ≠ .num x) :
    compareScalar host a w = Query.compareScalar host.toHost a w := by
  cases a with
  | num x => exact absurd rfl (h x)
  | bool b => cases w with
    | list ws => rfl
    | scalar c => cases c <;> rfl
  | _ => rfl

theorem compareScalar_of_unread (h : readsAsNumber host t = false) :
    compareScalar host a (.scalar (.text t)) = Query.compareScalar host.toHost a (.scalar (.text t)) := by
  cases a with
  | num x => simp only [compareScalar, Query.compareScalar, h, Bool.false_eq_true, if_false]
  | _ => exact compareScalar_of_not_num (by simp)

theorem compareScalar_of_read {x : Query.Num} (h : readsAsNumber host t = true) :
    compareScalar host (.num x) (.scalar (.text t)) = x.sub (host.toNumber t) := by
  simp only [compareScalar, h, if_true]

theorem compareScalar_numeral {n : Query.Num} (ha : ∀ x, a ≠ .num x) (h : Numeral host t n) :
    Query.compareScalar host.toHost a (.scalar (.num n)) =
      Query.compareScalar host.toHost a (.scalar (.text t)) := by
  have hfold : foldText host.toHost (PropertyValue.str host.toHost (.scalar (.num n))) =
      foldText host.toHost (PropertyValue.str host.toHost (.scalar (.text t))) := h.symm
  rw [compareScalar_eq_textSign host.toHost (by simp [ha]) (by simp),
    compareScalar_eq_textSign host.toHost (by simp) (by simp), hfold]

theorem eq_numeral {x : Query.Num} (hread : readsAsNumber host t = true)
    (h : Numeral host t (host.toNumber t)) :
    eq host (.num x) (.scalar (.text t)) = scalarEquals host.toHost (.num x) (.scalar (.text t)) := by
  have hfin : (host.toNumber t).isFinite = true := by
    simp only [readsAsNumber, Bool.and_eq_true] at hread
    exact hread.2
  rw [eq, compareScalar_of_read hread, scalarEquals,
    compareScalar_eq_textSign host.toHost (by simp) (by simp), textSign_eq_zero]
  refine decide_eq_decide.2 ⟨fun hzero => ?_, fun htext => ?_⟩
  · have hx : x = host.toNumber t := by
      cases hn : host.toNumber t with
      | fin q =>
        cases x with
        | fin p =>
          rw [hn] at hzero
          have hsub : p - q = 0 := Query.Num.fin.inj hzero
          rw [sub_eq_zero.1 hsub]
        | _ => simp [hn, Query.Num.sub] at hzero
      | _ => simp [hn, Query.Num.isFinite] at hfin
    rw [hx]
    exact h.symm
  · have hnum : foldText host.toHost (host.numText x) = foldText host.toHost (host.numText (host.toNumber t)) :=
      htext.trans h
    have hread' := congrArg host.toNumber hnum
    rw [host.toNumber_fold, host.toNumber_fold, if_pos hfin] at hread'
    split at hread'
    · rw [hread']
      cases hn : host.toNumber t with
      | fin q => simp [Query.Num.sub]
      | _ => simp [hn, Query.Num.isFinite] at hfin
    · rw [← hread'] at hfin
      cases hfin

end Compare

section Conditions
variable {op : FilterOp} {v w w' : PropertyValue}

theorem matchPresent_eq
    (heq : compares op v = true → ∀ x ∈ scalars v, eq host x w = scalarEquals host.toHost x w')
    (horder : ∀ o, op = .order o → ∀ x ∈ scalars v,
      compareScalar host x w = Query.compareScalar host.toHost x w')
    (htext : compares op v = false → foldText host.toHost (w.str host.toHost) =
      foldText host.toHost (w'.str host.toHost))
    (hin : op = .inValues → ∀ x ∈ scalars v, anyValue w (fun c => eq host x (.scalar c)) =
      anyValue w' fun c => scalarEquals host.toHost x (.scalar c)) :
    matchPresent host op v w = matchesPresent host.toHost op v w' := by
  have hany : ∀ {xs : List Scalar} {p q : Scalar → Bool}, (∀ x ∈ xs, p x = q x) → xs.any p = xs.any q := by
    intro xs p q h
    rw [Bool.eq_iff_iff, List.any_eq_true, List.any_eq_true]
    exact exists_congr fun x => and_congr_right fun hx => by rw [h x hx]
  cases v with
  | scalar a =>
    have ha : a ∈ scalars (.scalar a) := List.mem_singleton_self a
    cases op with
    | eq => exact heq rfl a ha
    | neq => exact congrArg not (heq rfl a ha)
    | order o => exact congrArg o.test (horder o rfl a ha)
    | contains => exact congrArg (includes _) (htext rfl)
    | startsWith => exact congrArg (Text.startsWith _) (htext rfl)
    | inValues => exact hin rfl a ha
    | empty => rfl
    | notEmpty => rfl
  | list xs =>
    cases op with
    | eq => exact hany (heq rfl)
    | contains => exact hany (heq rfl)
    | neq => exact congrArg not (hany (heq rfl))
    | inValues => exact hany (hin rfl)
    | order o => rfl
    | startsWith => rfl
    | empty => rfl
    | notEmpty => rfl

theorem eq_of_compare {x : Scalar} (h : compareScalar host x w = Query.compareScalar host.toHost x w') :
    eq host x w = scalarEquals host.toHost x w' := by
  rw [eq, scalarEquals, h]

theorem dotted_of_not_mem (h : ',' ∉ t) : dotted t = t := by
  have hall : t.span (· ≠ ',') = (t, []) := by
    rw [List.span_eq_takeWhile_dropWhile]
    have hne : ∀ c ∈ t, decide (c ≠ ',') = true := by
      intro c hc
      rw [decide_eq_true_iff]
      rintro rfl
      exact h hc
    rw [List.takeWhile_eq_self_iff.2 hne, List.dropWhile_eq_nil_iff.2 hne]
  simp only [dotted, hall]

theorem reads_iff (h : ',' ∉ t) : readsDotted host t = readsAsNumber host t := by
  rw [readsDotted, dotted_of_not_mem h, readsAsNumber]

theorem not_comma_of_reads (h : readsAsNumber host t = true) : ',' ∉ t := by
  intro hc
  simp [readsAsNumber, host.toNumber_comma t hc, Query.Num.isFinite] at h

theorem eq_of_textSafe (h : TextSafe host op v t) (hc : compares op v = true) {x : Scalar}
    (hx : x ∈ scalars v) :
    eq host x (.scalar (.text t)) = scalarEquals host.toHost x (.scalar (.text t)) := by
  cases hread : readsAsNumber host t with
  | false => exact eq_of_compare (compareScalar_of_unread hread)
  | true =>
    obtain hno | ⟨-, hnumeral⟩ := h hread hc
    · refine eq_of_compare (compareScalar_of_not_num fun n hn => ?_)
      exact hno n (hn ▸ hx)
    · cases x with
      | num n => exact eq_numeral hread hnumeral
      | _ => exact eq_of_compare (compareScalar_of_not_num (by simp))

theorem matchPresent_text (h : TextSafe host op v t) :
    matchPresent host op v (.scalar (.text t)) = matchesPresent host.toHost op v (.scalar (.text t)) := by
  refine matchPresent_eq (fun hc x hx => eq_of_textSafe h hc hx) ?_ (fun _ => rfl) (fun _ _ _ => rfl)
  rintro o rfl x hx
  cases hread : readsAsNumber host t with
  | false => exact compareScalar_of_unread hread
  | true =>
    obtain hno | ⟨hne, -⟩ := h hread rfl
    · refine compareScalar_of_not_num fun n hn => ?_
      exact hno n (hn ▸ hx)
    · exact absurd rfl (hne o)

theorem matchPresent_number (h : NumberSafe host op v t) (hread : readsDotted host t = true) :
    matchPresent host op v (.scalar (.text t)) =
      matchesPresent host.toHost op v (.scalar (.num (host.toNumber (dotted t)))) := by
  obtain ⟨hcomma, hsafe⟩ := h hread
  have hread' : readsAsNumber host t = true := by rwa [← reads_iff hcomma]
  rw [dotted_of_not_mem hcomma]
  have hcmp : ∀ x ∈ scalars v, compareScalar host x (.scalar (.text t)) =
      Query.compareScalar host.toHost x (.scalar (.num (host.toNumber t))) := by
    intro x hx
    by_cases hnum : ∃ n, x = .num n
    · obtain ⟨n, rfl⟩ := hnum
      exact compareScalar_of_read hread'
    · have hne : ∀ n, x ≠ .num n := fun n hn => hnum ⟨n, hn⟩
      obtain hnumeral | ⟨-, hall⟩ := hsafe
      · rw [compareScalar_of_not_num hne, compareScalar_numeral hne hnumeral]
      · exact absurd (hall x hx) hnum
  refine matchPresent_eq (fun _ x hx => eq_of_compare (hcmp x hx)) (fun _ _ => hcmp) (fun hc => ?_)
    fun _ _ _ => rfl
  obtain hnumeral | ⟨hc', -⟩ := hsafe
  · exact hnumeral
  · rw [hc] at hc'
    cases hc'

theorem matchPresent_of_not_text (hw : ∀ t, w ≠ .scalar (.text t))
    (hlist : ∀ ws, w = .list ws → op = .inValues → ∀ t, .text t ∈ ws → TextSafe host op v t) :
    matchPresent host op v w = matchesPresent host.toHost op v w := by
  have hcmp : ∀ x ∈ scalars v, compareScalar host x w = Query.compareScalar host.toHost x w :=
    fun x _ => compareScalar_of_not_text hw
  refine matchPresent_eq (fun _ x hx => eq_of_compare (hcmp x hx)) (fun _ _ => hcmp) (fun _ => rfl) ?_
  rintro rfl x hx
  cases w with
  | scalar c => rfl
  | list ws =>
    have hc : compares .inValues v = true := by cases v <;> rfl
    have hany : ∀ c ∈ ws, eq host x (.scalar c) = scalarEquals host.toHost x (.scalar c) := by
      intro c hcw
      cases c with
      | text t => exact eq_of_textSafe (hlist ws rfl rfl t hcw) hc hx
      | _ => exact eq_of_compare (compareScalar_of_not_text (by simp))
    simp only [anyValue]
    rw [Bool.eq_iff_iff, List.any_eq_true, List.any_eq_true]
    exact exists_congr fun c => and_congr_right fun hcw => by rw [hany c hcw]

def engineOperand (host : ClientHost) (isFormula : Bool) (value : Option PropertyValue) : Option PropertyValue :=
  if isFormula then toEngineValue host value else value

variable {value : Option PropertyValue}

theorem operand_some (host : ClientHost) (isFormula : Bool) (h : operand value = some w) :
    value = some w ∧ ∃ w', engineOperand host isFormula value = some w' ∧ operand (some w') = some w' := by
  obtain ⟨rfl, hnull⟩ := Option.filter_eq_some_iff.1 h
  refine ⟨rfl, ?_⟩
  cases isFormula with
  | false => exact ⟨w, rfl, h⟩
  | true =>
    match w with
    | .list ws => exact ⟨_, rfl, rfl⟩
    | .scalar .null => simp at hnull
    | .scalar (.num n) => exact ⟨_, rfl, rfl⟩
    | .scalar (.bool b) => exact ⟨_, rfl, rfl⟩
    | .scalar (.text t) =>
      simp only [engineOperand, toEngineValue, if_true]
      split
      · exact ⟨_, rfl, rfl⟩
      · exact ⟨_, rfl, rfl⟩

variable {isFormula : Bool}

theorem operand_none (h : operand value = none) :
    operand (engineOperand host isFormula value) = none := by
  cases isFormula with
  | false => exact h
  | true =>
    match value with
    | none => rfl
    | some (.scalar .null) => rfl
    | some (.scalar (.text t)) => simp [operand] at h
    | some (.scalar (.num n)) => simp [operand] at h
    | some (.scalar (.bool b)) => simp [operand] at h
    | some (.list ws) => simp [operand] at h

theorem matchPresent_operand (h : OperandSafe host op isFormula v (some w))
    (hw' : engineOperand host isFormula (some w) = some w') :
    matchPresent host op v w = matchesPresent host.toHost op v w' := by
  have hplain : (∀ t, w ≠ .scalar (.text t)) → w' = w →
      matchPresent host op v w = matchesPresent host.toHost op v w' := by
    rintro hne rfl
    refine matchPresent_of_not_text hne ?_
    rintro ws rfl hop t ht
    exact h hop t ht
  have hsame : (∀ t, w ≠ .scalar (.text t)) → w' = w := by
    intro hne
    cases isFormula with
    | false => exact (Option.some.inj hw').symm
    | true =>
      cases w with
      | list ws => exact (Option.some.inj hw').symm
      | scalar c =>
        cases c with
        | text t => exact absurd rfl (hne t)
        | _ => exact (Option.some.inj hw').symm
  by_cases htext : ∃ t, w = .scalar (.text t)
  · obtain ⟨t, rfl⟩ := htext
    cases isFormula with
    | false =>
      obtain rfl : PropertyValue.scalar (.text t) = w' := Option.some.inj hw'
      exact matchPresent_text h
    | true =>
      simp only [engineOperand, toEngineValue, if_true] at hw'
      split at hw'
      next hread =>
        obtain rfl := Option.some.inj hw'
        exact matchPresent_number h hread
      next hread =>
        obtain rfl := Option.some.inj hw'
        refine matchPresent_text fun hnum => ?_
        rw [← reads_iff (not_comma_of_reads hnum)] at hnum
        exact absurd hnum hread
  · have hne : ∀ t, w ≠ .scalar (.text t) := fun t ht => htext ⟨t, ht⟩
    exact hplain hne (hsame hne)

theorem matchValue_of_ne (hne : op ≠ .empty) (hne' : op ≠ .notEmpty) (value u : Option PropertyValue) :
    matchValue host op value u = match u, operand value with
      | some v, some want => !isEmptyValue (some v) && matchPresent host op v want
      | _, _ => false := by
  cases op <;> first | rfl | exact absurd rfl hne | exact absurd rfl hne'

theorem matchesValue_of_ne (hne : op ≠ .empty) (hne' : op ≠ .notEmpty) (value u : Option PropertyValue) :
    matchesValue host.toHost op value u = match u, operand value with
      | some v, some want => !isEmptyValue (some v) && matchesPresent host.toHost op v want
      | _, _ => false := by
  cases op <;> first | rfl | exact absurd rfl hne | exact absurd rfl hne'

theorem matchValue_eq {u u' : Option PropertyValue} (hu : Alike u u')
    (h : op ≠ .empty → op ≠ .notEmpty → ∀ v, isEmptyValue (some v) = false → u' = some v →
      OperandSafe host op isFormula v value) :
    matchValue host op value u = matchesValue host.toHost op (engineOperand host isFormula value) u' := by
  have hempty : isEmptyValue u = isEmptyValue u' := by
    obtain rfl | ⟨hu, hu'⟩ := hu
    · rfl
    · rw [hu, hu']
  by_cases hop : op = .empty ∨ op = .notEmpty
  · obtain rfl | rfl := hop
    · exact hempty
    · exact congrArg not hempty
  · obtain ⟨hne, hne'⟩ := not_or.1 hop
    rw [matchValue_of_ne hne hne', matchesValue_of_ne hne hne']
    cases hw : operand value with
    | none =>
      rw [operand_none hw]
      cases u <;> cases u' <;> rfl
    | some w =>
      obtain ⟨rfl, w', hw', hkeep⟩ := operand_some host isFormula hw
      rw [hw', hkeep]
      obtain rfl | ⟨hu, hu'⟩ := hu
      · cases u with
        | none => rfl
        | some v =>
          dsimp only
          cases hv : isEmptyValue (some v) with
          | true => rfl
          | false => rw [matchPresent_operand (h hne hne' v hv rfl) hw']
      · cases u <;> cases u' <;> simp only [hu, hu', Bool.not_true, Bool.false_and]

end Conditions

section Fields
variable {formula : FormulaLookup host.toEngineHost} {d : EvalDoc} {row : QueryRow} {f : Field}

structure Shows (row : QueryRow) (d : EvalDoc) : Prop where
  id : row.id = d.id
  path : row.path = d.path
  title : row.title = d.title
  values : row.values = d.props.entries

theorem Shows.valuesOf (h : Shows row d) : valuesOf row = d.props := by
  have hentries : row.values.pwFilter (fun a b => a.1 ≠ b.1) = d.props.entries := by
    rw [h.values, List.pwFilter_eq_self]
    exact List.pairwise_map.1 d.props.nodup
  have hrecord : ∀ r r' : Record, r.entries = r'.entries → r = r' := by
    rintro ⟨entries, _⟩ ⟨entries', _⟩ rfl
    rfl
  exact hrecord _ _ hentries

theorem Shows.fieldOf (formula : FormulaLookup host.toEngineHost) (h : Shows row d) (hread : Readable host d f) :
    Alike (fieldOf host formula row f) (InMemory.fieldOf host.toEngineHost d (toEngineField host formula f)) := by
  match f with
  | .formula src => exact .inr ⟨rfl, hread⟩
  | .stored (.doc .created) => exact .inr ⟨rfl, hread⟩
  | .stored (.doc .modified) => exact .inr ⟨rfl, hread⟩
  | .stored (.doc .inherited) => exact .inl rfl
  | .stored (.doc .title) => exact .inl (by rw [Base.fieldOf, h.title]; rfl)
  | .stored (.doc .path) => exact .inl (by rw [Base.fieldOf, h.path]; rfl)
  | .stored (.doc .folder) => exact .inl (by rw [Base.fieldOf, h.path]; rfl)
  | .stored (.doc .ext) => exact .inl (by rw [Base.fieldOf, h.path]; rfl)
  | .stored (.prop key) =>
    cases hkey : isFormulaKey key with
    | false =>
      refine .inl ?_
      simp only [Base.fieldOf, toEngineField, hkey, Bool.not_false, if_true, Bool.false_eq_true, if_false, h.valuesOf]
      rfl
    | true =>
      cases hf : formula key with
      | none =>
        refine .inr ?_
        simp only [Base.fieldOf, toEngineField, hkey, hf, Bool.not_true, Bool.false_eq_true, if_false, if_true,
          Option.map_none, Option.getD_none, InMemory.fieldOf, host.compile_empty]
        exact ⟨rfl, rfl⟩
      | some c =>
        refine .inl ?_
        simp only [Base.fieldOf, toEngineField, hkey, hf, Bool.not_true, Bool.false_eq_true, if_false, if_true,
          Option.map_some, Option.getD_some, InMemory.fieldOf, c.compiled, h.valuesOf, h.title]

theorem toEngineField_of_not (h : isFormulaField f = false) : toEngineField host formula f = f := by
  match f with
  | .formula src => rfl
  | .stored (.doc name) => rfl
  | .stored (.prop key) =>
    have hkey : isFormulaKey key = false := h
    simp only [toEngineField, hkey, Bool.false_eq_true, if_false]

theorem matchRow_leaf {l : InMemory.FilterLeaf} (h : Shows row d) (hsafe : LeafSafe host formula d l) :
    matchValue host l.op l.value (fieldOf host formula row l.field) =
      matchesValue host.toHost (toEngineLeaf host formula l).op (toEngineLeaf host formula l).value
        (InMemory.fieldOf host.toEngineHost d (toEngineLeaf host formula l).field) := by
  have halike := h.fieldOf formula hsafe.1
  have hleaf : toEngineLeaf host formula l =
      ⟨toEngineField host formula l.field, l.op, engineOperand host (isFormulaField l.field) l.value⟩ := by
    cases hf : isFormulaField l.field with
    | true => rw [toEngineLeaf, if_pos hf, engineOperand, if_pos rfl]
    | false =>
      have hfield : toEngineField host formula l.field = l.field := toEngineField_of_not hf
      rw [toEngineLeaf, if_neg (by simp [hf]), engineOperand, if_neg (by simp), hfield]
  rw [hleaf]
  exact matchValue_eq halike hsafe.2

theorem matchRow_eq {w : InMemory.QueryFilter} (h : Shows row d) (hsafe : ∀ l ∈ w.leaves, LeafSafe host formula d l) :
    matchRow host formula row w = matchesFilter host.toEngineHost d (toEngineFilter host formula w) := by
  rw [matchRow, matchesFilter, toEngineFilter, Condition.holds_map]
  exact Condition.holds_congr w fun l hl => matchRow_leaf h (hsafe l hl)

end Fields

end Savoire.Base
