import Savoire.Query.Compiled

/-! The compiled filter and the reference evaluation select the same documents, except where one
of the conditions of the filter meets one of the known differences. -/
namespace Savoire.Query
variable {host : Host} {table : List PropRow} {n : Nat} {d : EvalDoc}

/-- Order comparisons and starts agree on a value; the other operators always do. -/
def PresentAgrees (host : Host) (op : FilterOp) (v want : PropertyValue) : Prop :=
  match op, v with
  | .order o, .scalar x => OrderAgrees host o x want
  | .startsWith, .scalar x => '\x00' ∈ foldText host (want.str host) →
      ¬ foldText host (want.str host) <+: foldText host (x.str host)
  | _, _ => True

def ValueAgrees (host : Host) (op : FilterOp) (value v : Option PropertyValue) : Prop :=
  ∀ u w, v = some u → operand value = some w → isEmptyValue v = false → PresentAgrees host op u w

/-- A member that every object inherits is read as a text in memory, and absent in SQL. -/
def InheritedAgrees (host : Host) (op : FilterOp) (value : Option PropertyValue) (t : Text) : Prop :=
  op ≠ .empty ∧ op ≠ .notEmpty ∧ ∀ w, operand value = some w → matchesScalar host op (.text t) w = false

/-- The condition compiles to `0`, without a column. -/
def CompilesToFalse (op : FilterOp) (value : Option PropertyValue) : Prop :=
  op ≠ .empty ∧ op ≠ .notEmpty ∧
    ∀ w, operand value = some w → op = .inValues ∧ ∀ y ys, w ≠ .list (y :: ys)

def LeafAgrees (host : Host) (d : EvalDoc) (l : FilterLeaf) : Prop :=
  match l.field with
  | .doc .inherited => CompilesToFalse l.op l.value
  | .doc name => ValueAgrees host l.op l.value (fieldValue host d (.doc name))
  | .prop key => match d.props.own key, host.inherited key with
    | none, some t => InheritedAgrees host l.op l.value t
    | v, _ => ValueAgrees host l.op l.value v

theorem sqlPresent_iff (op : FilterOp) (v : PropertyValue) {w : PropertyValue}
    (hw : acceptsValue w = true) :
    sqlPresent host op v w = matchesPresent host op v w ↔ PresentAgrees host op v w := by
  cases v with
  | list xs => cases op <;> simp [sqlPresent, PresentAgrees]
  | scalar x =>
    cases op with
    | order o =>
      rw [eq_comm]
      exact rowTest_order_iff o x hw
    | startsWith => exact sqlStarts_iff _ _
    | _ => simp [sqlPresent, PresentAgrees]

theorem sqlValue_iff {op : FilterOp} {value v : Option PropertyValue}
    (hacc : value.all acceptsValue = true) :
    sqlValue host op value v = matchesValue host op value v ↔ ValueAgrees host op value v := by
  by_cases he : op = .empty
  · subst he
    simp [sqlValue, matchesValue, ValueAgrees, PresentAgrees]
  by_cases hn : op = .notEmpty
  · subst hn
    simp [sqlValue, matchesValue, ValueAgrees, PresentAgrees]
  cases v with
  | none => cases op <;> first | contradiction | simp [sqlValue, matchesValue, ValueAgrees]
  | some u =>
    cases hop : operand value with
    | none => cases op <;> first | contradiction | simp [sqlValue, matchesValue, ValueAgrees, hop]
    | some w =>
      have hsql : sqlValue host op value (some u) =
          (!isEmptyValue (some u) && sqlPresent host op u w) := by
        cases op <;> first | contradiction | simp [sqlValue, hop]
      have hmem : matchesValue host op value (some u) =
          (!isEmptyValue (some u) && matchesPresent host op u w) := by
        cases op <;> first | contradiction | simp [matchesValue, hop]
      have hdef : ValueAgrees host op value (some u) ↔
          (isEmptyValue (some u) = false → PresentAgrees host op u w) := by
        simp [ValueAgrees, hop]
      rw [hsql, hmem, hdef, ← sqlPresent_iff op u (operand_accepted hacc hop)]
      cases isEmptyValue (some u) <;> simp

theorem inherited_iff {op : FilterOp} {value : Option PropertyValue} {t : Text} (ht : t ≠ []) :
    sqlValue host op value none = matchesValue host op value (some (.scalar (.text t))) ↔
      InheritedAgrees host op value t := by
  have hpresent : isEmptyValue (some (.scalar (.text t))) = false := by
    cases t with
    | nil => exact absurd rfl ht
    | cons c t => rfl
  by_cases he : op = .empty
  · subst he
    refine iff_of_false (fun h => ?_) fun h => h.1 rfl
    have hfalse : true = isEmptyValue (some (.scalar (.text t))) := h
    rw [hpresent] at hfalse
    cases hfalse
  by_cases hn : op = .notEmpty
  · subst hn
    refine iff_of_false (fun h => ?_) fun h => h.2.1 rfl
    have hfalse : false = !isEmptyValue (some (.scalar (.text t))) := h
    rw [hpresent] at hfalse
    cases hfalse
  have hsql : sqlValue host op value none = false := sqlValue_of_empty rfl he hn
  rw [hsql]
  cases hop : operand value with
  | none =>
    cases op <;> first | contradiction | simp [matchesValue, InheritedAgrees, hop]
  | some w =>
    have hmem : matchesValue host op value (some (.scalar (.text t))) = matchesScalar host op (.text t) w := by
      cases op <;> first | contradiction | simp [matchesValue, hop, hpresent, matchesPresent]
    have hdef : InheritedAgrees host op value t ↔ matchesScalar host op (.text t) w = false := by
      simp [InheritedAgrees, he, hn, hop]
    rw [hmem, hdef, eq_comm]

/-- The compiled condition is accepted, and true just when `b` is. -/
def Compiled (host : Host) (table : List PropRow) (row : DocRow) (p : Frag) (b : Bool) : Prop :=
  Gives row.column (PropQuery.run table row) p b ∧ DocColumn.undefined ∉ p.columns

theorem selects_of_compiled {row : DocRow} {p : Frag} {b : Bool}
    (h : Compiled host table row p b) : selects table row p = b := by
  have heval : p.eval table row = some b := h.1
  simp only [selects, List.contains_eq_mem, h.2, decide_false, Bool.not_false, Bool.true_and, heval]
  cases b <;> rfl

def sqlLeaf (host : Host) (d : EvalDoc) (l : FilterLeaf) : Bool :=
  match l.field with
  | .prop key => sqlValue host l.op l.value (d.props.own key)
  | .doc name => sqlValue host l.op l.value (fieldValue host d (.doc name))

variable {l : FilterLeaf}

theorem compiled_leaf (ht : Holds host table n d.props) (hacc : l.accepted = true)
    (hfield : l.field ≠ .doc .inherited ∨ CompilesToFalse l.op l.value) :
    Compiled host table (docRow host n d) (compileLeaf host l) (sqlLeaf host d l) := by
  have hval : l.value.all acceptsValue = true := by
    simp only [FilterLeaf.accepted, Bool.and_eq_true] at hacc
    exact hacc.2
  obtain ⟨field, op, value⟩ := l
  cases field with
  | prop key =>
    refine ⟨gives_compilePropLeaf ht key op hval, ?_⟩
    simp [compileLeaf, columns_compilePropLeaf]
  | doc name =>
    by_cases hname : name = .inherited
    · subst hname
      obtain ⟨he, hn, hconst⟩ := hfield.resolve_left (by simp)
      have hzero : compileDocLeaf host .inherited op value = .const false := by
        cases hop : operand value with
        | none => cases op <;> first | contradiction | simp [compileDocLeaf, hop]
        | some w =>
          obtain ⟨rfl, hw⟩ := hconst w hop
          cases w with
          | scalar y => simp [compileDocLeaf, hop]
          | list ws =>
            cases ws with
            | nil => simp [compileDocLeaf, hop]
            | cons y ys => exact absurd rfl (hw y ys)
      have hsql : sqlLeaf host d ⟨.doc .inherited, op, value⟩ = false :=
        @sqlValue_of_empty host value op none rfl he hn
      rw [hsql]
      simp only [compileLeaf, hzero]
      exact ⟨rfl, by simp [Sql.Cond.columns]⟩
    · refine ⟨gives_compileDocLeaf _ hname op hval, fun hmem => ?_⟩
      have hcol := columns_compileDocLeaf op value hmem
      cases name <;> first | contradiction | cases hcol

theorem compiled_columns {row : DocRow} {ps : List Frag} {bs : List Bool}
    (h : List.Forall₂ (Compiled host table row) ps bs) : ∀ p ∈ ps, DocColumn.undefined ∉ p.columns := by
  induction h with
  | nil => simp
  | cons h1 _ ih =>
    intro p hp
    obtain rfl | hp := List.mem_cons.1 hp
    · exact h1.2
    · exact ih p hp

theorem compiled_filter (ht : Holds host table n d.props) (f : QueryFilter)
    (hacc : ∀ l ∈ f.leaves, l.accepted = true)
    (hfield : ∀ l ∈ f.leaves, l.field ≠ .doc .inherited ∨ CompilesToFalse l.op l.value) :
    Compiled host table (docRow host n d) (compileFilter host f) (f.holds (sqlLeaf host d)) := by
  refine Condition.fold_rel (Compiled host table (docRow host n d)) ?_ ?_ ?_ f
    fun l hl => compiled_leaf ht (hacc l hl) (hfield l hl)
  · intro ps bs h
    refine ⟨gives_and (h.imp fun _ _ h => h.1), fun hmem => ?_⟩
    obtain ⟨p, hp, hc⟩ := mem_columns_and hmem
    exact compiled_columns h p hp hc
  · intro ps bs h
    refine ⟨gives_or (h.imp fun _ _ h => h.1), fun hmem => ?_⟩
    obtain ⟨p, hp, hc⟩ := mem_columns_or hmem
    exact compiled_columns h p hp hc
  · intro p b h
    exact ⟨gives_not h.1, h.2⟩

theorem leafAgrees_iff (hacc : l.accepted = true)
    (hfield : l.field ≠ .doc .inherited) :
    LeafAgrees host d l ↔ sqlLeaf host d l = matchesLeaf host d l := by
  have hval : l.value.all acceptsValue = true := by
    simp only [FilterLeaf.accepted, Bool.and_eq_true] at hacc
    exact hacc.2
  obtain ⟨field, op, value⟩ := l
  cases field with
  | doc name =>
    have hdef : LeafAgrees host d ⟨.doc name, op, value⟩ ↔
        ValueAgrees host op value (fieldValue host d (.doc name)) := by
      cases name <;> first | contradiction | rfl
    rw [hdef, ← sqlValue_iff hval]
    rfl
  | prop key =>
    simp only [LeafAgrees, sqlLeaf, matchesLeaf, fieldValue, Record.read]
    cases hown : d.props.own key with
    | some v => exact (sqlValue_iff hval).symm
    | none =>
      cases hin : host.inherited key with
      | none => exact (sqlValue_iff hval).symm
      | some t => exact (inherited_iff (host.inherited_ne_nil key t hin)).symm

theorem sqlLeaf_inherited (hfield : l.field = .doc .inherited) :
    sqlLeaf host d l = matchesLeaf host d l := by
  obtain ⟨field, op, value⟩ := l
  obtain rfl : field = .doc .inherited := hfield
  have hnone : fieldValue host d (.doc .inherited) = none := rfl
  cases op <;> rfl

theorem compileFilter_undefined (host : Host) (hfield : l.field = .doc .inherited)
    (hconst : ¬ CompilesToFalse l.op l.value) :
    DocColumn.undefined ∈ (compileFilter host (.leaf l)).columns := by
  obtain ⟨field, op, value⟩ := l
  obtain rfl : field = .doc .inherited := hfield
  change DocColumn.undefined ∈ (compileDocLeaf host .inherited op value).columns
  by_cases he : op = .empty
  · subst he
    exact List.mem_cons_self
  by_cases hn : op = .notEmpty
  · subst hn
    exact List.mem_cons_self
  have hw : ∃ w, operand value = some w ∧ (op = .inValues → ∃ y ys, w = .list (y :: ys)) := by
    by_contra hno
    push Not at hno
    refine hconst ⟨he, hn, fun w hop => ?_⟩
    obtain ⟨hin, hlist⟩ := hno w hop
    exact ⟨hin, hlist⟩
  obtain ⟨w, hop, hlist⟩ := hw
  cases op with
  | empty => contradiction
  | notEmpty => contradiction
  | inValues =>
    obtain ⟨y, ys, rfl⟩ := hlist rfl
    simp [compileDocLeaf, hop, Sql.Cond.columns, Sql.Scalar.columns, foldColumn]
  | _ => simp [compileDocLeaf, hop, Sql.Cond.columns, Sql.Scalar.columns, foldColumn]

/-- A filter, and every filter made of its conditions, selects the documents that it matches,
exactly when each of these conditions agrees on the document. -/
theorem filters_agree_iff (ht : Holds host table n d.props) (f : QueryFilter)
    (hacc : ∀ l ∈ f.leaves, l.accepted = true) :
    (∀ g : QueryFilter, g.leaves ⊆ f.leaves →
      selects table (docRow host n d) (compileFilter host g) = matchesDoc host d g) ↔
    ∀ l ∈ f.leaves, LeafAgrees host d l := by
  constructor
  · intro h l hl
    have hleaf := h (.leaf l) (by simpa using hl)
    have hnot := h (.not (.leaf l)) (by simpa using hl)
    by_cases hfield : l.field = .doc .inherited
    · by_cases hconst : CompilesToFalse l.op l.value
      · simpa [LeafAgrees, hfield] using hconst
      · have hundef := compileFilter_undefined host hfield hconst
        have hundef' : DocColumn.undefined ∈ (compileFilter host (.not (.leaf l))).columns := hundef
        simp only [selects, List.contains_eq_mem, hundef, hundef', decide_true, Bool.not_true,
          Bool.false_and] at hleaf hnot
        simp only [matchesDoc, Condition.holds_not, Condition.holds_leaf] at hleaf hnot
        rw [← hleaf] at hnot
        cases hnot
    · have hcomp := compiled_leaf ht (hacc l hl) (.inl hfield)
      rw [leafAgrees_iff (hacc l hl) hfield, ← selects_of_compiled hcomp]
      exact hleaf
  · intro h g hg
    have hfield : ∀ l ∈ g.leaves, l.field ≠ .doc .inherited ∨ CompilesToFalse l.op l.value := by
      intro l hl
      by_cases hf : l.field = .doc .inherited
      · have hl' := h l (hg hl)
        simp only [LeafAgrees, hf] at hl'
        exact .inr hl'
      · exact .inl hf
    rw [selects_of_compiled (compiled_filter ht g (fun l hl => hacc l (hg hl)) hfield), matchesDoc]
    refine Condition.holds_congr g fun l hl => ?_
    by_cases hf : l.field = .doc .inherited
    · exact sqlLeaf_inherited hf
    · exact (leafAgrees_iff (hacc l (hg hl)) hf).1 (h l (hg hl))

def rating : EvalDoc where
  id := ['d']
  path := "Notes/Film.md".toList
  title := "Film".toList
  props := ⟨[("Note".toList, .scalar (.num (.fin 7))), ("Tags".toList, .list [.text "Vu".toList]),
    ("Icône".toList, .scalar (.text "😀".toList))], by decide⟩
  created := none
  modified := none

def below5 : FilterLeaf := ⟨.prop "Note".toList, .order .lt, some (.scalar (.num (.fin 5)))⟩
def tagged : FilterLeaf := ⟨.prop "Tags".toList, .contains, some (.scalar (.text "vu".toList))⟩
def inFolder : FilterLeaf := ⟨.doc .folder, .startsWith, some (.scalar (.text "no".toList))⟩

/-- Not less than 5, and tagged `vu` or in a folder that starts with `no`. -/
def ratingFilter : QueryFilter :=
  .and [.not (.leaf below5), .or [.leaf tagged, .leaf inFolder]]

theorem ratingFilter_agrees :
    (∀ l ∈ ratingFilter.leaves, LeafAgrees plainHost rating l) ∧
    matchesDoc plainHost rating ratingFilter = true ∧
    selects (propRows plainHost 1 rating.props) (docRow plainHost 1 rating)
      (compileFilter plainHost ratingFilter) = matchesDoc plainHost rating ratingFilter := by
  have hleaves : ∀ l ∈ ratingFilter.leaves, LeafAgrees plainHost rating l := by
    intro l hl
    have hl' : l = below5 ∨ l = tagged ∨ l = inFolder := by simpa [ratingFilter] using hl
    obtain rfl | rfl | rfl := hl'
    · rintro u w hu hw -
      obtain rfl : .scalar (.num (.fin 7)) = u := Option.some.inj hu
      obtain rfl : .scalar (.num (.fin 5)) = w := Option.some.inj hw
      intro h
      cases h
    · rintro u w - - -
      cases u <;> trivial
    · rintro u w - hw -
      obtain rfl : .scalar (.text "no".toList) = w := Option.some.inj hw
      cases u with
      | list xs => trivial
      | scalar x =>
        intro hnul
        exact absurd hnul (by decide +kernel)
  refine ⟨hleaves, by decide +kernel, ?_⟩
  exact (filters_agree_iff (holds_propRows plainHost 1 rating.props) ratingFilter
    (by decide +kernel)).2 hleaves ratingFilter (List.Subset.refl _)

/-- SQL compares the bytes of the folded texts, and `<` their UTF-16 units. -/
theorem filters_disagree : ∃ (d : EvalDoc) (l : FilterLeaf), l.accepted = true ∧
    selects (propRows plainHost 1 d.props) (docRow plainHost 1 d) (compileFilter plainHost (.leaf l)) ≠
      matchesDoc plainHost d (.leaf l) :=
  ⟨rating, ⟨.prop "Icône".toList, .order .lt, some (.scalar (.text "ａ".toList))⟩,
    by decide +kernel, by decide +kernel⟩

end Savoire.Query
