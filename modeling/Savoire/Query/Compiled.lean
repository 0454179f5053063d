import Savoire.Query.Compare
import Savoire.Query.Filter

/-! What the compiled conditions give on the rows of a document: true or false, never NULL. -/
namespace Savoire.Query
open Sql (Rel Value)
variable {host : Host}

variable (o : Order)

theorem textSign_test_iff (a b : Text) :
    o.test (textSign a b) = o.rel.test (.text a) (.text b) ↔ ¬ Utf.Astray a b := by
  rw [← Utf.utf16_lt_iff_utf8_lt a b, Utf.utf8_lt_iff]
  by_cases hab : a = b
  · subst hab
    have h0 : textSign a a = .fin 0 := by simp [textSign, textLt_irrefl]
    rw [h0]
    cases o <;> simp [Order.test, Order.rel, Rel.test, Value.lt]
  · have hsql : ∀ x y : Text, Value.lt (.text x) (.text y) = decide (x < y) := by
      intro x y
      simp only [Value.lt, decide_eq_decide]
      exact Utf.utf8_lt_iff x y
    have hba : decide (b < a) = !decide (a < b) := by
      obtain h | h := lt_or_gt_of_ne hab
      · simp [h, lt_asymm h]
      · simp [h, lt_asymm h]
    have hjs : textSign a b = if textLt a b then .fin (-1) else .fin 1 := by
      cases hlt : textLt a b <;> simp [textSign, hlt, textLt_swap hab]
    have hlt : (a.flatMap Utf.utf16 < b.flatMap Utf.utf16 ↔ a < b) ↔ textLt a b = decide (a < b) := by
      simp [textLt, decide_eq_decide]
    rw [hlt, hjs]
    cases textLt a b <;> cases hd : decide (a < b) <;> cases o <;>
      simp [Order.test, Order.rel, Rel.test, hsql, hba, hd, hab]

/-- What a row that holds `x` gives when it is compared with `w`. -/
def rowTest (host : Host) (r : Rel) (x : Scalar) (w : PropertyValue) : Bool :=
  match x, w with
  | .num a, .scalar (.num b) =>
    if a = .nan then r.test (folded host (.scalar x)) (folded host w) else r.test a.bind b.bind
  | _, _ => r.test (folded host (.scalar x)) (folded host w)

variable {w : PropertyValue}

theorem rowRel_eval (r : Rel) (n : Nat) (key : Text) (list : Bool) (idx : Nat) (x : Scalar)
    (hw : acceptsValue w = true) (query : Empty → Bool) :
    (rowRel host r w).eval (propRow host n key list idx x).column query =
      some (rowTest host r x w) := by
  cases w with
  | list ws => cases x <;> rfl
  | scalar y =>
    cases y with
    | null => cases x <;> rfl
    | text s => cases x <;> rfl
    | bool b => cases x <;> rfl
    | num b =>
      cases b with
      | fin q =>
        cases x with
        | num a =>
          cases a <;> simp [rowRel, rowTest, Sql.Cond.eval, Sql.Scalar.eval, PropRow.column, propRow,
            Num.bind, Sql.compare, Value.isNull, folded, PropertyValue.str]
        | _ =>
          simp [rowRel, rowTest, Sql.Cond.eval, Sql.Scalar.eval, PropRow.column, propRow, Num.bind,
            Sql.compare, Value.isNull, folded, PropertyValue.str]
      | _ => simp [acceptsValue, acceptsScalar, Num.isFinite] at hw

variable {x : Scalar}

theorem rowTest_eq_text {r : Rel} (hnum : ∀ a b, ¬ (x = .num a ∧ w = .scalar (.num b))) :
    rowTest host r x w = r.test (folded host (.scalar x)) (folded host w) := by
  unfold rowTest
  split
  · rename_i a b
    exact absurd ⟨rfl, rfl⟩ (hnum a b)
  · rfl

theorem rowTest_eq (x : Scalar) (hw : acceptsValue w = true) :
    rowTest host .eq x w = scalarEquals host x w := by
  by_cases hnum : ∃ a b, x = .num a ∧ w = .scalar (.num b)
  · obtain ⟨a, b, rfl, rfl⟩ := hnum
    cases b with
    | fin q =>
      cases a with
      | nan =>
        obtain ⟨c, rest, hfold, hc⟩ := foldText_fin host q
        have hne : "nan".toList ≠ foldText host (host.numText (.fin q)) := by
          rw [hfold]
          intro h
          have hhead : 'n' = c := (List.cons.inj h).1
          subst hhead
          exact absurd hc (by decide)
        have hsql : rowTest host .eq (.num .nan) (.scalar (.num (.fin q))) =
            decide (Value.text "nan".toList = .text (foldText host (host.numText (.fin q)))) := by
          rw [← foldText_nan host]
          rfl
        rw [hsql]
        simpa [scalarEquals, compareScalar, Num.sub] using hne
      | fin p => simp [rowTest, Rel.test, Num.bind, scalarEquals, compareScalar, Num.sub, sub_eq_zero]
      | negInf => simp [rowTest, Rel.test, Num.bind, scalarEquals, compareScalar, Num.sub]
      | posInf => simp [rowTest, Rel.test, Num.bind, scalarEquals, compareScalar, Num.sub]
    | _ => simp [acceptsValue, acceptsScalar, Num.isFinite] at hw
  · have hnum' : ∀ a b, ¬ (x = .num a ∧ w = .scalar (.num b)) := fun a b h => hnum ⟨a, b, h⟩
    rw [rowTest_eq_text hnum']
    by_cases hbool : ∃ a b, x = .bool a ∧ w = .scalar (.bool b)
    · obtain ⟨a, b, rfl, rfl⟩ := hbool
      simp only [Rel.test, folded, PropertyValue.str, foldText_bool]
      cases a <;> cases b <;> simp [scalarEquals, compareScalar]
    · rw [scalarEquals, compareScalar_eq_textSign _ hnum' fun a b h => hbool ⟨a, b, h⟩,
        textSign_eq_zero]
      simp only [Rel.test, folded, Value.text.injEq]
      rfl

/-- Where an order comparison agrees: NaN is no number in SQL, and texts must not go astray. -/
def OrderAgrees (host : Host) (o : Order) (x : Scalar) (w : PropertyValue) : Prop :=
  match x, w with
  | .num n, .scalar (.num _) => n = .nan → o = .lt ∨ o = .lte
  | .bool _, .scalar (.bool _) => True
  | x, w => ¬ Utf.Astray (foldText host (x.str host)) (foldText host (w.str host))

theorem nan_order_iff (q : ℚ) :
    o.test (compareScalar host (.num .nan) (.scalar (.num (.fin q)))) =
      rowTest host o.rel (.num .nan) (.scalar (.num (.fin q))) ↔ o = .lt ∨ o = .lte := by
  obtain ⟨c, rest, hfold, hc⟩ := foldText_fin host q
  have hcn : c < 'n' := lt_trans hc (by decide)
  have hlt : (c :: rest) < "nan".toList := List.cons_lt_cons_iff.2 (.inl hcn)
  have hsql : rowTest host o.rel (.num .nan) (.scalar (.num (.fin q))) =
      o.rel.test (.text "nan".toList) (.text (c :: rest)) := by
    rw [← foldText_nan host, ← hfold]
    rfl
  have h1 : Value.lt (.text (c :: rest)) (.text "nan".toList) = true := by
    simpa only [Value.lt, decide_eq_true_eq, Utf.utf8_lt_iff] using hlt
  have h2 : Value.lt (.text "nan".toList) (.text (c :: rest)) = false := by
    simp only [Value.lt, decide_eq_false_iff_not, Utf.utf8_lt_iff]
    exact lt_asymm hlt
  have h3 : Value.text "nan".toList ≠ .text (c :: rest) := by
    intro h
    rw [Value.text.injEq] at h
    exact absurd (h ▸ hlt) (lt_irrefl _)
  have hjs : o.test (compareScalar host (.num .nan) (.scalar (.num (.fin q)))) = false := by
    cases o <;> rfl
  rw [hsql, hjs]
  cases o <;> simp only [Order.rel, Rel.test, h1, h2, h3, Ne.symm h3, decide_false, Bool.or_false] <;>
    simp

theorem number_order {a : Num} (ha : a ≠ .nan) (q : ℚ) :
    o.test (compareScalar host (.num a) (.scalar (.num (.fin q)))) =
      rowTest host o.rel (.num a) (.scalar (.num (.fin q))) := by
  have hsql : rowTest host o.rel (.num a) (.scalar (.num (.fin q))) =
      o.rel.test a.bind (.number (.fin q)) := by
    simp [rowTest, ha, Num.bind]
  rw [hsql]
  cases a with
  | nan => exact absurd rfl ha
  | fin p =>
    cases o with
    | lt => simp [compareScalar, Num.sub, Order.test, Order.rel, Rel.test, Num.bind, Value.lt]
    | gt => simp [compareScalar, Num.sub, Order.test, Order.rel, Rel.test, Num.bind, Value.lt]
    | lte =>
      have h : p - q ≤ 0 ↔ p < q ∨ p = q := by rw [sub_nonpos, le_iff_lt_or_eq]
      simp [compareScalar, Num.sub, Order.test, Order.rel, Rel.test, Num.bind, Value.lt, h,
        -tsub_le_iff_right, -sub_nonpos]
    | gte =>
      have h : 0 ≤ p - q ↔ q < p ∨ q = p := by rw [sub_nonneg, le_iff_lt_or_eq]
      simp [compareScalar, Num.sub, Order.test, Order.rel, Rel.test, Num.bind, Value.lt, h,
        -sub_nonneg, eq_comm]
  | negInf =>
    have h := lt_asymm (Sql.Number.negInf_lt_fin q)
    cases o <;> simp [compareScalar, Num.sub, Order.test, Order.rel, Rel.test, Num.bind, Value.lt, h]
  | posInf =>
    have h := lt_asymm (Sql.Number.fin_lt_posInf q)
    cases o <;> simp [compareScalar, Num.sub, Order.test, Order.rel, Rel.test, Num.bind, Value.lt, h]

theorem bool_order (a b : Bool) :
    o.test (compareScalar host (.bool a) (.scalar (.bool b))) =
      rowTest host o.rel (.bool a) (.scalar (.bool b)) := by
  have hsql : rowTest host o.rel (.bool a) (.scalar (.bool b)) =
      o.rel.test (.text (if a then "true".toList else "false".toList))
        (.text (if b then "true".toList else "false".toList)) := by
    rw [← foldText_bool host, ← foldText_bool host]
    rfl
  rw [hsql]
  simp only [compareScalar]
  cases o <;> cases a <;> cases b <;> decide +kernel

theorem rowTest_order_iff (x : Scalar) (hw : acceptsValue w = true) :
    o.test (compareScalar host x w) = rowTest host o.rel x w ↔ OrderAgrees host o x w := by
  by_cases hnum : ∃ a b, x = .num a ∧ w = .scalar (.num b)
  · obtain ⟨a, b, rfl, rfl⟩ := hnum
    cases b with
    | fin q =>
      by_cases ha : a = .nan
      · subst ha
        simpa [OrderAgrees] using nan_order_iff o q
      · simpa [OrderAgrees, ha] using number_order o ha q
    | _ => simp [acceptsValue, acceptsScalar, Num.isFinite] at hw
  · have hnum' : ∀ a b, ¬ (x = .num a ∧ w = .scalar (.num b)) := fun a b h => hnum ⟨a, b, h⟩
    by_cases hbool : ∃ a b, x = .bool a ∧ w = .scalar (.bool b)
    · obtain ⟨a, b, rfl, rfl⟩ := hbool
      simpa [OrderAgrees] using bool_order o a b
    · have hbool' : ∀ a b, ¬ (x = .bool a ∧ w = .scalar (.bool b)) := fun a b h => hbool ⟨a, b, h⟩
      have hdef : OrderAgrees host o x w ↔
          ¬ Utf.Astray (foldText host (x.str host)) (foldText host (w.str host)) := by
        unfold OrderAgrees
        split
        · rename_i a b
          exact absurd ⟨rfl, rfl⟩ (hnum' a _)
        · exact absurd ⟨rfl, rfl⟩ (hbool' _ _)
        · rfl
      rw [rowTest_eq_text hnum', compareScalar_eq_textSign _ hnum' hbool', hdef, ← textSign_test_iff o]
      rfl

variable {b : Bool}

section Junctions
variable {κ σ : Type} {env : κ → Value} {query : σ → Bool}

/-- The condition is true or false, never NULL. -/
def Gives (env : κ → Value) (query : σ → Bool) (p : Sql.Cond κ σ) (b : Bool) : Prop :=
  p.eval env query = some b

variable {ps : List (Sql.Cond κ σ)} {bs : List Bool} {p : Sql.Cond κ σ}

section
variable (h : List.Forall₂ (Gives env query) ps bs)
include h

theorem gives_foldl_and (hp : Gives env query p b) : Gives env query (ps.foldl .and p) (b && bs.all id) := by
  induction h generalizing p b with
  | nil => simpa using hp
  | cons h1 _ ih =>
    rename_i q c qs cs _
    have hpq : Gives env query (.and p q) (b && c) := by
      rw [Gives, Sql.Cond.eval, show p.eval env query = some b from hp,
        show q.eval env query = some c from h1, Sql.and3_some]
    simpa [Bool.and_assoc] using ih hpq

theorem gives_foldl_or (hp : Gives env query p b) : Gives env query (ps.foldl .or p) (b || bs.any id) := by
  induction h generalizing p b with
  | nil => simpa using hp
  | cons h1 _ ih =>
    rename_i q c qs cs _
    have hpq : Gives env query (.or p q) (b || c) := by
      rw [Gives, Sql.Cond.eval, show p.eval env query = some b from hp,
        show q.eval env query = some c from h1, Sql.or3_some]
    simpa [Bool.or_assoc] using ih hpq

theorem gives_kept : ∃ cs,
      List.Forall₂ (Gives env query) (ps.filter fun p => !isTrue p) cs ∧ cs.all id = bs.all id := by
  induction h with
  | nil => exact ⟨[], .nil, rfl⟩
  | cons h1 _ ih =>
    rename_i p b ps bs _
    obtain ⟨cs, hcs, hall⟩ := ih
    cases hp : isTrue p with
    | false => exact ⟨b :: cs, by simpa [hp] using ⟨h1, hcs⟩, by simp [hall]⟩
    | true =>
      have hb : b = true := by
        cases p with
        | const c =>
          have hc : c = true := hp
          subst hc
          exact (Option.some.inj h1).symm
        | _ => simp [isTrue] at hp
      exact ⟨cs, by simpa [hp] using hcs, by simp [hb, hall]⟩

theorem gives_and : Gives env query (and ps) (bs.all id) := by
  obtain ⟨cs, hcs, hall⟩ := gives_kept h
  rw [← hall, and]
  generalize ps.filter (fun p => !isTrue p) = kept at hcs ⊢
  cases hcs with
  | nil => rfl
  | cons h1 hrest => exact gives_foldl_and hrest h1

theorem gives_or : Gives env query (or ps) (bs.any id) := by
  cases h with
  | nil => rfl
  | cons h1 hrest => exact gives_foldl_or hrest h1

end

theorem gives_and₂ {q : Sql.Cond κ σ} {a : Bool} (hp : Gives env query p a)
    (hq : Gives env query q b) : Gives env query (and [p, q]) (a && b) := by
  simpa using gives_and (.cons hp (.cons hq .nil))

theorem gives_or₂ {q : Sql.Cond κ σ} {a : Bool} (hp : Gives env query p a)
    (hq : Gives env query q b) : Gives env query (or [p, q]) (a || b) := by
  simpa using gives_or (.cons hp (.cons hq .nil))

theorem gives_not (h : Gives env query p b) : Gives env query (.not p) (!b) := by
  rw [Gives, Sql.Cond.eval, show p.eval env query = some b from h]
  rfl

end Junctions

theorem Record.own_iff (r : Record) (key : Text) (v : PropertyValue) :
    r.own key = some v ↔ (key, v) ∈ r.entries := by
  obtain ⟨entries, hnodup⟩ := r
  unfold Record.own
  induction entries with
  | nil => simp
  | cons e rest ih =>
    obtain ⟨k, u⟩ := e
    simp only [List.map_cons, List.nodup_cons] at hnodup
    by_cases hk : key = k
    · subst hk
      have hout : (key, v) ∉ rest := fun hm => hnodup.1 (List.mem_map.2 ⟨_, hm, rfl⟩)
      simp [hout, eq_comm]
    · have hbeq : (key == k) = false := beq_eq_false_iff_ne.2 hk
      simpa [List.lookup_cons, hbeq, hk] using ih hnodup.2

theorem valueRows_doc_key {n : Nat} {key : Text} {v : PropertyValue} {r : PropRow}
    (h : r ∈ valueRows host n key v) : r.doc = n ∧ r.key = key := by
  unfold valueRows at h
  split at h
  · simp at h
  · split at h
    · obtain rfl : r = _ := by simpa using h
      exact ⟨rfl, rfl⟩
    · obtain ⟨i, hi, rfl⟩ := List.mem_mapIdx.1 h
      exact ⟨rfl, rfl⟩

theorem mem_propRows {n : Nat} {props : Record} {r : PropRow} :
    r ∈ propRows host n props ↔ ∃ v, props.own r.key = some v ∧ r ∈ valueRows host n r.key v := by
  simp only [propRows, List.mem_flatMap, Prod.exists]
  constructor
  · rintro ⟨key, v, he, hr⟩
    obtain ⟨-, rfl⟩ := valueRows_doc_key hr
    exact ⟨v, (props.own_iff _ v).2 he, hr⟩
  · rintro ⟨v, hv, hr⟩
    exact ⟨r.key, v, (props.own_iff _ v).1 hv, hr⟩

/-- `table` holds the rows that `propRows` writes for document `n`, and rows of other documents. -/
def Holds (host : Host) (table : List PropRow) (n : Nat) (props : Record) : Prop :=
  ∀ r : PropRow, (r ∈ table ∧ r.doc = n) ↔ r ∈ propRows host n props

theorem holds_propRows (host : Host) (n : Nat) (props : Record) :
    Holds host (propRows host n props) n props := by
  intro r
  refine and_iff_left_of_imp fun hr => ?_
  obtain ⟨v, -, hmem⟩ := mem_propRows.1 hr
  exact (valueRows_doc_key hmem).1

def rowColumn (host : Host) (list : Bool) (x : Scalar) : PropColumn → Value :=
  (propRow host 0 [] list 0 x).column

def rowHolds (host : Host) (cond : Option RowCond) (list : Bool) (x : Scalar) : Bool :=
  meets (rowColumn host list x) cond

def presentAny (v : PropertyValue) (p : Bool → Scalar → Bool) : Bool :=
  match v with
  | .scalar x => p false x
  | .list xs => xs.any (p true)

def valueAny (v : Option PropertyValue) (p : Bool → Scalar → Bool) : Bool :=
  match v with
  | none => false
  | some v => !isEmptyValue (some v) && presentAny v p

theorem any_valueRows (n : Nat) (key : Text) (v : PropertyValue) (c : PropRow → Bool)
    (p : Bool → Scalar → Bool) (hc : ∀ list idx x, c (propRow host n key list idx x) = p list x) :
    (valueRows host n key v).any c = valueAny (some v) p := by
  unfold valueRows
  simp only [valueAny]
  cases hv : isEmptyValue (some v) with
  | true => rfl
  | false =>
    cases v with
    | scalar x => simp [presentAny, hc]
    | list xs =>
      simp only [Bool.false_eq_true, if_false, Bool.not_false, Bool.true_and, presentAny]
      rw [Bool.eq_iff_iff, List.any_eq_true, List.any_eq_true]
      constructor
      · rintro ⟨r, hr, hcr⟩
        obtain ⟨i, hi, rfl⟩ := List.mem_mapIdx.1 hr
        exact ⟨xs[i], List.getElem_mem hi, by rwa [hc] at hcr⟩
      · rintro ⟨x, hx, hp⟩
        obtain ⟨i, hi, rfl⟩ := List.getElem_of_mem hx
        exact ⟨_, List.mem_mapIdx.2 ⟨i, hi, rfl⟩, by rwa [hc]⟩

theorem run_eq {table : List PropRow} {n : Nat} {d : EvalDoc} (ht : Holds host table n d.props)
    (q : PropQuery) : q.run table (docRow host n d) =
      (q.not ^^ valueAny (d.props.own q.key) (rowHolds host q.cond)) := by
  have hfound : (table.any fun r => r.doc == n && r.key == q.key && meets r.column q.cond) =
      valueAny (d.props.own q.key) (rowHolds host q.cond) := by
    have hcond : ∀ list idx x, meets (propRow host n q.key list idx x).column q.cond =
        rowHolds host q.cond list x := by
      intro list idx x
      rfl
    cases hv : d.props.own q.key with
    | none =>
      refine List.any_eq_false.2 fun r hr hrow => ?_
      simp only [Bool.and_eq_true, beq_iff_eq] at hrow
      obtain ⟨v, hown, -⟩ := mem_propRows.1 ((ht r).1 ⟨hr, hrow.1.1⟩)
      rw [hrow.1.2, hv] at hown
      cases hown
    | some v =>
      rw [← any_valueRows n q.key v (fun r => meets r.column q.cond) _ hcond, Bool.eq_iff_iff,
        List.any_eq_true, List.any_eq_true]
      constructor
      · rintro ⟨r, hr, hrow⟩
        simp only [Bool.and_eq_true, beq_iff_eq] at hrow
        obtain ⟨u, hown, hmem⟩ := mem_propRows.1 ((ht r).1 ⟨hr, hrow.1.1⟩)
        rw [hrow.1.2, hv] at hown
        cases hown
        rw [hrow.1.2] at hmem
        exact ⟨r, hmem, hrow.2⟩
      · rintro ⟨r, hr, hrow⟩
        obtain ⟨hdoc, hkey⟩ := valueRows_doc_key hr
        have hmem : r ∈ table ∧ r.doc = n :=
          (ht r).2 (mem_propRows.2 ⟨v, by rw [hkey, hv], by rw [hkey]; exact hr⟩)
        exact ⟨r, hmem.1, by simpa [hdoc, hkey] using hrow⟩
  rw [PropQuery.run, ← hfound]
  rfl

theorem gives_hasProp {table : List PropRow} {n : Nat} {d : EvalDoc}
    (ht : Holds host table n d.props) (key : Text) (cond : Option RowCond) (not lookup : Bool) :
    Gives (docRow host n d).column (PropQuery.run table (docRow host n d))
      (hasProp key cond not lookup) (not ^^ valueAny (d.props.own key) (rowHolds host cond)) :=
  congrArg some (run_eq ht ⟨not, lookup, key, cond⟩)

theorem rowHolds_of_gives {c : RowCond} {list : Bool}
    (h : Gives (rowColumn host list x) Empty.elim c b) : rowHolds host (some c) list x = b := by
  rw [rowHolds, meets, Option.all_some, show c.eval (rowColumn host list x) Empty.elim = some b from h]
  cases b <;> rfl

theorem gives_isList (list b : Bool) (x : Scalar) :
    Gives (rowColumn host list x) Empty.elim (isList b) (list == b) := by
  have heq : (Sql.ofNat list.toNat = Sql.ofNat b.toNat) ↔ list = b := by
    cases list <;> cases b <;> simp [Sql.ofNat]
  change some (decide (Sql.ofNat list.toNat = Sql.ofNat b.toNat)) = some (list == b)
  cases list <;> cases b <;> rfl

theorem gives_rowRel (r : Rel) (list : Bool) (x : Scalar) (hw : acceptsValue w = true) :
    Gives (rowColumn host list x) Empty.elim (rowRel host r w) (rowTest host r x w) :=
  rowRel_eval r 0 [] list 0 x hw _

variable (list : Bool)

theorem gives_rowEq (x : Scalar) (hw : acceptsValue w = true) :
    Gives (rowColumn host list x) Empty.elim (rowEq host w) (scalarEquals host x w) := by
  rw [← rowTest_eq x hw]
  exact gives_rowRel .eq list x hw

theorem instr_pos (s t : Text) : 0 < Sql.instr s t ↔ t <:+: s := by
  have hfind : (s.tails.findIdx? (t.isPrefixOf ·)).isSome = s.tails.any (t.isPrefixOf ·) := by
    rw [List.findIdx?_isSome]
  have hany : s.tails.any (t.isPrefixOf ·) = true ↔ t <:+: s := by
    rw [List.any_eq_true]
    simp only [List.mem_tails, List.isPrefixOf_iff_prefix]
    exact ⟨fun ⟨u, hu, ht⟩ => List.infix_iff_prefix_suffix.2 ⟨u, ht, hu⟩,
      fun h => (List.infix_iff_prefix_suffix.1 h).imp fun u hu => ⟨hu.2, hu.1⟩⟩
  rw [← hany, ← hfind, Sql.instr]
  cases s.tails.findIdx? (t.isPrefixOf ·) <;> simp

/-- `substr(s, 1, length(w)) = w`. -/
def sqlStarts (s w : Text) : Bool :=
  decide ((Sql.cString s).take (Sql.cString w).length = w)

theorem sqlStarts_iff (s w : Text) :
    sqlStarts s w = Text.startsWith s w ↔ ('\x00' ∈ w → ¬ w <+: s) := by
  rw [Bool.eq_iff_iff, Text.startsWith_iff, sqlStarts, decide_eq_true_iff]
  by_cases hnul : '\x00' ∈ w
  · have hlt : (Sql.cString w).length < w.length := by
      refine lt_of_le_of_ne (List.takeWhile_prefix _).length_le fun hlen => ?_
      have heq : Sql.cString w = w := (List.takeWhile_prefix _).eq_of_length hlen
      simpa using List.takeWhile_eq_self_iff.1 heq _ hnul
    have hne : (Sql.cString s).take (Sql.cString w).length ≠ w := by
      intro h
      have hlen := congrArg List.length h
      rw [List.length_take] at hlen
      omega
    simp [hne, hnul]
  · have hall : ∀ c ∈ w, decide (c ≠ '\x00') = true := by
      intro c hc
      simpa using fun h : c = '\x00' => hnul (h ▸ hc)
    have hw : Sql.cString w = w := List.takeWhile_eq_self_iff.2 hall
    have hpre : w <+: Sql.cString s ↔ w <+: s := by
      constructor
      · exact fun h => h.trans (List.takeWhile_prefix _)
      · rintro ⟨t, rfl⟩
        rw [Sql.cString, List.takeWhile_append_of_pos hall]
        exact List.prefix_append _ _
    rw [hw, eq_comm, ← List.prefix_iff_eq_take, hpre]
    simp [hnul]

def sqlPresent (host : Host) (op : FilterOp) (v want : PropertyValue) : Bool :=
  match op, v with
  | .order o, .scalar x => rowTest host o.rel x want
  | .startsWith, .scalar x => sqlStarts (foldText host (x.str host)) (foldText host (want.str host))
  | op, v => matchesPresent host op v want

/-- What SQL gives for a condition on a value: order comparisons and starts are its own. -/
def sqlValue (host : Host) (op : FilterOp) (value v : Option PropertyValue) : Bool :=
  match op with
  | .empty => isEmptyValue v
  | .notEmpty => !isEmptyValue v
  | op => match v, operand value with
    | some v, some want => !isEmptyValue (some v) && sqlPresent host op v want
    | _, _ => false

variable {value : Option PropertyValue}

theorem operand_accepted
    (hacc : value.all acceptsValue = true) (h : operand value = some w) : acceptsValue w = true := by
  obtain ⟨hv, -⟩ := Option.filter_eq_some_iff.1 h
  simpa [hv] using hacc

theorem presentAny_true {v : PropertyValue} (hv : isEmptyValue (some v) = false) :
    presentAny v (fun _ _ => true) = true := by
  cases v with
  | scalar x => rfl
  | list xs =>
    cases xs with
    | nil => simp [isEmptyValue] at hv
    | cons x xs => rfl

theorem valueAny_true (v : Option PropertyValue) :
    valueAny v (fun _ _ => true) = !isEmptyValue v := by
  cases v with
  | none => rfl
  | some v =>
    cases hv : isEmptyValue (some v) with
    | true => simp [valueAny, hv]
    | false => simp [valueAny, hv, presentAny_true hv]

variable {table : List PropRow} {n : Nat} {d : EvalDoc}

variable {cond : RowCond}

theorem gives_hasProp_of (ht : Holds host table n d.props) (key : Text)
    (not lookup : Bool) {p : Bool → Scalar → Bool}
    (hp : ∀ list x, Gives (rowColumn host list x) Empty.elim cond (p list x)) :
    Gives (docRow host n d).column (PropQuery.run table (docRow host n d))
      (hasProp key (some cond) not lookup) (not ^^ valueAny (d.props.own key) p) := by
  have h := gives_hasProp ht key (some cond) not lookup
  have heq : rowHolds host (some cond) = p := by
    funext list x
    exact rowHolds_of_gives (hp list x)
  rwa [heq] at h

theorem gives_present (ht : Holds host table n d.props) (key : Text) {op : FilterOp}
    (hop : operand value = some w) (he : op ≠ .empty) (hn : op ≠ .notEmpty) (lookup : Bool)
    {p : Bool → Scalar → Bool} (hp : ∀ list x, Gives (rowColumn host list x) Empty.elim cond (p list x))
    (hpresent : ∀ v, presentAny v p = sqlPresent host op v w) :
    Gives (docRow host n d).column (PropQuery.run table (docRow host n d))
      (hasProp key (some cond) false lookup) (sqlValue host op value (d.props.own key)) := by
  have heq : sqlValue host op value (d.props.own key) = (false ^^ valueAny (d.props.own key) p) := by
    cases d.props.own key with
    | none => cases op <;> first | contradiction | rfl
    | some v => cases op <;> first | contradiction | simp [sqlValue, hop, valueAny, hpresent]
  rw [heq]
  exact gives_hasProp_of ht key false lookup hp

theorem gives_rowEqs (x : Scalar) {ws : List Scalar}
    (hw : acceptsValue (.list ws) = true) :
    List.Forall₂ (Gives (rowColumn host list x) Empty.elim)
      (ws.map fun y => rowEq host (.scalar y)) (ws.map fun y => scalarEquals host x (.scalar y)) := by
  rw [List.forall₂_map_left_iff, List.forall₂_map_right_iff, List.forall₂_same]
  intro y hy
  have hall : ∀ y ∈ ws, acceptsScalar y = true := by
    simp only [acceptsValue, Bool.and_eq_true, List.all_eq_true] at hw
    exact hw.2
  exact gives_rowEq list x (hall y hy)

theorem gives_and_isList (b : Bool) {list : Bool} {c : Bool}
    (h : Gives (rowColumn host list x) Empty.elim cond c) :
    Gives (rowColumn host list x) Empty.elim (and [isList b, cond]) (list == b && c) :=
  gives_and₂ (gives_isList list b x) h

theorem gives_instr (x : Scalar) (w : PropertyValue) :
    Gives (rowColumn host list x) Empty.elim
      (.rel .gt (.instr (.col .txt) (.param (folded host w))) (.param (Sql.ofNat 0)))
      (includes (foldText host (x.str host)) (foldText host (w.str host))) := by
  have hpos := instr_pos (foldText host (x.str host)) (foldText host (w.str host))
  change some (Value.lt (Sql.ofNat 0) (Sql.ofNat (Sql.instr (foldText host (x.str host))
    (foldText host (w.str host))))) = some (includes _ _)
  simp [Sql.ofNat, Value.lt, includes, ← hpos]

theorem gives_starts (x : Scalar) (w : PropertyValue) :
    Gives (rowColumn host list x) Empty.elim
      (.and (.rel .ge (.col .txt) (.param (folded host w)))
        (.rel .eq (.substr (.col .txt) (.length (.param (folded host w)))) (.param (folded host w))))
      (sqlStarts (foldText host (x.str host)) (foldText host (w.str host))) := by
  set s := foldText host (x.str host) with hs
  set t := foldText host (w.str host) with ht
  have hge : sqlStarts s t = true → Rel.test .ge (.text s) (.text t) = true := by
    intro h
    have hpre : t <+: s := by
      rw [← of_decide_eq_true h]
      exact (List.take_prefix _ _).trans (List.takeWhile_prefix _)
    obtain hlt | heq := lt_or_eq_of_le (not_lt.1 (List.not_lt.2 hpre.le))
    · simp [Rel.test, Value.lt, Utf.utf8_lt_iff, hlt]
    · simp [Rel.test, heq]
  have heq : Rel.test .eq (.text ((Sql.cString s).take (Sql.cString t).length)) (.text t) =
      sqlStarts s t := by simp [Rel.test, sqlStarts]
  change Sql.and3 (some (Rel.test .ge (.text s) (.text t)))
    (some (Rel.test .eq (.text ((Sql.cString s).take ((Sql.cString t).length : ℚ).num.toNat)) (.text t))) =
      some (sqlStarts s t)
  rw [Rat.num_natCast, Int.toNat_natCast, heq, Sql.and3_some]
  cases hst : sqlStarts s t with
  | false => simp
  | true => simp [hge hst]

theorem gives_compilePropLeaf (ht : Holds host table n d.props) (key : Text) (op : FilterOp)
    (hacc : value.all acceptsValue = true) :
    Gives (docRow host n d).column (PropQuery.run table (docRow host n d))
      (compilePropLeaf host key op value) (sqlValue host op value (d.props.own key)) := by
  have hempty : rowHolds host none = fun _ _ => true := rfl
  have hexists := gives_hasProp ht key none
  rw [hempty, valueAny_true] at hexists
  have hnone : operand value = none → op ≠ .empty → op ≠ .notEmpty →
      sqlValue host op value (d.props.own key) = false := by
    intro hop he hn
    cases op <;> first | contradiction | (cases d.props.own key <;> simp [sqlValue, hop])
  cases hop : operand value with
  | none =>
    cases op with
    | empty => simpa [sqlValue, compilePropLeaf] using hexists true false
    | notEmpty => simpa [sqlValue, compilePropLeaf] using hexists false false
    | _ =>
      rw [hnone hop (by simp) (by simp)]
      simp only [compilePropLeaf, hop]
      rfl
  | some w =>
    have hw := operand_accepted hacc hop
    cases op with
    | empty => simpa [sqlValue, compilePropLeaf] using hexists true false
    | notEmpty => simpa [sqlValue, compilePropLeaf] using hexists false false
    | eq =>
      simp only [compilePropLeaf, hop]
      refine gives_present ht key hop (by simp) (by simp) true (fun list x => gives_rowEq list x hw) ?_
      intro v
      cases v <;> rfl
    | neq =>
      simp only [compilePropLeaf, hop]
      have hscalar := gives_hasProp_of ht key false false
        (fun list x => gives_and_isList false (gives_not (gives_rowEq list x hw)))
      have hlist := gives_hasProp_of ht key false false (fun list x => gives_isList list true x)
      have hin := gives_hasProp_of ht key true false
        (fun list x => gives_and_isList true (gives_rowEq list x hw))
      have h := gives_or₂ hscalar (gives_and₂ hlist hin)
      have heq : sqlValue host .neq value (d.props.own key) =
          ((false ^^ valueAny (d.props.own key) fun list x => list == false && !scalarEquals host x w) ||
            ((false ^^ valueAny (d.props.own key) fun list _ => list == true) &&
              (true ^^ valueAny (d.props.own key) fun list x => list == true && scalarEquals host x w))) := by
        cases hv : d.props.own key with
        | none => simp [sqlValue, valueAny]
        | some v =>
          cases hempty : isEmptyValue (some v) with
          | true => simp [sqlValue, hop, valueAny, hempty]
          | false =>
            cases v with
            | scalar x =>
              simp [sqlValue, hop, valueAny, hempty, presentAny, sqlPresent, matchesPresent, matchesScalar]
            | list xs =>
              have hne := presentAny_true hempty
              simp only [presentAny] at hne
              simp [sqlValue, hop, valueAny, hempty, presentAny, sqlPresent, matchesPresent, matchesList,
                hne]
      rw [heq]
      exact h
    | order o =>
      simp only [compilePropLeaf, hop]
      refine gives_present ht key hop (by simp) (by simp) false
        (fun list x => gives_and_isList false (gives_rowRel o.rel list x hw)) ?_
      intro v
      cases v with
      | scalar x => simp [presentAny, sqlPresent]
      | list xs => simp [presentAny, sqlPresent, matchesPresent, matchesList]
    | contains =>
      simp only [compilePropLeaf, hop]
      refine gives_present ht key hop (by simp) (by simp) false (fun list x =>
        gives_or₂ (gives_and_isList false (gives_instr list x w))
          (gives_and_isList true (gives_rowEq list x hw))) ?_
      intro v
      cases v with
      | scalar x => simp [presentAny, sqlPresent, matchesPresent, matchesScalar]
      | list xs => simp [presentAny, sqlPresent, matchesPresent, matchesList]
    | startsWith =>
      simp only [compilePropLeaf, hop]
      refine gives_present ht key hop (by simp) (by simp) true
        (fun list x => gives_and_isList false (gives_starts list x w)) ?_
      intro v
      cases v with
      | scalar x => simp [presentAny, sqlPresent]
      | list xs => simp [presentAny, sqlPresent, matchesPresent, matchesList]
    | inValues =>
      simp only [compilePropLeaf, hop]
      have hconst : (∀ v, sqlPresent host .inValues v w = false) →
          sqlValue host .inValues value (d.props.own key) = false := by
        intro h
        cases d.props.own key <;> simp [sqlValue, hop, h]
      cases w with
      | scalar y =>
        have hfalse : ∀ v, sqlPresent host .inValues v (.scalar y) = false := by
          intro v
          cases v <;> simp [sqlPresent, matchesPresent, matchesList, matchesScalar, anyValue]
        rw [hconst hfalse]
        rfl
      | list ws =>
        cases ws with
        | nil =>
          have hfalse : ∀ v, sqlPresent host .inValues v (.list []) = false := by
            intro v
            cases v <;> simp [sqlPresent, matchesPresent, matchesList, matchesScalar, anyValue]
          rw [hconst hfalse]
          rfl
        | cons y ys =>
          refine gives_present ht key hop (by simp) (by simp) true
            (fun list x => gives_or (gives_rowEqs list x hw)) ?_
          intro v
          cases v with
          | scalar x =>
            simp [presentAny, sqlPresent, matchesPresent, matchesScalar, anyValue, Function.comp_def]
          | list xs =>
            simp [presentAny, sqlPresent, matchesPresent, matchesList, anyValue, Function.comp_def]

variable {name : DocField}

theorem column_foldColumn (host : Host) (h : name ≠ .inherited) :
    (docRow host n d).column (foldColumn name) = foldOrNull host (d.docField host name) := by
  cases name <;> first | contradiction | rfl

theorem rowTest_text (r : Rel) (s : Text) (w : PropertyValue) :
    rowTest host r (.text s) w = r.test (.text (foldText host s)) (folded host w) :=
  rowTest_eq_text (by simp)

theorem inList_eval (s : Text) (ws : List Scalar) :
    (ws.map fun w => folded host (.scalar w)).foldr
      (fun v rest => Sql.or3 (Sql.compare .eq (.text s) v) rest) (some false) =
      some (ws.any fun w => Rel.test .eq (.text s) (folded host (.scalar w))) := by
  induction ws with
  | nil => rfl
  | cons w ws ih =>
    rw [List.map_cons, List.foldr_cons, ih, List.any_cons]
    exact Sql.or3_some _ _

theorem sqlValue_of_empty {op : FilterOp} {v : Option PropertyValue}
    (hv : isEmptyValue v = true) (he : op ≠ .empty) (hn : op ≠ .notEmpty) :
    sqlValue host op value v = false := by
  cases v with
  | none => cases op <;> first | contradiction | rfl
  | some v =>
    cases op <;> first | contradiction | (cases hop : operand value <;> simp [sqlValue, hop, hv])

variable (query : PropQuery → Bool)

theorem gives_docLeaf_null (op : FilterOp)
    {v : Option PropertyValue} (hcol : (docRow host n d).column (foldColumn name) = .null)
    (hv : isEmptyValue v = true) :
    Gives (docRow host n d).column query (compileDocLeaf host name op value) (sqlValue host op value v) := by
  cases op with
  | empty => simp [Gives, compileDocLeaf, Sql.Cond.eval, Sql.Scalar.eval, hcol, Value.isNull, sqlValue, hv]
  | notEmpty =>
    simp [Gives, compileDocLeaf, Sql.Cond.eval, Sql.Scalar.eval, hcol, Value.isNull, sqlValue, hv]
  | inValues =>
    rw [sqlValue_of_empty hv (by simp) (by simp)]
    simp only [compileDocLeaf]
    cases operand value with
    | none => rfl
    | some w =>
      cases w with
      | scalar y => rfl
      | list ws =>
        cases ws with
        | nil => rfl
        | cons y ys =>
          have hnull : ∀ us : List Value, us.foldr
              (fun u rest => Sql.or3 (Sql.compare .eq .null u) rest) (some false) ≠ some true := by
            intro us
            induction us with
            | nil => simp
            | cons u us ih =>
              rw [List.foldr_cons]
              generalize us.foldr _ _ = rest at ih
              cases rest with
              | none => simp [Sql.compare, Sql.or3]
              | some b => cases b <;> simp_all [Sql.compare, Sql.or3]
          simp only [Gives, Sql.Cond.eval, Sql.Scalar.eval, hcol]
          have h := hnull ((y :: ys).map fun w => folded host (.scalar w))
          generalize List.foldr _ _ _ = rest at h
          cases rest with
          | none => rfl
          | some b => cases b <;> simp_all
  | _ =>
    rw [sqlValue_of_empty hv (by simp) (by simp)]
    simp only [compileDocLeaf]
    cases operand value with
    | none => rfl
    | some w => simp [Gives, Sql.Cond.eval, Sql.Scalar.eval, hcol, Sql.compare]

/-- A field with a text, which is compared folded. -/
theorem gives_docLeaf_text (op : FilterOp)
    (hacc : value.all acceptsValue = true) {s : Text}
    (hcol : (docRow host n d).column (foldColumn name) = .text (foldText host s)) (hs : s ≠ []) :
    Gives (docRow host n d).column query (compileDocLeaf host name op value)
      (sqlValue host op value (some (.scalar (.text s)))) := by
  have hv : isEmptyValue (some (.scalar (.text s))) = false := by
    cases s with
    | nil => exact absurd rfl hs
    | cons c s => rfl
  have hcmp : ∀ r w, Sql.compare r (.text (foldText host s)) (folded host w) =
      some (rowTest host r (.text s) w) := by
    intro r w
    rfl
  have hsql : ∀ op w, operand value = some w → op ≠ .empty → op ≠ .notEmpty →
      sqlValue host op value (some (.scalar (.text s))) = sqlPresent host op (.scalar (.text s)) w := by
    intro op w hop he hn
    cases op <;> first | contradiction | simp [sqlValue, hop, hv]
  cases hop : operand value with
  | none =>
    cases op <;>
      simp [Gives, compileDocLeaf, Sql.Cond.eval, Sql.Scalar.eval, hcol, Value.isNull, sqlValue, hv, hop]
  | some w =>
    have hw := operand_accepted hacc hop
    have heval : ∀ r, Gives (docRow host n d).column query
        (.orFalse (.rel r (.col (foldColumn name)) (.param (folded host w)))) (rowTest host r (.text s) w) := by
      intro r
      simp only [Gives, Sql.Cond.eval, Sql.Scalar.eval, hcol, hcmp, Option.getD_some]
    cases op with
    | empty => simp [Gives, compileDocLeaf, Sql.Cond.eval, Sql.Scalar.eval, hcol, Value.isNull, sqlValue, hv]
    | notEmpty =>
      simp [Gives, compileDocLeaf, Sql.Cond.eval, Sql.Scalar.eval, hcol, Value.isNull, sqlValue, hv]
    | eq =>
      rw [hsql _ w hop (by simp) (by simp)]
      simp only [compileDocLeaf, hop]
      have h := heval .eq
      rwa [rowTest_eq _ hw] at h
    | neq =>
      rw [hsql _ w hop (by simp) (by simp)]
      simp only [compileDocLeaf, hop]
      have h := heval .ne
      have hne : rowTest host .ne (.text s) w = !rowTest host .eq (.text s) w := by
        rw [rowTest_text, rowTest_text]
        simp [Rel.test]
      rwa [hne, rowTest_eq _ hw] at h
    | order o =>
      rw [hsql _ w hop (by simp) (by simp)]
      simp only [compileDocLeaf, hop]
      exact heval o.rel
    | contains =>
      rw [hsql _ w hop (by simp) (by simp)]
      simp only [compileDocLeaf, hop]
      have hpos := instr_pos (foldText host s) (foldText host (w.str host))
      simp [Gives, Sql.Cond.eval, Sql.Scalar.eval, hcol, folded, Sql.compare, Sql.ofNat, Rel.test,
        Value.lt, sqlPresent, matchesPresent, matchesScalar, includes, Scalar.str, ← hpos]
    | startsWith =>
      rw [hsql _ w hop (by simp) (by simp)]
      simp only [compileDocLeaf, hop]
      have hnum : ((Sql.cString (foldText host (w.str host))).length : ℚ).num.toNat =
          (Sql.cString (foldText host (w.str host))).length := by
        rw [Rat.num_natCast, Int.toNat_natCast]
      simp only [Gives, Sql.Cond.eval, Sql.Scalar.eval, hcol, folded, Sql.ofNat, hnum, Sql.compare,
        Option.getD_some, Rel.test, Value.text.injEq]
      rfl
    | inValues =>
      rw [hsql _ w hop (by simp) (by simp)]
      simp only [compileDocLeaf, hop]
      cases w with
      | scalar y => rfl
      | list ws =>
        cases ws with
        | nil => rfl
        | cons y ys =>
          have hall : ∀ y' ∈ y :: ys, rowTest host .eq (.text s) (.scalar y') =
              scalarEquals host (.text s) (.scalar y') := by
            intro y' hy'
            simp only [acceptsValue, Bool.and_eq_true, List.all_eq_true] at hw
            exact rowTest_eq (.text s) (w := .scalar y') (hw.2 y' hy')
          have hany : ((y :: ys).any fun w => Rel.test .eq (.text (foldText host s)) (folded host (.scalar w))) =
              (y :: ys).any fun w => scalarEquals host (.text s) (.scalar w) := by
            rw [Bool.eq_iff_iff, List.any_eq_true, List.any_eq_true]
            exact exists_congr fun y' => and_congr_right fun hy' => by rw [← rowTest_text, hall y' hy']
          simp only [Gives, Sql.Cond.eval, Sql.Scalar.eval, hcol]
          rw [inList_eval, hany]
          rfl

theorem gives_compileDocLeaf (hname : name ≠ .inherited)
    (op : FilterOp) (hacc : value.all acceptsValue = true) :
    Gives (docRow host n d).column query (compileDocLeaf host name op value)
      (sqlValue host op value (fieldValue host d (.doc name))) := by
  have hcol := column_foldColumn host (n := n) (d := d) hname
  rw [fieldValue]
  generalize d.docField host name = field at hcol
  cases field with
  | none => exact gives_docLeaf_null query op hcol rfl
  | some s =>
    cases s with
    | nil => exact gives_docLeaf_null query op hcol rfl
    | cons c s => exact gives_docLeaf_text query op hacc hcol (by simp)

theorem mem_columns_foldl {κ σ : Type} {c : κ} {join : Sql.Cond κ σ → Sql.Cond κ σ → Sql.Cond κ σ}
    (hjoin : ∀ p q, (join p q).columns = p.columns ++ q.columns) (ps : List (Sql.Cond κ σ))
    (q : Sql.Cond κ σ) (h : c ∈ (ps.foldl join q).columns) : ∃ p ∈ q :: ps, c ∈ p.columns := by
  induction ps generalizing q with
  | nil => exact ⟨q, List.mem_cons_self, h⟩
  | cons r ps ih =>
    obtain ⟨p, hp, hc⟩ := ih (join q r) h
    obtain rfl | hp := List.mem_cons.1 hp
    · rw [hjoin] at hc
      obtain hc | hc := List.mem_append.1 hc
      · exact ⟨q, List.mem_cons_self, hc⟩
      · exact ⟨r, by simp, hc⟩
    · exact ⟨p, by simp [hp], hc⟩

theorem mem_columns_and {κ σ : Type} {c : κ} {ps : List (Sql.Cond κ σ)}
    (h : c ∈ (and ps).columns) : ∃ p ∈ ps, c ∈ p.columns := by
  unfold and at h
  split at h
  · simp [Sql.Cond.columns] at h
  · rename_i q qs hkept
    obtain ⟨p, hp, hc⟩ := mem_columns_foldl (fun _ _ => rfl) qs q h
    rw [← hkept] at hp
    exact ⟨p, (List.mem_filter.1 hp).1, hc⟩

theorem mem_columns_or {κ σ : Type} {c : κ} {ps : List (Sql.Cond κ σ)}
    (h : c ∈ (or ps).columns) : ∃ p ∈ ps, c ∈ p.columns := by
  cases ps with
  | nil => simp [or, Sql.Cond.columns] at h
  | cons q qs => exact mem_columns_foldl (fun _ _ => rfl) qs q h

theorem columns_compilePropLeaf (key : Text) (op : FilterOp) (value : Option PropertyValue) :
    (compilePropLeaf host key op value).columns = [] := by
  cases op <;> simp only [compilePropLeaf]
  all_goals first
    | rfl
    | (cases operand value with
       | none => rfl
       | some w => first | rfl | (cases w with
         | scalar y => rfl
         | list ws => cases ws <;> rfl))

theorem columns_compileDocLeaf (op : FilterOp) (value : Option PropertyValue)
    {c : DocColumn} (h : c ∈ (compileDocLeaf host name op value).columns) : c = foldColumn name := by
  cases op <;> simp only [compileDocLeaf] at h
  all_goals first
    | simpa [Sql.Cond.columns, Sql.Scalar.columns] using h
    | (cases hop : operand value with
       | none => simp [hop, Sql.Cond.columns] at h
       | some w => first
         | simpa [hop, Sql.Cond.columns, Sql.Scalar.columns] using h
         | (cases w with
            | scalar y => simp [hop, Sql.Cond.columns] at h
            | list ws =>
              cases ws with
              | nil => simp [hop, Sql.Cond.columns] at h
              | cons y ys => simpa [hop, Sql.Cond.columns, Sql.Scalar.columns] using h))

end Savoire.Query
