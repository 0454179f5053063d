import Savoire.Library.Keyset
import Savoire.Query.Compiled
import Savoire.Query.Cursor

/-! The order of the rows of a query, and the condition for the rows after the last one delivered. -/
namespace Savoire.Query
open Sql (Value OrderTerm before)

structure QuerySort where
  field : QueryField
  desc : Bool

/-- The columns `s0`, `s1`, ... and `id` of the rows to sort. -/
inductive SortCol
  | s (i : Nat)
  | id
  deriving DecidableEq

def Last.column (x : Last) : SortCol → Value
  | .s i => x.k.getD i .null
  | .id => .text x.id

abbrev SortCond := Sql.Cond SortCol Empty

/-- `(s<i> IS NULL), s<i> [DESC], ..., id`, from `s<i>` on. -/
def orderFrom : Nat → List QuerySort → List (OrderTerm SortCol)
  | _, [] => [.col .id false]
  | i, s :: sorts => .isNull (.s i) :: .col (.s i) s.desc :: orderFrom (i + 1) sorts

/-- The conditions of `afterLast` from `s<i>` on, when `eqs` say that the first keys are the same. -/
def orsFrom (last : Last) : Nat → List SortCond → List QuerySort → List SortCond
  | _, eqs, [] => [and (eqs ++ [.rel .gt (.col .id) (.param (.text last.id))])]
  | i, eqs, s :: sorts =>
    let col : Sql.Scalar SortCol := .col (.s i)
    match last.k.getD i .null with
    | .null => orsFrom last (i + 1) (eqs ++ [.isNull col]) sorts
    | v =>
      let present := eqs ++ [.notNull col]
      and (eqs ++ [.isNull col]) :: and (present ++ [.rel (if s.desc then .lt else .gt) col (.param v)]) ::
        orsFrom last (i + 1) (present ++ [.rel .eq col (.param v)]) sorts

def afterLast (sorts : List QuerySort) (last : Last) : SortCond := or (orsFrom last 0 [] sorts)

section Conjunction
variable {κ σ : Type} {env : κ → Value} {query : σ → Bool}

def all3 (bs : List (Option Bool)) : Option Bool := bs.foldl Sql.and3 (some true)

theorem and3_true (b : Option Bool) : Sql.and3 (some true) b = b := by
  cases b with
  | none => rfl
  | some b => cases b <;> rfl

theorem and3_true_right (b : Option Bool) : Sql.and3 b (some true) = b := by
  cases b with
  | none => rfl
  | some b => cases b <;> rfl

theorem foldl_and3_false (bs : List (Option Bool)) : bs.foldl Sql.and3 (some false) = some false := by
  induction bs with
  | nil => rfl
  | cons b bs ih => exact ih

theorem all3_append {xs ys : List (Option Bool)} {a b : Bool} (hx : all3 xs = some a)
    (hy : a = true → all3 ys = some b) : all3 (xs ++ ys) = some (a && b) := by
  rw [all3] at hx
  rw [all3, List.foldl_append, hx]
  cases a with
  | false => exact foldl_and3_false ys
  | true => exact hy rfl

theorem eval_foldl_and (p : Sql.Cond κ σ) (ps : List (Sql.Cond κ σ)) :
    (ps.foldl .and p).eval env query =
      (ps.map (·.eval env query)).foldl Sql.and3 (p.eval env query) := by
  induction ps generalizing p with
  | nil => rfl
  | cons q ps ih => exact ih (.and p q)

theorem foldl_and3_filter (ps : List (Sql.Cond κ σ)) (b : Option Bool) :
    ((ps.filter fun p => !isTrue p).map (·.eval env query)).foldl Sql.and3 b =
      (ps.map (·.eval env query)).foldl Sql.and3 b := by
  induction ps generalizing b with
  | nil => rfl
  | cons p ps ih =>
    cases hp : isTrue p with
    | false => simpa [hp] using ih _
    | true =>
      have heval : p.eval env query = some true := by
        cases p with
        | const c =>
          have hc : c = true := hp
          rw [hc]
          rfl
        | _ => simp [isTrue] at hp
      simpa [hp, heval, and3_true_right] using ih b

theorem eval_and (ps : List (Sql.Cond κ σ)) :
    (and ps).eval env query = all3 (ps.map (·.eval env query)) := by
  rw [all3, ← foldl_and3_filter, and]
  cases ps.filter fun p => !isTrue p with
  | nil => rfl
  | cons p ps => rw [eval_foldl_and, List.map_cons, List.foldl_cons, and3_true]

end Conjunction

theorem isNull_lt (c : SortCol) (a b : SortCol → Value) :
    (OrderTerm.isNull c).lt a b = (!(a c).isNull && (b c).isNull) := by
  cases ha : (a c).isNull <;> cases hb : (b c).isNull <;>
    simp [OrderTerm.lt, OrderTerm.desc, OrderTerm.value, Sql.ofNat, Value.lt, ha, hb]

theorem isNull_tied (c : SortCol) (a b : SortCol → Value) :
    decide ((OrderTerm.isNull c).value a = (OrderTerm.isNull c).value b) =
      ((a c).isNull == (b c).isNull) := by
  cases ha : (a c).isNull <;> cases hb : (b c).isNull <;> simp [OrderTerm.value, Sql.ofNat, ha, hb]

theorem eq_null_of_isNull {v : Value} (h : v.isNull = true) : v = .null := by
  cases v with
  | null => rfl
  | _ => cases h

theorem before_key (c : SortCol) (desc : Bool) (ts : List (OrderTerm SortCol)) (a b : SortCol → Value) :
    before (.isNull c :: .col c desc :: ts) a b =
      if (a c).isNull then (b c).isNull && before ts a b
      else (b c).isNull || (!(b c).isNull && (if desc then (b c).lt (a c) else (a c).lt (b c))) ||
        (!(b c).isNull && decide (b c = a c) && before ts a b) := by
  rw [before, before, isNull_lt, isNull_tied]
  cases ha : (a c).isNull with
  | true =>
    cases hb : (b c).isNull with
    | true =>
      have heq : a c = b c := (eq_null_of_isNull ha).trans (eq_null_of_isNull hb).symm
      simp [OrderTerm.lt, OrderTerm.value, heq, Value.lt_irrefl]
    | false => simp
  | false =>
    cases hb : (b c).isNull with
    | true => simp
    | false =>
      cases desc <;> simp [OrderTerm.lt, OrderTerm.desc, OrderTerm.value, @eq_comm _ (a c)]

variable {query : Empty → Bool}

/-- The conjunction of some conditions on a row. -/
def conj (query : Empty → Bool) (row : Last) (ps : List SortCond) : Option Bool :=
  all3 (ps.map fun p => p.eval row.column query)

theorem conj_append {row : Last} {ps qs : List SortCond} {a b : Bool} (hp : conj query row ps = some a)
    (hq : a = true → conj query row qs = some b) : conj query row (ps ++ qs) = some (a && b) := by
  rw [conj, List.map_append]
  exact all3_append hp hq

theorem compare_of_not_null {r : Sql.Rel} {v w : Value} (hv : v.isNull = false) (hw : w.isNull = false) :
    Sql.compare r v w = some (r.test v w) := by
  cases v with
  | null => cases hv
  | _ =>
    cases w with
    | null => cases hw
    | _ => rfl

theorem orsFrom_null {last : Last} {i : Nat} (h : (last.column (.s i)).isNull = true) (eqs : List SortCond)
    (s : QuerySort) (sorts : List QuerySort) :
    orsFrom last i eqs (s :: sorts) = orsFrom last (i + 1) (eqs ++ [.isNull (.col (.s i))]) sorts := by
  have hv : last.k.getD i .null = .null := eq_null_of_isNull h
  simp only [orsFrom, hv]

theorem orsFrom_present {last : Last} {i : Nat} (h : (last.column (.s i)).isNull = false)
    (eqs : List SortCond) (s : QuerySort) (sorts : List QuerySort) :
    orsFrom last i eqs (s :: sorts) =
      and (eqs ++ [.isNull (.col (.s i))]) ::
      and (eqs ++ [.notNull (.col (.s i)),
        .rel (if s.desc then .lt else .gt) (.col (.s i)) (.param (last.column (.s i)))]) ::
      orsFrom last (i + 1) (eqs ++ [.notNull (.col (.s i)),
        .rel .eq (.col (.s i)) (.param (last.column (.s i)))]) sorts := by
  have hcol : last.k.getD i .null = last.column (.s i) := rfl
  rw [orsFrom, hcol]
  cases hv : last.column (.s i) with
  | null => simp [hv, Value.isNull] at h
  | _ => simp

theorem conj_present (row : Last) (i : Nat) (r : Sql.Rel) {v : Value} (hv : v.isNull = false) :
    conj query row [.notNull (.col (.s i)), .rel r (.col (.s i)) (.param v)] =
      some (!(row.column (.s i)).isNull && r.test (row.column (.s i)) v) := by
  cases hrow : (row.column (.s i)).isNull with
  | true => simp [conj, all3, Sql.Cond.eval, Sql.Scalar.eval, hrow]
  | false => simp [conj, all3, Sql.Cond.eval, Sql.Scalar.eval, hrow, compare_of_not_null hrow hv]

theorem orsFrom_gives (last row : Last) (sorts : List QuerySort) (i : Nat) {eqs : List SortCond} {b : Bool}
    (heqs : conj query row eqs = some b) :
    ∃ bs, List.Forall₂ (Gives row.column query) (orsFrom last i eqs sorts) bs ∧
      bs.any id = (b && before (orderFrom i sorts) last.column row.column) := by
  induction sorts generalizing i eqs b with
  | nil =>
    refine ⟨[b && before (orderFrom i []) last.column row.column], .cons ?_ .nil, by simp⟩
    refine (eval_and _).trans (conj_append heqs fun _ => ?_)
    simp [conj, all3, Sql.Cond.eval, Sql.Scalar.eval, Last.column, Sql.compare, Sql.Rel.test, orderFrom,
      before, OrderTerm.lt, OrderTerm.desc, OrderTerm.value]
  | cons s sorts ih =>
    have hisNull : conj query row (eqs ++ [.isNull (.col (.s i))]) =
        some (b && (row.column (.s i)).isNull) := conj_append heqs fun _ => and3_true _
    rw [orderFrom, before_key]
    cases hv : (last.column (.s i)).isNull with
    | true =>
      obtain ⟨bs, hbs, hany⟩ := ih (i + 1) hisNull
      rw [orsFrom_null hv]
      exact ⟨bs, hbs, by simpa [Bool.and_assoc] using hany⟩
    | false =>
      have hpresent (r : Sql.Rel) : conj query row (eqs ++ [.notNull (.col (.s i)),
          .rel r (.col (.s i)) (.param (last.column (.s i)))]) =
          some (b && (!(row.column (.s i)).isNull && r.test (row.column (.s i)) (last.column (.s i)))) :=
        conj_append heqs fun _ => conj_present row i r hv
      obtain ⟨bs, hbs, hany⟩ := ih (i + 1) (hpresent .eq)
      rw [orsFrom_present hv]
      refine ⟨_ :: _ :: bs, .cons ((eval_and _).trans hisNull) (.cons ((eval_and _).trans (hpresent _)) hbs), ?_⟩
      rw [List.any_cons, List.any_cons, hany]
      cases s.desc <;> cases b <;> simp [Sql.Rel.test, Bool.or_assoc, Bool.and_assoc]

theorem afterLast_gives (query : Empty → Bool) (sorts : List QuerySort) (last row : Last) :
    Gives row.column query (afterLast sorts last) (before (orderFrom 0 sorts) last.column row.column) := by
  have hnil : conj query row [] = some true := rfl
  obtain ⟨bs, hbs, hany⟩ := orsFrom_gives last row sorts 0 hnil
  rw [Bool.true_and] at hany
  rw [← hany]
  exact gives_or hbs

structure SortKey (sorts : List QuerySort) extends Last where
  length_eq : k.length = sorts.length

variable {sorts : List QuerySort}

theorem SortKey.ext_last {a b : SortKey sorts} (h : a.toLast = b.toLast) : a = b := by
  cases a
  cases b
  cases h
  rfl

theorem mem_orderFrom_s {i j : Nat} (h : j < sorts.length) :
    ∃ desc, OrderTerm.col (SortCol.s (i + j)) desc ∈ orderFrom i sorts := by
  induction sorts generalizing i j with
  | nil => cases h
  | cons s sorts ih =>
    cases j with
    | zero => exact ⟨s.desc, by simp [orderFrom]⟩
    | succ j =>
      obtain ⟨desc, hmem⟩ := ih (i := i + 1) (Nat.lt_of_succ_lt_succ h)
      refine ⟨desc, List.mem_cons_of_mem _ (List.mem_cons_of_mem _ ?_)⟩
      rwa [Nat.add_assoc, Nat.add_comm 1 j] at hmem

theorem mem_orderFrom_id (i : Nat) (sorts : List QuerySort) :
    OrderTerm.col SortCol.id false ∈ orderFrom i sorts := by
  induction sorts generalizing i with
  | nil => exact List.mem_cons_self
  | cons s sorts ih => exact List.mem_cons_of_mem _ (List.mem_cons_of_mem _ (ih (i + 1)))

theorem SortKey.eq_of_tied {a b : SortKey sorts}
    (h : ∀ t ∈ orderFrom 0 sorts, t.value a.column = t.value b.column) : a = b := by
  have hid : a.id = b.id := by simpa [OrderTerm.value, Last.column] using h _ (mem_orderFrom_id 0 sorts)
  have hk : a.k = b.k := by
    refine List.ext_getElem (a.length_eq.trans b.length_eq.symm) fun j ha hb => ?_
    obtain ⟨desc, hmem⟩ := mem_orderFrom_s (i := 0) (a.length_eq ▸ ha)
    have hval := h _ hmem
    simpa [OrderTerm.value, Last.column, ha, hb] using hval
  refine SortKey.ext_last ?_
  cases ha : a.toLast
  simp_all

instance : IsStrictTotalOrder (SortKey sorts)
    fun a b => before (orderFrom 0 sorts) a.column b.column = true where
  irrefl a := by simp [Sql.before_irrefl]
  trans a b c := Sql.before_trans
  trichotomous a b hab hba := by
    obtain h | h | h := Sql.before_trichotomy (orderFrom 0 sorts) a.column b.column
    · exact absurd h hab
    · exact SortKey.eq_of_tied h
    · exact absurd h hba

instance : LinearOrder (SortKey sorts) :=
  linearOrderOfSTO fun a b => before (orderFrom 0 sorts) a.column b.column = true

theorem SortKey.lt_iff (a b : SortKey sorts) :
    a < b ↔ before (orderFrom 0 sorts) a.column b.column = true := Iff.rfl

theorem orderBy_eq (rows : List (SortKey sorts)) :
    Sql.orderBy (orderFrom 0 sorts) (fun r => r.column) rows = rows.insertionSort (· ≤ ·) := by
  have hle : (fun a b : SortKey sorts => before (orderFrom 0 sorts) b.column a.column = false) =
      fun a b => a ≤ b := by
    funext a b
    rw [← Bool.not_eq_true, ← SortKey.lt_iff, not_lt]
  unfold Sql.orderBy
  congr 1

end Savoire.Query
