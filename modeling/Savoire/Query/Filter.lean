import Savoire.Library.Sql
import Savoire.Query.Eval

/-! Filters compiled to SQL over the columns of a document and the rows of its properties. -/
namespace Savoire.Query
open Sql (Rel Value)
variable (host : Host)

def Num.bind : Num → Value
  | .nan => .null
  | .negInf => .number .negInf
  | .fin q => .number (.fin q)
  | .posInf => .number .posInf

/-- A row of `props`. -/
structure PropRow where
  doc : Nat
  key : Text
  idx : Nat
  list : Bool
  num : Value
  txt : Text

/-- The row of one value of a property. -/
def propRow (doc : Nat) (key : Text) (list : Bool) (idx : Nat) (x : Scalar) : PropRow :=
  ⟨doc, key, idx, list, (match x with | .num n => n.bind | _ => .null), foldText host (x.str host)⟩

def valueRows (doc : Nat) (key : Text) (value : PropertyValue) : List PropRow :=
  if isEmptyValue (some value) then []
  else match value with
    | .scalar x => [propRow host doc key false 0 x]
    | .list xs => xs.mapIdx fun idx x => propRow host doc key true idx x

def propRows (doc : Nat) (props : Record) : List PropRow :=
  props.entries.flatMap fun e => valueRows host doc e.1 e.2

/-- The folded columns of `docs`. -/
inductive DocColumn
  | fold (name : DocField)
  | undefined
  deriving DecidableEq

def foldOrNull (s : Option Text) : Value :=
  match s with
  | none | some [] => .null
  | some s => .text (foldText host s)

/-- The number of a document and its folded columns. -/
structure DocRow where
  n : Nat
  id : Text
  fold : DocField → Value

def docRow (n : Nat) (d : EvalDoc) : DocRow := ⟨n, d.id, fun name => foldOrNull host (d.docField host name)⟩

inductive PropColumn
  | list | num | txt
  deriving DecidableEq

abbrev RowCond := Sql.Cond PropColumn Empty

/-- A subquery on `props p` for the document at hand: `p.key = key AND cond`. The lookup form
`d.n IN (SELECT p.doc ...)` and the form `EXISTS (... p.doc = d.n ...)` have one meaning. -/
structure PropQuery where
  not : Bool
  lookup : Bool
  key : Text
  cond : Option RowCond

abbrev Frag := Sql.Cond DocColumn PropQuery

section Junctions
variable {κ σ : Type}

def isTrue : Sql.Cond κ σ → Bool
  | .const b => b
  | _ => false

def and (parts : List (Sql.Cond κ σ)) : Sql.Cond κ σ :=
  match parts.filter fun p => !isTrue p with
  | [] => .const true
  | p :: ps => ps.foldl .and p

def or (parts : List (Sql.Cond κ σ)) : Sql.Cond κ σ :=
  match parts with
  | [] => .const false
  | p :: ps => ps.foldl .or p

end Junctions

def folded (w : PropertyValue) : Value := .text (foldText host (w.str host))

def Order.rel : Order → Rel
  | lt => .lt
  | lte => .le
  | gt => .gt
  | gte => .ge

/-- A row of `props` that compares with `w`, as a number or as a folded text. -/
def rowRel (r : Rel) (w : PropertyValue) : RowCond :=
  match w with
  | .scalar (.num n) =>
    .or (.and (.notNull (.col .num)) (.rel r (.col .num) (.param n.bind)))
      (.and (.isNull (.col .num)) (.rel r (.col .txt) (.param (folded host w))))
  | w => .rel r (.col .txt) (.param (folded host w))

def rowEq (w : PropertyValue) : RowCond := rowRel host .eq w

def rowCmp (o : Order) (w : PropertyValue) : RowCond := rowRel host o.rel w

def hasProp (key : Text) (cond : Option RowCond) (not lookup : Bool) : Frag :=
  .sub ⟨not, lookup, key, cond⟩

def isList (b : Bool) : RowCond := .rel .eq (.col .list) (.param (Sql.ofNat b.toNat))

def compilePropLeaf (key : Text) (op : FilterOp) (value : Option PropertyValue) : Frag :=
  match op with
  | .empty => hasProp key none true false
  | .notEmpty => hasProp key none false false
  | op => match operand value with
    | none => .const false
    | some want => match op with
      | .eq => hasProp key (some (rowEq host want)) false true
      | .contains => hasProp key (some (or [
          and [isList false, .rel .gt (.instr (.col .txt) (.param (folded host want))) (.param (Sql.ofNat 0))],
          and [isList true, rowEq host want]])) false false
      | .neq => or [
          hasProp key (some (and [isList false, .not (rowEq host want)])) false false,
          and [hasProp key (some (isList true)) false false,
            hasProp key (some (and [isList true, rowEq host want])) true false]]
      | .order o => hasProp key (some (and [isList false, rowCmp host o want])) false false
      | .startsWith =>
        let w : Sql.Scalar PropColumn := .param (folded host want)
        hasProp key (some (and [isList false,
          .and (.rel .ge (.col .txt) w) (.rel .eq (.substr (.col .txt) (.length w)) w)])) false true
      | .inValues => match want with
        | .list (w :: ws) => hasProp key (some (or ((w :: ws).map fun w => rowEq host (.scalar w)))) false true
        | _ => .const false
      | _ => .const false

def foldColumn : DocField → DocColumn
  | .inherited => .undefined
  | name => .fold name

def compileDocLeaf (name : DocField) (op : FilterOp) (value : Option PropertyValue) : Frag :=
  let col : Sql.Scalar DocColumn := .col (foldColumn name)
  match op with
  | .empty => .isNull col
  | .notEmpty => .notNull col
  | op => match operand value with
    | none => .const false
    | some want =>
      let w : Sql.Scalar DocColumn := .param (folded host want)
      match op with
      | .eq => .orFalse (.rel .eq col w)
      | .neq => .orFalse (.rel .ne col w)
      | .order o => .orFalse (.rel o.rel col w)
      | .contains => .orFalse (.rel .gt (.instr col w) (.param (Sql.ofNat 0)))
      | .startsWith => .orFalse (.rel .eq (.substr col (.length w)) w)
      | .inValues => match want with
        | .list (w :: ws) => .orFalse (.inList col ((w :: ws).map fun w => folded host (.scalar w)))
        | _ => .const false
      | _ => .const false

def compileLeaf (l : FilterLeaf) : Frag :=
  match l.field with
  | .prop key => compilePropLeaf host key l.op l.value
  | .doc name => compileDocLeaf host name l.op l.value

def compileFilter (f : QueryFilter) : Frag := f.fold and or .not (compileLeaf host)

/-- The columns of a row of `props`. -/
def PropRow.column (r : PropRow) : PropColumn → Value
  | .list => Sql.ofNat r.list.toNat
  | .num => r.num
  | .txt => .text r.txt

def DocRow.column (d : DocRow) : DocColumn → Value
  | .fold name => d.fold name
  | .undefined => .null

def meets (column : PropColumn → Value) (cond : Option RowCond) : Bool :=
  cond.all fun c => c.eval column Empty.elim == some true

def PropQuery.run (table : List PropRow) (d : DocRow) (q : PropQuery) : Bool :=
  q.not ^^ table.any fun r => r.doc == d.n && r.key == q.key && meets r.column q.cond

def Frag.eval (table : List PropRow) (d : DocRow) (e : Frag) : Option Bool :=
  Sql.Cond.eval d.column (PropQuery.run table d) e

/-- The row meets the condition; a condition that names an unknown column is refused. -/
def selects (table : List PropRow) (d : DocRow) (e : Frag) : Bool :=
  !e.columns.contains .undefined && e.eval table d == some true

def unitLength (s : Text) : Nat := (s.flatMap Utf.utf16).length

/-- `isScalar`, and at most `MAX_TEXT` units. -/
def acceptsScalar : Scalar → Bool
  | .text s => unitLength s ≤ 1000
  | .num n => n.isFinite
  | _ => true

/-- `parseValue`. -/
def acceptsValue : PropertyValue → Bool
  | .scalar x => acceptsScalar x
  | .list xs => xs.length ≤ 200 && xs.all acceptsScalar

/-- `parseField` and `parseValue`. -/
def FilterLeaf.accepted (l : FilterLeaf) : Bool :=
  (match l.field with
    | .prop key => unitLength key ≤ 256
    | .doc _ => true) &&
  l.value.all acceptsValue

end Savoire.Query
