import Savoire.Library.Condition
import Savoire.Query.Value

/-! The reference evaluation of a filter on a document in memory. -/
namespace Savoire.Query
variable (host : Host)

/-- The names that `f.doc in DOC_FIELDS` accepts: the closed list, and the members that every
object inherits. -/
inductive DocField
  | path | title | folder | ext | created | modified | inherited
  deriving DecidableEq

inductive QueryField
  | prop (key : Text)
  | doc (name : DocField)
  deriving DecidableEq

inductive FilterOp
  | eq | neq
  | order (o : Order)
  | contains | startsWith | inValues | empty | notEmpty
  deriving DecidableEq

structure FilterLeaf where
  field : QueryField
  op : FilterOp
  value : Option PropertyValue
  deriving DecidableEq

/-- A filter without formulas. -/
abbrev QueryFilter := Condition FilterLeaf

structure EvalDoc where
  id : Text
  path : Text
  title : Text
  props : Record
  created : Option Text
  modified : Option Text

/-- `DOC_FIELDS` read on a document. -/
def EvalDoc.docField (d : EvalDoc) : DocField → Option Text
  | .path => some d.path
  | .title => some d.title
  | .folder => some (VaultIndex.folderOf d.path)
  | .ext => some (VaultIndex.extOf host.lower d.path)
  | .created => d.created
  | .modified => d.modified
  | .inherited => none

/-- `FieldReader.value`. -/
def fieldValue (d : EvalDoc) : QueryField → Option PropertyValue
  | .prop key => d.props.read host key
  | .doc name => (d.docField host name).map fun t => .scalar (.text t)

/-- Negative, zero, positive or NaN, as `a` compares with `b`. -/
def compareScalar (a : Scalar) (b : PropertyValue) : Num :=
  match a, b with
  | .num x, .scalar (.num y) => x.sub y
  | .bool x, .scalar (.bool y) => .fin (x.toNat - y.toNat)
  | a, b =>
    let fa := foldText host (a.str host)
    let fb := foldText host (b.str host)
    if textLt fa fb then .fin (-1) else if textLt fb fa then .fin 1 else .fin 0

def scalarEquals (a : Scalar) (b : PropertyValue) : Bool :=
  decide (compareScalar host a b = .fin 0)

/-- `Array.isArray(want) && want.some(...)`. -/
def anyValue (want : PropertyValue) (p : Scalar → Bool) : Bool :=
  match want with
  | .list ws => ws.any p
  | .scalar _ => false

def matchesList (op : FilterOp) (xs : List Scalar) (want : PropertyValue) : Bool :=
  match op with
  | .eq | .contains => xs.any fun x => scalarEquals host x want
  | .neq => !xs.any fun x => scalarEquals host x want
  | .inValues => xs.any fun x => anyValue want fun w => scalarEquals host x (.scalar w)
  | _ => false

/-- `includes`. -/
def includes (a b : Text) : Bool := decide (b <:+: a)

def matchesScalar (op : FilterOp) (a : Scalar) (want : PropertyValue) : Bool :=
  match op with
  | .eq => scalarEquals host a want
  | .neq => !scalarEquals host a want
  | .order o => o.test (compareScalar host a want)
  | .contains => includes (foldText host (a.str host)) (foldText host (want.str host))
  | .startsWith => Text.startsWith (foldText host (a.str host)) (foldText host (want.str host))
  | .inValues => anyValue want fun w => scalarEquals host a (.scalar w)
  | _ => false

def operand (value : Option PropertyValue) : Option PropertyValue :=
  value.filter (· ≠ .scalar .null)

def matchesPresent (op : FilterOp) (v want : PropertyValue) : Bool :=
  match v with
  | .list xs => matchesList host op xs want
  | .scalar a => matchesScalar host op a want

/-- A condition on the value of a field. -/
def matchesValue (op : FilterOp) (value v : Option PropertyValue) : Bool :=
  match op with
  | .empty => isEmptyValue v
  | .notEmpty => !isEmptyValue v
  | op => match v, operand value with
    | some v, some want => !isEmptyValue (some v) && matchesPresent host op v want
    | _, _ => false

@[simp] theorem matchesValue_empty (value v : Option PropertyValue) :
    matchesValue host .empty value v = isEmptyValue v := rfl

def matchesLeaf (d : EvalDoc) (l : FilterLeaf) : Bool :=
  matchesValue host l.op l.value (fieldValue host d l.field)

def matchesDoc (d : EvalDoc) (f : QueryFilter) : Bool := f.holds (matchesLeaf host d)

end Savoire.Query
