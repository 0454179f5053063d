import Savoire.Query.Independence

/-! The formula columns of a base: a query with formulas goes to the engine with their sources, or its
rows are read and filtered, sorted and grouped by the client. -/
namespace Savoire.Base
open Query InMemory
open StableSort (Sorter)

/-- What the client looks at beside the engine: `Number(s)`, and the text of a query in JSON. The
empty text is a formula. -/
structure ClientHost extends EngineHost where
  toNumber : Text → Query.Num
  queryKey : InMemory.Query → Text
  /-- Without capitals a finite number is still read as it is, an infinite one is not. -/
  toNumber_fold : ∀ x, toNumber (foldText toHost (numText x)) = if x.isFinite then x else .nan
  toNumber_comma : ∀ s, ',' ∈ s → toNumber s = .nan
  compile_empty : compile ['"', '"'] = .ok fun _ _ => .scalar (.text [])

structure CompiledFormula (host : EngineHost) where
  source : Text
  evaluate : Text → Record → PropertyValue
  compiled : host.compile source = .ok evaluate

/-- The formula of a key, unless there is none or it is wrong. -/
abbrev FormulaLookup (host : EngineHost) := Text → Option (CompiledFormula host)

def formulaPrefix : Char := '='

def isFormulaKey (key : Text) : Bool := key.head? == some formulaPrefix

def isFormulaField : Field → Bool
  | .stored (.prop key) => isFormulaKey key
  | _ => false

def usesFormula (f : InMemory.QueryFilter) : Bool := f.leaves.any fun l => isFormulaField l.field

/-- No filter, the only one, or all of them. -/
def join : List InMemory.QueryFilter → Option InMemory.QueryFilter
  | [] => none
  | [f] => some f
  | fs => some (.and fs)

structure SplitFilter where
  engine : Option InMemory.QueryFilter
  client : Option InMemory.QueryFilter

def splitWhere : Option InMemory.QueryFilter → SplitFilter
  | none => ⟨none, none⟩
  | some f =>
    if !usesFormula f then ⟨some f, none⟩
    else match f with
      | .and fs => ⟨join (fs.filter fun f => !usesFormula f), join (fs.filter usesFormula)⟩
      | f => ⟨none, some f⟩

/-- The own values of a row; a key that comes again is left out. -/
def valuesOf (row : QueryRow) : Record where
  entries := row.values.pwFilter fun a b => a.1 ≠ b.1
  nodup := List.pairwise_map.2 (List.pairwise_pwFilter _)

section Comparisons
variable (host : ClientHost)

/-- `s.trim() !== '' && Number.isFinite(Number(s))` -/
def readsAsNumber (s : Text) : Bool := decide (VaultIndex.jsTrim s ≠ []) && (host.toNumber s).isFinite

def compareScalar (a : Scalar) (b : PropertyValue) : Query.Num :=
  let byText :=
    let fa := foldText host.toHost (a.str host.toHost)
    let fb := foldText host.toHost (b.str host.toHost)
    if textLt fa fb then .fin (-1) else if textLt fb fa then .fin 1 else .fin 0
  match a, b with
  | .num x, .scalar (.num y) => x.sub y
  | .bool x, .scalar (.bool y) => .fin (x.toNat - y.toNat)
  -- a number of a formula, and the text that was typed
  | .num x, .scalar (.text t) => if readsAsNumber host t then x.sub (host.toNumber t) else byText
  | _, _ => byText

variable (formula : FormulaLookup host.toEngineHost)

def fieldOf (row : QueryRow) : Field → Option PropertyValue
  | .stored (.prop key) =>
    if !isFormulaKey key then (valuesOf row).read host.toHost key
    else match formula key with
      | none => none
      | some f => some (f.evaluate row.title (valuesOf row))
  | .formula _ => none
  | .stored (.doc .title) => some (.scalar (.text row.title))
  | .stored (.doc .path) => some (.scalar (.text row.path))
  | .stored (.doc .folder) => some (.scalar (.text (VaultIndex.folderOf row.path)))
  | .stored (.doc .ext) => some (.scalar (.text (VaultIndex.extOf host.lower row.path)))
  | .stored (.doc _) => none

def eq (x : Scalar) (w : PropertyValue) : Bool := decide (compareScalar host x w = .fin 0)

/-- The condition on the elements of a list. -/
def matchList (op : FilterOp) (xs : List Scalar) (want : PropertyValue) : Bool :=
  match op with
  | .eq | .contains => xs.any fun x => eq host x want
  | .neq => !xs.any fun x => eq host x want
  | .inValues => xs.any fun x => anyValue want fun w => eq host x (.scalar w)
  | _ => false

def matchScalar (op : FilterOp) (a : Scalar) (want : PropertyValue) : Bool :=
  match op with
  | .eq => eq host a want
  | .neq => !eq host a want
  | .order o => o.test (compareScalar host a want)
  | .contains => includes (foldText host.toHost (a.str host.toHost)) (foldText host.toHost (want.str host.toHost))
  | .startsWith =>
    Text.startsWith (foldText host.toHost (a.str host.toHost)) (foldText host.toHost (want.str host.toHost))
  | .inValues => anyValue want fun w => eq host a (.scalar w)
  | _ => false

def matchPresent (op : FilterOp) (v want : PropertyValue) : Bool :=
  match v with
  | .list xs => matchList host op xs want
  | .scalar a => matchScalar host op a want

def matchValue (op : FilterOp) (value v : Option PropertyValue) : Bool :=
  match op with
  | .empty => isEmptyValue v
  | .notEmpty => !isEmptyValue v
  | op => match v, operand value with
    | some v, some want => !isEmptyValue (some v) && matchPresent host op v want
    | _, _ => false

def matchRow (row : QueryRow) (f : InMemory.QueryFilter) : Bool :=
  f.holds fun l => matchValue host l.op l.value (fieldOf host formula row l.field)

/-- `Array.isArray(v) ? v[0] : v` -/
def firstValue : Option PropertyValue → Option PropertyValue
  | some (.list xs) => xs.head?.map .scalar
  | v => v

def scalarOf : Option PropertyValue → Scalar
  | some (.scalar x) => x
  | _ => .null

abbrev KeyedRow := QueryRow × List (Option PropertyValue)

/-- The comparator of `sortRows`, from the keys at hand on. -/
def compareFrom (ids : Query.Num) : List QuerySort → List (Option PropertyValue) → List (Option PropertyValue) → Query.Num
  | s :: sorts, a :: as, b :: bs =>
    if isEmptyValue a || isEmptyValue b then
      if isEmptyValue a ≠ isEmptyValue b then (if isEmptyValue a then .fin 1 else .fin (-1))
      else compareFrom ids sorts as bs
    else
      let c := compareScalar host (scalarOf a) (.scalar (scalarOf b))
      if c.ne0 then (if s.desc then negate c else c) else compareFrom ids sorts as bs
  | _, _, _ => ids

def keysOf (sorts : List QuerySort) (row : QueryRow) : List (Option PropertyValue) :=
  sorts.map fun s => firstValue (fieldOf host formula row s.field)

def compareKeyed (sorts : List QuerySort) (a b : KeyedRow) : Ordering :=
  sign (compareFrom host (compareIds a.1.id b.1.id) sorts a.2 b.2)

def sortRows (sorter : Sorter) (rows : List QueryRow) (sorts : List QuerySort) : List QueryRow :=
  (sorter.apply (compareKeyed host sorts) (rows.map fun row => (row, keysOf host formula sorts row))).map (·.1)

def groupsOf (sorter : Sorter) (rows : List QueryRow) (field : Field) : List QueryGroup :=
  let counts := (rows.flatMap fun row => groupKeys (fieldOf host formula row field)).foldl
    (countKey host.toEngineHost) []
  sorter.apply (fun a b => sign (.fin ((b.count : ℚ) - a.count))) (counts.map (·.2))

end Comparisons

section Engine
variable (host : ClientHost) (formula : FormulaLookup host.toEngineHost)

def toEngineField : Field → Field
  | .stored (.prop key) =>
    if isFormulaKey key then .formula (((formula key).map (·.source)).getD ['"', '"']) else .stored (.prop key)
  | f => f

/-- `v.replace(',', '.')` -/
def dotted (s : Text) : Text :=
  match s.span (· ≠ ',') with
  | (s, _ :: rest) => s ++ '.' :: rest
  | (s, []) => s

def readsDotted (v : Text) : Bool := decide (VaultIndex.jsTrim v ≠ []) && (host.toNumber (dotted v)).isFinite

def toEngineValue : Option PropertyValue → Option PropertyValue
  | some (.scalar (.text v)) =>
    if readsDotted host v then some (.scalar (.num (host.toNumber (dotted v)))) else some (.scalar (.text v))
  | v => v

def toEngineLeaf (l : InMemory.FilterLeaf) : InMemory.FilterLeaf :=
  if isFormulaField l.field then ⟨toEngineField host formula l.field, l.op, toEngineValue host l.value⟩ else l

def toEngineFilter (f : InMemory.QueryFilter) : InMemory.QueryFilter :=
  f.map (toEngineLeaf host formula)

/-- A query under its text. -/
def withKey (q : InMemory.Query) : InMemory.Query := { q with key := host.queryKey { q with key := [] } }

def toEngineSort (s : QuerySort) : QuerySort := { s with field := toEngineField host formula s.field }

def toEngineAggregate (a : QueryAggregate) : QueryAggregate :=
  { a with field := a.field.map (toEngineField host formula) }

def toEngineQuery (q : InMemory.Query) : InMemory.Query :=
  withKey host { q with
    filter := q.filter.map (toEngineFilter host formula)
    sort := q.sort.map (toEngineSort host formula)
    groupBy := q.groupBy.map (toEngineField host formula)
    aggregate := q.aggregate.map fun as => as.map (toEngineAggregate host formula) }

def baseQueryMaxRows : Nat := 20000

def clientSort (q : InMemory.Query) : Bool := q.sort.any fun s => isFormulaField s.field

def baseOf (q : InMemory.Query) : InMemory.Query :=
  withKey host
    { source := q.source
      filter := (splitWhere q.filter).engine
      text := q.text
      sort := if clientSort q then [] else q.sort
      select := q.select
      groupBy := none
      aggregate := none
      key := [] }

/-- The pages of a query, at most `fuel` of them; `none` when it takes more. -/
def fetchFrom (query : Option Text → Except InMemory.QueryError QueryResult) :
    Nat → List QueryRow → Option Text → Option (Except InMemory.QueryError (List QueryRow))
  | 0, _, _ => none
  | fuel + 1, rows, cursor => match query cursor with
    | .error e => some (.error e)
    | .ok r =>
      let rows := rows ++ r.rows
      match r.next with
      | some (c :: cs) =>
        if rows.length < baseQueryMaxRows then fetchFrom query fuel rows (some (c :: cs))
        else some (.ok (rows.take baseQueryMaxRows))
      | _ => some (.ok (rows.take baseQueryMaxRows))

variable (sorter : Sorter) {host}

def fetchBaseRows (e : Engine host.toEngineHost) (fuel : Nat) (base : InMemory.Query) :
    Option (Except InMemory.QueryError (List QueryRow)) :=
  fetchFrom (e.run sorter base (some (.fin queryMaxLimit))) fuel [] none

variable (host)

def keptRows (q : InMemory.Query) (rows : List QueryRow) : List QueryRow :=
  let kept := match (splitWhere q.filter).client with
    | some f => rows.filter fun row => matchRow host formula row f
    | none => rows
  if clientSort q then sortRows host formula sorter kept q.sort else kept

/-- `Math.max(1, Math.min(limit ?? 50, 500))`, where a page ends. -/
def clampLimit : Option Query.Num → Nat
  | none => queryDefaultLimit
  | some (.fin x) => if x < 1 then 1 else if x ≤ queryMaxLimit then x.floor.toNat else queryMaxLimit
  | some .negInf => 1
  | some .posInf => queryMaxLimit
  | some .nan => 0

/-- A page of the client; its cursor is an offset. -/
structure ClientResult where
  rows : List QueryRow
  next : Option Nat
  total : Nat
  groups : Option (List QueryGroup)

def clientAnswer (q : InMemory.Query) (limit : Option Query.Num) (offset : Nat) (kept : List QueryRow) : ClientResult where
  rows := (kept.drop offset).take (clampLimit limit)
  next := if offset + clampLimit limit < kept.length then some (offset + clampLimit limit) else none
  total := kept.length
  groups := q.groupBy.map (groupsOf host formula sorter kept)

/-- `run` of `clientFormulas`, on the engine that the client asks. -/
def run (e : Engine host.toEngineHost) (fuel : Nat) (q : InMemory.Query) (limit : Option Query.Num) (offset : Nat) :
    Option (Except InMemory.QueryError ClientResult) :=
  (fetchBaseRows sorter e fuel (baseOf host q)).map fun fetched =>
    fetched.map fun rows => clientAnswer host formula sorter q limit offset (keptRows host formula sorter q rows)

end Engine

end Savoire.Base
