import Savoire.Query.Eval

/-! Formulas: their values, their evaluation on a row, and their translation to a filter. -/
namespace Savoire.Query

inductive FValue
  | num (n : Num)
  | text (s : Text)
  | bool (b : Bool)
  | null
  | date (time : Num)
  | list (xs : List FValue)

inductive FormulaError
  | notNumber (v : Text)
  | notDate (v : Text)
  | notFinite
  | invalid
  | other (message : Text)
  deriving DecidableEq

/-- `+`, `-`, `*`, `/`, `%` and `^`. -/
inductive Arith
  | add | sub | mul | div | mod | pow
  deriving DecidableEq

/-- What the host gives to formulas: the readings of texts as numbers and dates, the texts of dates,
numbers rounded at ten decimals, the order of texts in the user's language, floating-point
arithmetic, and the functions of the language that evaluate all their arguments first. -/
structure FormulaHost extends Host where
  toNumber : Text → Num
  round10 : Num → Num
  dateText : Num → Text
  parseDate : Text → Num
  localeCompare : Text → Text → Num
  arith : Arith → Num → Num → Num
  call : Text → List FValue → Except FormulaError FValue

variable (host : FormulaHost)

def FValue.isEmpty : FValue → Bool
  | null | text [] | list [] => true
  | _ => false

def Num.isInteger : Num → Bool
  | fin q => q.den == 1
  | _ => false

def numberText (n : Num) : Text := host.numText (if n.isInteger then n else host.round10 n)

def boolText (b : Bool) : Text := if b then "true".toList else "false".toList

mutual
def FValue.asText : FValue → Text
  | .null => []
  | .date t => host.dateText t
  | .list xs => ", ".toList.intercalate (asTexts xs)
  | .num n => numberText host n
  | .text s => s
  | .bool b => boolText b

def asTexts : List FValue → List Text
  | [] => []
  | x :: xs => x.asText :: asTexts xs
end

/-- `Number(s.replace(',', '.').trim())`, when it is finite. -/
def textNumber (s : Text) : Option Num :=
  let n := host.toNumber (VaultIndex.jsTrim (s.replace ',' '.'))
  if n.isFinite then some n else none

/-- `n` digits and what follows. -/
def skipDigits : Nat → Text → Option Text
  | 0, s => some s
  | n + 1, c :: s => if c.isDigit then skipDigits n s else none
  | _ + 1, [] => none

def skipChar (p : Char → Bool) : Text → Option Text
  | c :: s => if p c then some s else none
  | [] => none

/-- `(Z|[+-]\d{2}:?\d{2})?$` -/
def isZone (s : Text) : Bool :=
  s = [] || s = ['Z'] ||
    match skipChar (fun c => c == '+' || c == '-') s with
    | none => false
    | some s => match skipDigits 2 s with
      | none => false
      | some s => skipDigits 2 ((skipChar (· == ':') s).getD s) == some []

/-- `(:\d{2}(\.\d+)?)?` and a zone. -/
def isSeconds (s : Text) : Bool :=
  isZone s ||
    match skipChar (· == ':') s with
    | none => false
    | some s => match skipDigits 2 s with
      | none => false
      | some s => isZone s ||
        match skipChar (· == '.') s with
        | none => false
        | some s => (s.head?.any (·.isDigit)) && isZone (s.dropWhile (·.isDigit))

/-- `DATE_RE` -/
def isDateText (s : Text) : Bool :=
  match skipDigits 4 s >>= skipChar (· == '-') >>= skipDigits 2 >>= skipChar (· == '-') >>= skipDigits 2 with
  | none => false
  | some [] => true
  | some (c :: s) => (c == 'T' || c == ' ') &&
    match skipDigits 2 s >>= skipChar (· == ':') >>= skipDigits 2 with
    | none => false
    | some s => isSeconds s

def FValue.isDateLike : FValue → Bool
  | date _ => true
  | text s => isDateText (VaultIndex.jsTrim s)
  | _ => false

def asNumber (v : FValue) : Except FormulaError Num :=
  match v with
  | .num n => .ok n
  | .bool b => .ok (.fin b.toNat)
  | .null | .text [] => .ok (.fin 0)
  | .date t => .ok t
  | .text s => match textNumber host s with
    | some n => .ok n
    | none => .error (.notNumber s)
  | .list xs => .error (.notNumber ((FValue.list xs).asText host))

def asBool : FValue → Bool
  | .bool b => b
  | .num n => n.ne0
  | .text s => s ≠ "false".toList && s ≠ []
  | v => !v.isEmpty

def asDate (v : FValue) : Except FormulaError Num :=
  match v with
  | .date t => .ok t
  | .text s =>
    let s' := VaultIndex.jsTrim s
    let t := host.parseDate (if s'.length = 10 then s' ++ "T00:00:00Z".toList else s'.replace ' ' 'T')
    if isDateText s' && t ≠ .nan then .ok t else .error (.notDate s)
  | v => .error (.notDate (v.asText host))

def FValue.isNumber : FValue → Bool
  | num _ => true
  | _ => false

def compare (a b : FValue) : Except FormulaError Num :=
  if a.isDateLike && b.isDateLike then do
    let x ← asDate host a
    let y ← asDate host b
    return x.sub y
  else if a.isNumber || b.isNumber then do
    let x ← asNumber host a
    let y ← asNumber host b
    return x.sub y
  else .ok (host.localeCompare (a.asText host) (b.asText host))

def FValue.isList : FValue → Bool
  | list _ => true
  | _ => false

def FValue.isBool : FValue → Bool
  | bool _ => true
  | _ => false

def equals (a b : FValue) : Bool :=
  if a.isEmpty || b.isEmpty then a.isEmpty && b.isEmpty
  else if a.isList || b.isList then decide (a.asText host = b.asText host)
  else if a.isBool || b.isBool then asBool a == asBool b
  else match compare host a b with
    | .ok n => decide (n = .fin 0)
    | .error _ => false

inductive UnOp
  | not | minus | plus
  deriving DecidableEq

inductive BinOp
  | and | or | eq | ne
  | order (o : Order)
  | arith (op : Arith)
  deriving DecidableEq

/-- The functions whose arguments are evaluated as they are needed, those that a filter knows, and
the others. -/
inductive Fn
  | ifThen | ifs | empty | not
  | eager (name : Text)
  deriving DecidableEq

inductive Node
  | lit (v : FValue)
  | prop (name : Text)
  | un (op : UnOp) (a : Node)
  | bin (op : BinOp) (a b : Node)
  | tern (c a b : Node)
  | call (fn : Fn) (args : List Node)
  | list (items : List Node)

structure FormulaRow where
  title : Text
  values : Record

def scalarValue : Scalar → FValue
  | .null => .null
  | .text s => .text s
  | .num n => .num n
  | .bool b => .bool b

def propertyFValue : PropertyValue → FValue
  | .scalar x => scalarValue x
  | .list xs => .list (xs.map scalarValue)

def titleProps : List Text := ["Nom".toList, "Name".toList, "@title".toList]

/-- The value that `prop(name)` reads, if there is one. -/
def readProp (row : FormulaRow) (name : Text) : Option PropertyValue :=
  match row.values.read host.toHost name with
  | some v => some v
  | none => if name ∈ titleProps then some (.scalar (.text row.title)) else none

def readValue (v : Option PropertyValue) : FValue := (v.map propertyFValue).getD .null

abbrev Result := Except FormulaError FValue

def ifs : List Result → Result
  | [] => .ok .null
  | [r] => r
  | c :: a :: rest => do if asBool (← c) then a else ifs rest

/-- A function on its arguments, each with what its evaluation would give. -/
def applyFn (fn : Fn) (args : List Result) : Result :=
  match fn, args with
  | .ifThen, [c, a, b] => do if asBool (← c) then a else b
  | .ifs, args => ifs args
  | .empty, [a] => do return .bool (← a).isEmpty
  | .not, [a] => do return .bool !(asBool (← a))
  | .eager name, args => do host.call name (← args.mapM id)
  | _, _ => .error .invalid

def FValue.asList : FValue → List FValue
  | list xs => xs
  | null => []
  | v => [v]

def isNumeric : FValue → Bool
  | .num _ => true
  | .text s => VaultIndex.jsTrim s ≠ [] && (textNumber host s).isSome
  | _ => false

def finite (n : Num) : Result := if n.isFinite then .ok (.num n) else .error .notFinite

def numbers (op : Arith) (a b : FValue) : Result := do
  let x ← asNumber host a
  let y ← asNumber host b
  finite (host.arith op x y)

def isPlainText (v : FValue) : Bool :=
  match v with
  | .text _ => !v.isDateLike
  | _ => false

def applyArith (op : Arith) (a b : FValue) : Result :=
  match op with
  | .add =>
    let math (v : FValue) := isNumeric host v || v.isBool || (v.isEmpty && !v.isList)
    if a.isList || b.isList then .ok (.list (a.asList ++ b.asList))
    else if math a && math b then numbers host .add a b
    else if isPlainText a || isPlainText b then .ok (.text (a.asText host ++ b.asText host))
    else numbers host .add a b
  | .sub =>
    if a.isDateLike && b.isDateLike then do return .num ((← asDate host a).sub (← asDate host b))
    else numbers host .sub a b
  | op => numbers host op a b

def applyBin (op : BinOp) (a b : Result) : Result :=
  match op with
  | .and => do if asBool (← a) then return .bool (asBool (← b)) else return .bool false
  | .or => do if asBool (← a) then return .bool true else return .bool (asBool (← b))
  | .eq => do return .bool (equals host (← a) (← b))
  | .ne => do return .bool !(equals host (← a) (← b))
  | .order o => do return .bool (o.test (← compare host (← a) (← b)))
  | .arith op => do applyArith host op (← a) (← b)

mutual
def evalNode (row : FormulaRow) : Node → Result
  | .lit v => .ok v
  | .list items => do return .list (← (evalNodes row items).mapM id)
  | .prop name => .ok (readValue (readProp host row name))
  | .tern c a b => do if asBool (← evalNode row c) then evalNode row a else evalNode row b
  | .un .not a => do return .bool !(asBool (← evalNode row a))
  | .un .minus a => do return .num ((Num.fin 0).sub (← asNumber host (← evalNode row a)))
  | .un .plus a => do return .num (← asNumber host (← evalNode row a))
  | .call fn args => applyFn host fn (evalNodes row args)
  | .bin op a b => applyBin host op (evalNode row a) (evalNode row b)

def evalNodes (row : FormulaRow) : List Node → List Result
  | [] => []
  | a :: rest => evalNode row a :: evalNodes row rest
end

/-- `output`, as a value again. -/
def output : FValue → FValue
  | .date t => .text (host.dateText t)
  | .list xs => .list ((asTexts host xs).map .text)
  | .num n => .num (if n.isInteger then n else host.round10 n)
  | v => v

/-- `evaluate` succeeds with a value that counts as true. -/
def formulaHolds (row : FormulaRow) (n : Node) : Bool :=
  match evalNode host row n with
  | .ok v => asBool (output host v)
  | .error _ => false

def fieldOfProp (name : Text) : QueryField := if name ∈ titleProps then .doc .title else .prop name

def Order.flip : Order → Order
  | lt => gt
  | gt => lt
  | lte => gte
  | gte => lte

/-- A comparison of a property with a literal, the property on the left. -/
def comparisonFilter (op : BinOp) (name : Text) (lit : FValue) : Option QueryFilter :=
  let field := fieldOfProp name
  let empty : QueryFilter := .leaf ⟨field, .empty, none⟩
  let compared (op : FilterOp) (x : Scalar) : QueryFilter := .leaf ⟨field, op, some (.scalar x)⟩
  match lit, op with
  | .bool b, .eq => some (compared .eq (.bool b))
  | .bool b, .ne => some (.or [empty, compared .neq (.bool b)])
  | .num n, .eq => some (compared .eq (.num n))
  | .num n, .ne => some (.or [empty, compared .neq (.num n)])
  | .num n, .order o =>
    -- an empty value counts as 0
    if o.test ((Num.fin 0).sub n) then some (.or [empty, compared (.order o) (.num n)])
    else some (compared (.order o) (.num n))
  | _, _ => none

def flipOp : BinOp → BinOp
  | .order o => .order o.flip
  | op => op

mutual
def toFilterNode : Node → Option QueryFilter
  | .bin .and a b => do return .and [← toFilterNode a, ← toFilterNode b]
  | .bin .or a b => do return .or [← toFilterNode a, ← toFilterNode b]
  | .un .not a => do return .not (← toFilterNode a)
  | .call .not args => match toFilterNodes args with
    | [some f] => some (.not f)
    | _ => none
  | .call .empty [.prop name] => some (.leaf ⟨fieldOfProp name, .empty, none⟩)
  | .bin op (.prop name) (.lit v) => comparisonFilter op name v
  | .bin op (.lit v) (.prop name) => comparisonFilter (flipOp op) name v
  | _ => none

def toFilterNodes : List Node → List (Option QueryFilter)
  | [] => []
  | a :: rest => toFilterNode a :: toFilterNodes rest
end

end Savoire.Query
