import Savoire.Query.Cursor
import Savoire.Query.RowOrder

/-! The query engine in memory: the documents that it holds, a query run on them, and how far its
answer depends on the order in which they came. -/
namespace Savoire.InMemory
open Query
open StableSort (Sorter)

/-- A number as JSON and its arithmetic, Unicode's letters and digits, and formulas: `compile`
gives the value of a formula on a title and properties, null where it fails. -/
structure EngineHost extends PageHost where
  isWordChar : Char → Bool
  compile : Text → Except Text (Text → Record → PropertyValue)
  add : Query.Num → Query.Num → Query.Num
  divide : Query.Num → Nat → Query.Num

/-- A note, or a light row of a base. -/
structure IndexedDoc extends EvalDoc where
  base : Option Text
  text : Option Text

inductive ErrorCode
  | invalidQuery | invalidCursor | tooComplex
  deriving DecidableEq

structure QueryError where
  code : ErrorCode
  message : Text
  deriving DecidableEq

structure FilterLeaf where
  field : Field
  op : FilterOp
  value : Option PropertyValue

abbrev QueryFilter := Condition FilterLeaf

structure NoteSource where
  folder : Option Text
  ext : Option (List Text)

structure Pages extends NoteSource where
  filter : Option QueryFilter

inductive QuerySource
  | notes (source : NoteSource)
  | base (id : Text) (pages : Option Pages)
  | unknown

inductive AggregateOp
  | count | sum | mean | min | max
  deriving DecidableEq

structure QueryAggregate where
  op : AggregateOp
  field : Option Field

/-- A query without its page; `key` is its text in JSON. -/
structure Query where
  source : QuerySource
  filter : Option QueryFilter
  text : Option Text
  sort : List QuerySort
  select : Option (List Text)
  groupBy : Option Field
  aggregate : Option (List QueryAggregate)
  key : Text

structure QueryRow where
  id : Text
  path : Text
  title : Text
  values : List (Text × PropertyValue)
  deriving DecidableEq

structure QueryGroup where
  key : Scalar
  count : Nat
  deriving DecidableEq

structure QueryResult where
  rows : List QueryRow
  next : Option Text
  total : Nat
  groups : Option (List QueryGroup)
  aggregates : Option (List PropertyValue)
  deriving DecidableEq

def queryDefaultLimit : Nat := 50
def queryMaxLimit : Nat := 500
def queryMaxAggregates : Nat := 32
def queryMaxFormulas : Nat := 8
def formulaMaxLength : Nat := 2000
def maxFilterNodes : Nat := 64

section Definitions
variable (host : EngineHost)

/-- `FieldReader.value`. -/
def fieldOf (d : EvalDoc) : Field → Option PropertyValue
  | .stored f => fieldValue host.toHost d f
  | .formula source => match host.compile source with
    | .ok evaluate => some (evaluate d.title d.props)
    | .error _ => none

def matchesFilter (d : EvalDoc) (f : QueryFilter) : Bool :=
  f.holds fun l => matchesValue host.toHost l.op l.value (fieldOf host d l.field)

def splitWords : Text → List Text
  | s => (s.splitOnP fun c => !host.isWordChar c).filter (· ≠ [])

def words (s : Text) : List Text := splitWords host (foldText host.toHost s)

def wordsOf (d : IndexedDoc) : List Text := words host d.title ++ words host (d.text.getD [])

/-- The documents in the order of a `Map`, and the words of each. -/
structure Engine where
  docs : List IndexedDoc
  words : Text → Option (List Text)
  ids : (docs.map (·.id)).Nodup
  indexed : ∀ d ∈ docs, words d.id = some (wordsOf host d)

def Engine.empty : Engine host := ⟨[], fun _ => none, List.nodup_nil, by simp⟩

variable {host}

def Engine.upsert (e : Engine host) (doc : IndexedDoc) : Engine host where
  docs :=
    if doc.id ∈ e.docs.map (·.id) then e.docs.map fun d => if d.id = doc.id then doc else d
    else e.docs ++ [doc]
  words := Function.update e.words doc.id (some (wordsOf host doc))
  ids := by
    split_ifs with h
    · have hids : (e.docs.map fun d => if d.id = doc.id then doc else d).map (·.id) = e.docs.map (·.id) := by
        rw [List.map_map]
        refine List.map_congr_left fun d _ => ?_
        by_cases hd : d.id = doc.id <;> simp [hd]
      rw [hids]
      exact e.ids
    · rw [List.map_append]
      exact e.ids.append (List.nodup_singleton _) (by simpa using h)
  indexed := by
    have hkeep : ∀ d ∈ e.docs, d.id ≠ doc.id →
        Function.update e.words doc.id (some (wordsOf host doc)) d.id = some (wordsOf host d) := by
      intro d hd hne
      rw [Function.update_of_ne hne]
      exact e.indexed d hd
    intro d hd
    split_ifs at hd with h
    · obtain ⟨d', hd', rfl⟩ := List.mem_map.1 hd
      by_cases hid : d'.id = doc.id
      · simp [hid]
      · rw [if_neg hid]
        exact hkeep d' hd' hid
    · obtain hd | hd := List.mem_append.1 hd
      · exact hkeep d hd fun hid => h (hid ▸ List.mem_map_of_mem hd)
      · obtain rfl := List.mem_singleton.1 hd
        simp

def Engine.remove (e : Engine host) (id : Text) : Engine host where
  docs := e.docs.filter (·.id ≠ id)
  words := if id ∈ e.docs.map (·.id) then Function.update e.words id none else e.words
  ids := (List.filter_sublist.map _).nodup e.ids
  indexed := by
    intro d hd
    obtain ⟨hd, hne⟩ := List.mem_filter.1 hd
    have hne : d.id ≠ id := by simpa using hne
    split_ifs
    · rw [Function.update_of_ne hne]
      exact e.indexed d hd
    · exact e.indexed d hd

inductive Change
  | upsert (doc : IndexedDoc)
  | remove (id : Text)

def Engine.apply (e : Engine host) : Change → Engine host
  | .upsert doc => e.upsert doc
  | .remove id => e.remove id

def index (host : EngineHost) (history : List Change) : Engine host :=
  history.foldl Engine.apply (Engine.empty host)

section Evaluation
variable (host : EngineHost) (sorter : Sorter)

abbrev Keyed := IndexedDoc × List SortKey

def keysOf (sorts : List QuerySort) (d : IndexedDoc) : List SortKey :=
  sorts.map fun s => sortKey host.toHost (fieldOf host d.toEvalDoc s.field)

def compareKeyed (sorts : List QuerySort) (a b : Keyed) : Ordering :=
  sign (compareFrom host.toHost (compareIds a.1.id b.1.id) sorts a.2 b.2)

def sortDocs (docs : List IndexedDoc) (sorts : List QuerySort) : List IndexedDoc :=
  match sorts with
  | [] => sorter.apply (fun a b => sign (compareIds a.id b.id)) docs
  | sorts => (sorter.apply (compareKeyed host sorts) (docs.map fun d => (d, keysOf host sorts d))).map (·.1)

/-- `JSON.stringify` of a key. -/
def groupId (key : Scalar) : Text :=
  Json.print host.numerals (match key with
    | .text s => .str s
    | .bool b => .bool b
    | .num (.fin q) => .num q
    | .num _ | .null => .null)

def groupKeys (v : Option PropertyValue) : List Scalar :=
  if isEmptyValue v then [.null]
  else match v with
    | some (.list xs) => xs
    | some (.scalar x) => [x]
    | none => [.null]

/-- One more of a key: its group comes last when it is new. -/
def countKey (counts : List (Text × QueryGroup)) (key : Scalar) : List (Text × QueryGroup) :=
  let id := groupId host key
  if id ∈ counts.map (·.1) then
    counts.map fun e => if e.1 = id then (id, { e.2 with count := e.2.count + 1 }) else e
  else counts ++ [(id, ⟨key, 1⟩)]

def compareGroups (a b : QueryGroup) : Query.Num :=
  if a.count ≠ b.count then .fin ((b.count : ℚ) - a.count)
  else if (a.key = .null) ≠ (b.key = .null) then (if a.key = .null then .fin 1 else .fin (-1))
  else if a.key = .null ∨ b.key = .null then .fin 0
  else compareScalar host.toHost a.key (.scalar b.key)

def groupDocs (docs : List IndexedDoc) (field : Field) : List QueryGroup :=
  let counts := (docs.flatMap fun d => groupKeys (fieldOf host d.toEvalDoc field)).foldl (countKey host) []
  sorter.apply (fun a b => sign (compareGroups host a b)) (counts.map (·.2))

/-- `reduce` without a first value, on a list that has one. -/
def reduce {α : Type} (f : α → α → α) : List α → Option α
  | [] => none
  | x :: xs => some (xs.foldl f x)

/-- The least or the greatest, the first of equal ones. -/
def extreme {α : Type} (lt : α → α → Bool) (least : Bool) (x y : α) : α :=
  if (if least then lt y x else lt x y) then y else x

def numLt (x y : Query.Num) : Bool := Order.test .lt (x.sub y)

def aggregateDocs (docs : List IndexedDoc) (a : QueryAggregate) : PropertyValue :=
  let values : List (Option PropertyValue) := match a.field with
    | some field => docs.map fun d => fieldOf host d.toEvalDoc field
    | none => docs.map fun _ => none
  let nums := values.filterMap fun
    | some (.scalar (.num x)) => if x.isFinite then some x else none
    | _ => none
  let texts := values.filterMap fun
    | some (.scalar (.text s)) => if s = [] then none else some s
    | _ => none
  let sum := nums.foldl host.add (.fin 0)
  let range (least : Bool) : PropertyValue :=
    match reduce (extreme numLt least) nums, reduce (extreme textLt least) texts with
    | some x, _ => .scalar (.num x)
    | none, some s => .scalar (.text s)
    | none, none => .scalar .null
  match a.op with
  | .count => .scalar (.num (.fin (match a.field with
    | some _ => (values.filter fun v => !isEmptyValue v).length
    | none => docs.length)))
  | .sum => .scalar (.num sum)
  | .mean => if nums = [] then .scalar .null else .scalar (.num (host.divide sum nums.length))
  | .min => range true
  | .max => range false

end Evaluation

section Query
variable (host : EngineHost) (sorter : Sorter)

def checkLimit (limit : Option Query.Num) : Except QueryError Nat :=
  let refused := .error ⟨.invalidQuery, "limit doit etre entre 1 et 500.".toList⟩
  match limit with
  | none => .ok queryDefaultLimit
  | some (.fin x) => if x.den = 1 ∧ 1 ≤ x ∧ x ≤ queryMaxLimit then .ok x.num.toNat else refused
  | some _ => refused

def countNodes (f : QueryFilter) : Nat :=
  f.fold (fun ns => 1 + ns.sum) (fun ns => 1 + ns.sum) (1 + ·) fun _ => 1

def filterFields (f : QueryFilter) : List Field :=
  f.fold List.flatten List.flatten id fun l => [l.field]

def QuerySource.filter : QuerySource → Option QueryFilter
  | .base _ (some pages) => pages.filter
  | _ => none

/-- The fields of a query, in the order of `eachField`. -/
def eachField (q : Query) : List Field :=
  q.filter.elim [] filterFields ++ q.source.filter.elim [] filterFields ++ q.sort.map (·.field) ++
    q.groupBy.toList ++ (q.aggregate.getD []).filterMap (·.field)

def checkNodes (q : Query) : Except QueryError Unit :=
  if q.filter.elim 0 countNodes + q.source.filter.elim 0 countNodes > maxFilterNodes then
    .error ⟨.tooComplex, "Filtre trop complexe (plus de 64 conditions).".toList⟩
  else .ok ()

/-- The constructor of `FieldReader`: `seen` are the formulas compiled so far. -/
def checkFormulas : List Text → List Field → Except QueryError Unit
  | _, [] => .ok ()
  | seen, .stored _ :: fields => checkFormulas seen fields
  | seen, .formula src :: fields =>
    if VaultIndex.jsTrim src = [] then .error ⟨.invalidQuery, "formula : expression attendue.".toList⟩
    else if (src.flatMap Utf.utf16).length > formulaMaxLength then
      .error ⟨.tooComplex, "formula : 2000 caracteres au plus.".toList⟩
    else if src ∈ seen then checkFormulas seen fields
    else if seen.length ≥ queryMaxFormulas then
      .error ⟨.tooComplex, "Trop de formules (8 au plus).".toList⟩
    else match host.compile src with
      | .error message => .error ⟨.invalidQuery, "formula : ".toList ++ message⟩
      | .ok _ => checkFormulas (seen ++ [src]) fields

def AggregateOp.name : AggregateOp → Text
  | count => "count".toList
  | sum => "sum".toList
  | mean => "mean".toList
  | min => "min".toList
  | max => "max".toList

def checkAggregates (list : Option (List QueryAggregate)) : Except QueryError Unit :=
  match list with
  | none => .ok ()
  | some list =>
    if list.length > queryMaxAggregates then
      .error ⟨.tooComplex, "Trop d'agregats (32 au plus).".toList⟩
    else match list.find? fun a => a.op ≠ .count ∧ a.field = none with
      | some a => .error ⟨.invalidQuery, a.op.name ++ " : champ attendu.".toList⟩
      | none => .ok ()

/-- `folder.replace(/\/+$/, '') + '/'`, nothing for no folder. -/
def folderPrefix (folder : Option Text) : Text :=
  match folder with
  | none | some [] => []
  | some folder => folder.rdropWhile (· = '/') ++ ['/']

def normExts (ext : Option (List Text)) : Option (List Text) :=
  ext.map fun es => es.map fun e => match host.lower.apply e with
    | '.' :: rest => rest
    | e => e

def isNoteOf (d : IndexedDoc) (s : NoteSource) : Bool :=
  d.base.isNone && !VaultIndex.isTrashPath d.path &&
    (folderPrefix s.folder = [] || d.path.startsWith (folderPrefix s.folder)) &&
    (normExts host s.ext).all fun exts => exts.contains (VaultIndex.extOf host.lower d.path)

def sourceOf (q : Query) : Except QueryError (IndexedDoc → Bool) :=
  match q.source with
  | .notes s => .ok fun d => isNoteOf host d s
  | .base [] _ | .unknown => .error ⟨.invalidQuery, "Source inconnue.".toList⟩
  | .base id none => .ok fun d => d.base == some id
  | .base id (some pages) => .ok fun d => d.base == some id ||
      isNoteOf host d pages.toNoteSource && pages.filter.all fun f => matchesFilter host d.toEvalDoc f

/-- The rules of a query that do not depend on its page, in the order of their refusals. -/
def checkQuery (q : Query) : Except QueryError (IndexedDoc → Bool) := do
  checkNodes q
  checkFormulas host [] (eachField q)
  checkAggregates q.aggregate
  sourceOf host q

def encodeCursor (key : Text) (offset : Nat) : Text :=
  encodeOpaque host.toPageHost (.obj [("k".toList, .str key), ("o".toList, .num (offset : ℚ))])

def decodeCursor (cursor key : Text) : Except QueryError Nat :=
  let refused := .error ⟨.invalidCursor, "Ce curseur ne correspond pas a cette requete.".toList⟩
  match decodeOpaque host.toPageHost cursor with
  | none => refused
  | some c => match field "k".toList c, field "o".toList c with
    | some (.str k), some (.num o) => if k = key ∧ o.den = 1 ∧ 0 ≤ o then .ok o.num.toNat else refused
    | _, _ => refused

def startOf (q : Query) : Option Text → Except QueryError Nat
  | none | some [] => .ok 0
  | some cursor => decodeCursor host cursor q.key

/-- All the words of the query begin words of the document. -/
def hasTerms (own : List Text) (terms : List Text) : Bool :=
  terms.all fun t => own.any fun w => Text.startsWith w t

def rowOf (q : Query) (d : IndexedDoc) : QueryRow where
  id := d.id
  path := d.path
  title := d.title
  values := match q.select with
    | some keys => keys.eraseDups.filterMap fun k => (d.props.read host.toHost k).map (k, ·)
    | none => d.props.entries

/-- The answer to a query on its hits in order, from `start` on. -/
def answer (q : Query) (limit start : Nat) (hits : List IndexedDoc) : QueryResult :=
  let page := (hits.drop start).take limit
  let last := start + page.length
  { rows := page.map (rowOf host q)
    next := if last < hits.length then some (encodeCursor host q.key last) else none
    total := hits.length
    groups := q.groupBy.map (groupDocs host sorter hits)
    aggregates := q.aggregate.map fun as => as.map (aggregateDocs host hits) }

variable {host} in
def Engine.hits (e : Engine host) (inSource : IndexedDoc → Bool) (q : Query) : List IndexedDoc :=
  let terms := InMemory.words host (q.text.getD [])
  e.docs.filter fun d => inSource d && hasTerms ((e.words d.id).getD []) terms &&
    q.filter.all fun f => matchesFilter host d.toEvalDoc f

variable {host} in
def Engine.run (e : Engine host) (q : Query) (limit : Option Query.Num) (cursor : Option Text) :
    Except QueryError QueryResult := do
  let limit ← checkLimit limit
  let inSource ← checkQuery host q
  let hits := sortDocs host sorter (e.hits inSource q) q.sort
  let start ← startOf host q cursor
  return answer host sorter q limit start hits

end Query

end Definitions

end Savoire.InMemory
