import Savoire.Library.Entries
import Savoire.Library.Json
import Savoire.Query.Value

/-! The shared tree in memory: its nodes, the operations of a transaction and the changes that the
transaction tells its observers. -/
namespace Savoire.SharedTree

abbrev JsonValue := Json.Value Query.Num

/-- `root`, or `m1:7` for the seventh node that the first tree makes. -/
inductive Id
  | root
  | made (tree n : Nat)
  deriving DecidableEq

inductive TreePrimitive
  | null
  | bool (b : Bool)
  | num (x : Query.Num)
  | str (s : Text)
  deriving DecidableEq

inductive TreeValue
  | prim (p : TreePrimitive)
  | node (id : Id)
  deriving DecidableEq

mutual
/-- `JSON.parse(JSON.stringify(v))`: a number that is not finite is written null. -/
def clone : JsonValue → JsonValue
  | .num x => if x.isFinite then .num x else .null
  | .arr items => .arr (cloneItems items)
  | .obj fields => .obj (cloneFields fields)
  | v => v

def cloneItems : List JsonValue → List JsonValue
  | [] => []
  | v :: vs => clone v :: cloneItems vs

def cloneFields : List (Text × JsonValue) → List (Text × JsonValue)
  | [] => []
  | (k, v) :: fields => (k, clone v) :: cloneFields fields
end

abbrev TextAttributes := List (Text × JsonValue)

inductive RichTextDeltaOp
  | retain (n : Int) (attributes : Option TextAttributes)
  | insert (text : List Nat) (attributes : Option TextAttributes)
  | delete (n : Int)

abbrev RichTextDelta := List RichTextDeltaOp

def RichTextDeltaOp.clone : RichTextDeltaOp → RichTextDeltaOp
  | retain n attributes => retain n (attributes.map cloneFields)
  | insert text attributes => insert text (attributes.map cloneFields)
  | delete n => delete n

/-- A UTF-16 unit with its attributes. -/
structure RichChar where
  ch : Nat
  attrs : TextAttributes

def mergeAttrs (base patch : TextAttributes) : TextAttributes :=
  patch.foldl (fun out e => match e.2 with
    | .null => Entries.erase e.1 out
    | v => Entries.set e.1 (SharedTree.clone v) out) base

/-- What a delta makes of the characters from its position on. Of no characters, a negative retain
takes none. -/
def applyRich : List RichChar → RichTextDelta → List RichChar
  | chars, [] => chars
  | chars, .retain n attributes :: delta =>
    (chars.take n.toNat).map (fun c => match attributes with
      | some attributes => { c with attrs := mergeAttrs c.attrs attributes }
      | none => c) ++ applyRich (chars.drop n.toNat) delta
  | chars, .delete n :: delta => applyRich (chars.drop n.toNat) delta
  | chars, .insert text attributes :: delta =>
    text.map (fun ch => { ch, attrs := mergeAttrs [] (attributes.getD []) }) ++ applyRich chars delta

def compact (delta : RichTextDelta) : RichTextDelta :=
  delta.filter fun
    | .retain n _ => 0 < n
    | .delete n => 0 < n
    | .insert text _ => text ≠ []

inductive Child (ι : Type)
  | text (id : ι) (delta : RichTextDelta)
  | element (id : ι) (name : Text) (attributes : List (Text × JsonValue)) (children : List (Child ι))

inductive Shape (ι : Type)
  | prim (p : TreePrimitive)
  | map (id : ι) (entries : List (Text × Shape ι))
  | list (id : ι) (items : List (Shape ι))
  | child (c : Child ι)

abbrev TreeElementChildInit := Child Unit
abbrev TreeValueInit := Shape Unit
abbrev Snap := Shape Id

section Snap
variable (tree : Nat)

mutual
def snapChild : TreeElementChildInit → Nat → Child Id × Nat
  | .text _ delta, n => (.text (.made tree (n + 1)) (delta.map RichTextDeltaOp.clone), n + 1)
  | .element _ name attributes children, n =>
    let (snaps, n') := snapChildren children (n + 1)
    (.element (.made tree (n + 1)) name (cloneFields attributes) snaps, n')

def snapChildren : List TreeElementChildInit → Nat → List (Child Id) × Nat
  | [], n => ([], n)
  | c :: cs, n =>
    let (s, n') := snapChild c n
    let (ss, n'') := snapChildren cs n'
    (s :: ss, n'')
end

mutual
def snap : TreeValueInit → Nat → Snap × Nat
  | .prim p, n => (.prim p, n)
  | .map _ entries, n =>
    let (snaps, n') := snapEntries entries (n + 1)
    (.map (.made tree (n + 1)) snaps, n')
  | .list _ items, n =>
    let (snaps, n') := snapItems items (n + 1)
    (.list (.made tree (n + 1)) snaps, n')
  | .child c, n =>
    let (s, n') := snapChild tree c n
    (.child s, n')

def snapEntries : List (Text × TreeValueInit) → Nat → List (Text × Snap) × Nat
  | [], n => ([], n)
  | (k, v) :: rest, n =>
    let (s, n') := snap v n
    let (ss, n'') := snapEntries rest n'
    ((k, s) :: ss, n'')

def snapItems : List TreeValueInit → Nat → List Snap × Nat
  | [], n => ([], n)
  | v :: rest, n =>
    let (s, n') := snap v n
    let (ss, n'') := snapItems rest n'
    (s :: ss, n'')
end

end Snap

inductive Content
  | map (entries : List (Text × TreeValue))
  | list (items : List TreeValue)
  | text (chars : List RichChar)
  | element (name : Text) (attrs : List (Text × JsonValue)) (items : List TreeValue)

structure MemNode where
  id : Id
  parent : Option Id
  removed : Bool
  content : Content

/-- The nodes that have been made, the newest first. -/
abbrev Nodes := List MemNode

def nodeOf (nodes : Nodes) (id : Id) : Option MemNode := nodes.find? (·.id = id)

/-- A node or one above it has been removed. What is above a node is older. -/
def deleted : Nodes → Id → Bool
  | [], _ => false
  | n :: nodes, id =>
    if n.id = id then n.removed || (match n.parent with
      | some p => deleted nodes p
      | none => false)
    else deleted nodes id

def setContent (id : Id) (content : Content) (nodes : Nodes) : Nodes :=
  nodes.map fun n => if n.id = id then { n with content } else n

def dropValues (values : List TreeValue) (nodes : Nodes) : Nodes :=
  nodes.map fun n => if .node n.id ∈ values then { n with removed := true } else n

def Child.id : Child Id → Id
  | .text id _ => id
  | .element id .. => id

def Shape.value : Snap → TreeValue
  | .prim p => .prim p
  | .map id _ => .node id
  | .list id _ => .node id
  | .child c => .node c.id

mutual
def buildChild (parent : Id) : Child Id → Nodes
  | .text id delta => [⟨id, some parent, false, .text (applyRich [] delta)⟩]
  | .element id name attributes children =>
    buildChildren id children ++
      [⟨id, some parent, false, .element name attributes (children.map fun c => .node c.id)⟩]

def buildChildren (parent : Id) : List (Child Id) → Nodes
  | [] => []
  | c :: cs => buildChildren parent cs ++ buildChild parent c
end

mutual
def build (parent : Id) : Snap → Nodes
  | .prim _ => []
  | .map id entries =>
    buildEntries id entries ++
      [⟨id, some parent, false,
        .map (entries.foldl (fun out e => Entries.set e.1 e.2.value out) [])⟩]
  | .list id items => buildItems id items ++ [⟨id, some parent, false, .list (items.map (·.value))⟩]
  | .child c => buildChild parent c

def buildEntries (parent : Id) : List (Text × Snap) → Nodes
  | [] => []
  | (_, v) :: rest => buildEntries parent rest ++ build parent v

def buildItems (parent : Id) : List Snap → Nodes
  | [] => []
  | v :: rest => buildItems parent rest ++ build parent v
end

inductive Op
  | mapSet (id : Id) (key : Text) (value : Snap)
  | mapDel (id : Id) (key : Text)
  | listIns (id : Id) (index : Nat) (values : List Snap)
  | listDel (id : Id) (index : Int) (length : Nat)
  | text (id : Id) (delta : RichTextDelta)
  | attr (id : Id) (key : Text) (value : Option JsonValue)

def Op.id : Op → Id
  | mapSet id .. | mapDel id .. | listIns id .. | listDel id .. | text id .. | attr id .. => id

inductive ListDeltaOp
  | retain (n : Nat)
  | insert (values : List TreeValue)
  | delete (n : Nat)

abbrev ListDelta := List ListDeltaOp

inductive TreeChange
  | map (target : Id) (keys : List Text)
  | list (target : Id) (delta : ListDelta)
  | text (target : Id) (delta : RichTextDelta)
  | element (target : Id) (attributes : List Text) (children : ListDelta)

/-- What an operation makes of a node: what it holds then, the values that it drops, the nodes that
it creates and the change that it tells. -/
structure Effect where
  content : Content
  dropped : List TreeValue
  created : Nodes
  change : Option TreeChange

def retained (n : Nat) : ListDelta := if 0 < n then [.retain n] else []

/-- The first of the elements that `splice(index, …)` removes. -/
def spliceStart (length : Nat) (index : Int) : Nat :=
  if index < 0 then (length + index).toNat else min index.toNat length

def applySeq (items : List TreeValue) : Op → Option (List TreeValue × List TreeValue × Nodes × Option ListDelta)
  | .listIns id index values =>
    some (items.take index ++ values.map (·.value) ++ items.drop index, [], buildItems id values,
      some (retained index ++ [.insert (values.map (·.value))]))
  | .listDel _ index length =>
    let start := spliceStart items.length index
    let removed := (items.drop start).take length
    some (items.take start ++ items.drop (start + length), removed, [],
      if removed = [] then none else some (retained index.toNat ++ [.delete removed.length]))
  | _ => none

def applyOp (op : Op) : Content → Option Effect
  | .map entries => match op with
    | .mapSet id key value => some ⟨.map (Entries.set key value.value entries), (entries.lookup key).toList,
        build id value, some (.map id [key])⟩
    | .mapDel id key => some ⟨.map (Entries.erase key entries), (entries.lookup key).toList, [],
        some (.map id [key])⟩
    | _ => none
  | .list items => (applySeq items op).map fun (items, dropped, created, delta) =>
      ⟨.list items, dropped, created, delta.map (.list op.id)⟩
  | .text chars => match op with
    | .text id delta => some ⟨.text (applyRich chars delta), [], [], some (.text id delta)⟩
    | _ => none
  | .element name attrs items => match op with
    | .attr id key none => some ⟨.element name (Entries.erase key attrs) items, [], [],
        some (.element id [key] [])⟩
    | .attr id key (some value) => some ⟨.element name (Entries.set key value attrs) items, [], [],
        some (.element id [key] [])⟩
    | _ => (applySeq items op).map fun (items, dropped, created, delta) =>
        ⟨.element name attrs items, dropped, created, delta.map (.element op.id [])⟩

/-- The origin of a transaction is kept by whoever runs it: only a local one keeps its operations. -/
structure Tx where
  ops : List Op
  changes : List TreeChange
  created : List Id

def Tx.empty : Tx := ⟨[], [], []⟩

/-- The change of a node that was not made in this transaction. -/
def record (nodes : Nodes) (id : Id) (created : List Id) : Option TreeChange → List TreeChange
  | some change => if id ∈ created ∨ deleted nodes id then [] else [change]
  | none => []

/-- `this.nodes.get(op.id)?.applyOp(op, tx)` -/
def applyTo (nodes : Nodes) (tx : Tx) (op : Op) : Nodes × Tx :=
  match (nodeOf nodes op.id).bind fun n => applyOp op n.content with
  | none => (nodes, tx)
  | some e =>
    let nodes' := e.created ++ setContent op.id e.content (dropValues e.dropped nodes)
    let created := tx.created ++ e.created.map (·.id)
    (nodes', { tx with created, changes := tx.changes ++ record nodes' op.id created e.change })

structure MemTree where
  inst : Nat
  counter : Nat
  nodes : Nodes

/-- The methods of the handles that write. -/
inductive Call
  | set (id : Id) (key : Text) (value : TreeValueInit)
  | deleteKey (id : Id) (key : Text)
  | insert (id : Id) (index : Int) (values : List TreeValueInit)
  | insertChildren (id : Id) (index : Int) (children : List TreeElementChildInit)
  | delete (id : Id) (index length : Int)
  | setAttribute (id : Id) (name : Text) (value : JsonValue)
  | removeAttribute (id : Id) (name : Text)
  | insertText (id : Id) (index : Int) (text : List Nat) (attributes : Option TextAttributes)
  | deleteText (id : Id) (index length : Int)
  | format (id : Id) (index length : Int) (attributes : TextAttributes)
  | applyDelta (id : Id) (delta : RichTextDelta)

def handle (nodes : Nodes) (id : Id) : Option Content :=
  if deleted nodes id then none else (nodeOf nodes id).map (·.content)

def clampIndex (length : Nat) (index : Int) : Nat := (max 0 (min index length)).toNat

def insertSnaps (nodes : Nodes) (id : Id) (index : Int) (values : List Snap) : Option Op :=
  if values = [] then none
  else match handle nodes id with
    | some (.list items) | some (.element _ _ items) => some (.listIns id (clampIndex items.length index) values)
    | _ => none

def textOp (nodes : Nodes) (id : Id) (delta : RichTextDelta) : Option Op :=
  let d := compact (delta.map RichTextDeltaOp.clone)
  match handle nodes id with
  | some (.text _) => if d = [] then none else some (.text id d)
  | _ => none

def operation (t : MemTree) : Call → Option Op × Nat
  | .set id key value =>
    let (s, n) := snap t.inst value t.counter
    (match handle t.nodes id with
      | some (.map _) => some (.mapSet id key s)
      | _ => none, n)
  | .deleteKey id key =>
    (match handle t.nodes id with
      | some (.map entries) => if (entries.lookup key).isSome then some (.mapDel id key) else none
      | _ => none, t.counter)
  | .insert id index values =>
    let (snaps, n) := snapItems t.inst values t.counter
    (insertSnaps t.nodes id index snaps, n)
  | .insertChildren id index children =>
    let (snaps, n) := snapChildren t.inst children t.counter
    (insertSnaps t.nodes id index (snaps.map .child), n)
  | .delete id index length =>
    (if length ≤ 0 then none
      else match handle t.nodes id with
        | some (.list _) | some (.element ..) => some (.listDel id index length.toNat)
        | _ => none, t.counter)
  | .setAttribute id name value =>
    (match handle t.nodes id with
      | some (.element ..) => some (.attr id name (some (clone value)))
      | _ => none, t.counter)
  | .removeAttribute id name =>
    (match handle t.nodes id with
      | some (.element _ attrs _) => if (attrs.lookup name).isSome then some (.attr id name none) else none
      | _ => none, t.counter)
  | .insertText id index text attributes =>
    (if text = [] then none else textOp t.nodes id [.retain index none, .insert text attributes], t.counter)
  | .deleteText id index length =>
    (if length ≤ 0 then none else textOp t.nodes id [.retain index none, .delete length], t.counter)
  | .format id index length attributes =>
    (if length ≤ 0 then none else textOp t.nodes id [.retain index none, .retain length (some attributes)],
      t.counter)
  | .applyDelta id delta => (textOp t.nodes id delta, t.counter)

def perform (s : MemTree × Tx) (call : Call) : MemTree × Tx :=
  match operation s.1 call with
  | (none, n) => ({ s.1 with counter := n }, s.2)
  | (some op, n) =>
    let (nodes, tx) := applyTo s.1.nodes { s.2 with ops := s.2.ops ++ [op] } op
    ({ s.1 with counter := n, nodes }, tx)

def transact (t : MemTree) (calls : List Call) : MemTree × Tx := calls.foldl perform (t, .empty)

def TreePrimitive.clone : TreePrimitive → TreePrimitive
  | num x => if x.isFinite then num x else null
  | p => p

mutual
def Child.clone : Child Id → Child Id
  | .text id delta => .text id (delta.map RichTextDeltaOp.clone)
  | .element id name attributes children => .element id name (cloneFields attributes) (Child.cloneAll children)

def Child.cloneAll : List (Child Id) → List (Child Id)
  | [] => []
  | c :: cs => c.clone :: Child.cloneAll cs
end

mutual
def Shape.clone : Snap → Snap
  | .prim p => .prim p.clone
  | .map id entries => .map id (Shape.cloneEntries entries)
  | .list id items => .list id (Shape.cloneItems items)
  | .child c => .child c.clone

def Shape.cloneEntries : List (Text × Snap) → List (Text × Snap)
  | [] => []
  | (k, v) :: rest => (k, v.clone) :: Shape.cloneEntries rest

def Shape.cloneItems : List Snap → List Snap
  | [] => []
  | v :: rest => v.clone :: Shape.cloneItems rest
end

def Op.clone : Op → Op
  | mapSet id key value => mapSet id key value.clone
  | listIns id index values => listIns id index (Shape.cloneItems values)
  | text id delta => text id (delta.map RichTextDeltaOp.clone)
  | attr id key value => attr id key (value.map SharedTree.clone)
  | op => op

/-- The operations of the other member, in one remote transaction. -/
def receive (t : MemTree) (ops : List Op) : MemTree × Tx :=
  let (nodes, tx) := (ops.map Op.clone).foldl (fun s op => applyTo s.1 s.2 op) (t.nodes, .empty)
  ({ t with nodes }, tx)

inductive Copy
  | prim (p : TreePrimitive)
  | map (entries : List (Text × Copy))
  | list (items : List Copy)
  | text (units : List Nat)
  | element (name : Text) (attributes : List (Text × JsonValue)) (children : List Copy)

def copyOf (copies : Id → Copy) : Content → Copy
  | .map entries => .map (entries.map fun e => (e.1, valueCopy e.2))
  | .list items => .list (items.map valueCopy)
  | .text chars => .text (chars.map (·.ch))
  | .element name attrs items => .element name (cloneFields attrs) (items.map valueCopy)
where
  valueCopy : TreeValue → Copy
    | .prim p => .prim p
    | .node id => copies id

/-- The copies of all nodes: those of the newest first, as what a node holds is newer than the node. -/
def copies (nodes : Nodes) : Id → Copy :=
  nodes.foldl (fun table n => Function.update table n.id (copyOf table n.content)) fun _ => .prim .null

def toJSON (t : MemTree) : Copy := copies t.nodes .root

end Savoire.SharedTree
