import Savoire.Library.Forest
import Savoire.Library.Json
import Savoire.Query.Compare

/-! The shared model of a mind map: flat nodes that name their parents, repaired into a tree at
each reading. -/
namespace Savoire.MindMap
open Forest
open Query (textLt cmpText sortTexts)

abbrev JsonValue := Json.Value ℚ

abbrev JsonObject := List (Text × JsonValue)

structure FlatNode where
  id : Text
  parent : Option Text
  order : Text
  topic : Text
  props : JsonObject

/-- The nodes are a `Map` by their ids, in any order. -/
structure FlatModel where
  nodes : List FlatNode
  arrows : List (Text × JsonObject)
  summaries : List (Text × JsonObject)
  ids : (nodes.map (·.id)).Nodup

section Resolve
variable (nodes : List FlatNode)

def get (id : Text) : Option FlatNode := nodes.find? (·.id = id)

def named (id : Text) : Option Text := (get nodes id).bind (·.parent)

def sortedIds : List Text := sortTexts (nodes.map (·.id))

/-- The root without parent of least id, else the node of least id. -/
def rootOf : Text :=
  ((sortedIds nodes).filter fun id => named nodes id = none).headD ((sortedIds nodes).headD [])

/-- The parents before the cycles are broken: a root too many, an orphan and a node that is its own
parent go under the root. -/
def firstParents (id : Text) : Option Text :=
  if id ∉ nodes.map (·.id) ∨ id = rootOf nodes then none
  else match named nodes id with
    | none => some (rootOf nodes)
    | some p => if p = id ∨ p ∉ nodes.map (·.id) then some (rootOf nodes) else some p

/-- The maps of `resolveParents` and the nodes that are known to lead to the root. -/
structure Repair where
  parentOf : Text → Option Text
  childrenOf : Text → List Text
  reached : List Text

def firstRepair : Repair where
  parentOf := firstParents nodes
  childrenOf p := (sortedIds nodes).filter fun id => firstParents nodes id = some p
  reached := search (fun p => (sortedIds nodes).filter fun id => firstParents nodes id = some p)
    (sortedIds nodes).length [rootOf nodes] [rootOf nodes]

def breakCycle (s : Repair) (id : Text) : Repair :=
  if id ∈ s.reached then s
  else
    let next := fun x => (s.parentOf x).getD x
    let (path, cur) := walk next s.reached ((sortedIds nodes).length + 1) [] id
    if cur ∈ s.reached then s
    else
      let cycle := path.drop (path.idxOf cur)
      let breakAt := (sortTexts cycle).headD cur
      let old := next breakAt
      let detached := Function.update s.childrenOf old ((s.childrenOf old).filter (· ≠ breakAt))
      let childrenOf := Function.update detached (rootOf nodes) (detached (rootOf nodes) ++ [breakAt])
      { parentOf := Function.update s.parentOf breakAt (some (rootOf nodes))
        childrenOf := childrenOf
        reached := search childrenOf (sortedIds nodes).length (s.reached ++ [breakAt]) [breakAt] }

def repair : Repair := (sortedIds nodes).foldl (breakCycle nodes) (firstRepair nodes)

structure Resolved where
  rootId : Text
  parentOf : Text → Option Text

def resolveParents : Option Resolved :=
  if nodes = [] then none else some ⟨rootOf nodes, (repair nodes).parentOf⟩

end Resolve

/-- A node of mind-elixir without its children. -/
structure NodeObj where
  id : Text
  topic : Text
  props : JsonObject
  /-- `expanded: false`. -/
  folded : Bool

def compareSiblings (a b : FlatNode) : Ordering :=
  if a.order ≠ b.order then (if textLt a.order b.order then .lt else .gt) else cmpText a.id b.id

/-- The children of a node, in their order. -/
def kidsOf (nodes : List FlatNode) (parentOf : Text → Option Text) (p : Text) : List Text :=
  (StableSort.sort compareSiblings
    (((sortedIds nodes).filter fun id => parentOf id = some p).filterMap (get nodes))).map (·.id)

def nodeObj (nodes : List FlatNode) (collapsed : Text → Bool) (kids : Text → List Text) (id : Text) : NodeObj :=
  match get nodes id with
  | some n => ⟨n.id, n.topic, n.props, collapsed id && kids id ≠ []⟩
  | none => ⟨id, [], [], false⟩

/-- `{ ...o, [key]: value }` -/
def setField (key : Text) (value : JsonValue) : JsonObject → JsonObject
  | [] => [(key, value)]
  | (k, v) :: rest => if k = key then (key, value) :: rest else (k, v) :: setField key value rest

def keyed (entries : List (Text × JsonObject)) : List JsonObject :=
  (StableSort.sort (fun a b => cmpText a.1 b.1) entries).map fun e => setField "id".toList (.str e.1) e.2

def names (nodes : List FlatNode) : Option JsonValue → Bool
  | some (.str s) => (get nodes s).isSome
  | _ => false

def arrowsOf (m : FlatModel) : List JsonObject :=
  (keyed m.arrows).filter fun a =>
    names m.nodes (a.lookup "from".toList) && names m.nodes (a.lookup "to".toList)

/-- A position among `count` siblings. -/
def clamp (count : Nat) : Option JsonValue → ℚ
  | some (.num x) => max 0 (min ((count : ℚ) - 1) x)
  | _ => 0

/-- The summaries of siblings that exist, within their bounds. -/
def summariesOf (m : FlatModel) (r : Resolved) (kids : Text → List Text) : List JsonObject :=
  (keyed m.summaries).flatMap fun s =>
    match s.lookup "parent".toList with
    | some (.str p) =>
      let count := if p = r.rootId ∨ (r.parentOf p).isSome then (kids p).length else 0
      if count = 0 then []
      else
        let start := clamp count (s.lookup "start".toList)
        let stop := max start (clamp count (s.lookup "end".toList))
        [setField "end".toList (.num stop) (setField "start".toList (.num start) s)]
    | _ => []

structure MindElixirData where
  nodeData : Forest.Tree NodeObj
  arrows : List JsonObject
  summaries : List JsonObject

def materialize (m : FlatModel) (collapsed : Text → Bool) : Option MindElixirData :=
  (resolveParents m.nodes).map fun r =>
    let kids := kidsOf m.nodes r.parentOf
    { nodeData := build (nodeObj m.nodes collapsed kids) kids m.nodes.length r.rootId
      arrows := arrowsOf m
      summaries := summariesOf m r kids }

end Savoire.MindMap
