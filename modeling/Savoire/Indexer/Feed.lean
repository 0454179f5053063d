import Savoire.Access.Registry
import Savoire.Library.Utf

/-! The change feed of the indexer: the table with one row for each resource, the writers that move
a row to its end, and the reader that filters it for one instance. -/
namespace Savoire.Indexer
open Access Transition

namespace IndexerRouting

def fnvOffsetBasis : UInt64 := 0xcbf29ce484222325
def fnvPrime : UInt64 := 0x100000001b3

def fnv1a64 (text : Text) : UInt64 :=
  (text.flatMap Utf.utf8).foldl (fun h b => (h ^^^ UInt64.ofNat b) * fnvPrime) fnvOffsetBasis

def weight (instanceName vaultId : Text) : UInt64 := fnv1a64 (instanceName ++ '|' :: vaultId)

def ownerOf (vaultId : Text) (instances : List Text) : Option Text :=
  (instances.foldl (fun (best : Option Text × UInt64) name =>
    let w := weight name vaultId
    match best.1 with
    | none => (some name, w)
    | some b =>
      if best.2 < w ∨ (w = best.2 ∧ name.flatMap Utf.utf16 < b.flatMap Utf.utf16) then (some name, w)
      else best) (none, 0)).1

def isOwner (instanceName vaultId : Text) (instances : List Text) : Bool :=
  ownerOf vaultId instances == some instanceName

end IndexerRouting

inductive IndexerMode
  | managed
  | organization
  | none
  deriving DecidableEq

inductive IndexerChangeKind
  | vault
  | document
  | vaultDeleted
  | settings
  deriving DecidableEq

def IndexerChangeKind.toText : IndexerChangeKind → Text
  | .vault => "vault".toList
  | .document => "document".toList
  | .vaultDeleted => "vault-deleted".toList
  | .settings => "settings".toList

inductive CrdtResourceType
  | document
  | vault
  | room
  | index

structure IndexerChange where
  seq : Int
  vaultId : Text
  kind : IndexerChangeKind
  docId : Option Text
  deriving DecidableEq

structure IndexerChangeEntity where
  resourceKey : Text
  change : IndexerChange
  deriving DecidableEq

def resourceKey (kind : IndexerChangeKind) (id : Text) : Text := kind.toText ++ ':' :: id

/-- The tables that the feed reads and writes. `sequence` is the greatest number ever attributed;
`committed` and `purges` record what happened: every change, and those that removed the rows of
their vault. -/
structure Feed where
  store : Store
  rows : List IndexerChangeEntity
  sequence : Int
  committed : List IndexerChange
  purges : List IndexerChange

namespace IndexerChangeWriter

def replaceAsync (f : Feed) (key : Text) (change : IndexerChange) : Feed :=
  { f with
    rows := f.rows.filter (·.resourceKey ≠ key) ++ [⟨key, change⟩]
    sequence := change.seq
    committed := f.committed ++ [change] }

/-- The vault of a settings channel that the indexer reads: `index:{vaultId}:settings/properties`. -/
def settingsVaultOf (resourceId : Text) : Option Text :=
  if Text.startsWith resourceId "index:".toList then
    let rest := resourceId.drop 6
    let sep := rest.idxOf ':'
    if sep = 0 ∨ rest.length ≤ sep then none
    else if rest.drop (sep + 1) = "settings/properties".toList then some (rest.take sep)
    else none
  else none

def recordVaultAsync (f : Feed) (seq : Int) (vaultId : Text) : Feed :=
  replaceAsync f (resourceKey .vault vaultId) ⟨seq, vaultId, .vault, none⟩

/-- A write into the operation log, in its transaction; `seq` is the number it gets if it writes a
row. -/
def recordOperationAsync (f : Feed) (seq : Int) (resourceType : CrdtResourceType) (resourceId : Text) : Feed :=
  match resourceType with
  | .vault =>
    if Text.startsWith resourceId "vault:".toList then recordVaultAsync f seq (resourceId.drop 6) else f
  | .document | .room => match Access.IndexerChangeWriter.docVault f.store.vaultDocuments resourceId with
    | none => f
    | some v => replaceAsync f (resourceKey .document resourceId) ⟨seq, v, .document, some resourceId⟩
  | .index => match settingsVaultOf resourceId with
    | none => f
    | some v => replaceAsync f (resourceKey .settings v) ⟨seq, v, .settings, none⟩

def recordVaultGoneAsync (f : Feed) (seq : Int) (vaultId : Text) (purgeRows : Bool) : Feed :=
  let gone : IndexerChange := ⟨seq, vaultId, .vaultDeleted, none⟩
  let f := replaceAsync f (resourceKey .vaultDeleted vaultId) gone
  if purgeRows then
    { f with
      rows := f.rows.filter fun r => !(r.change.vaultId == vaultId && r.change.kind != .vaultDeleted)
      purges := f.purges ++ [gone] }
  else f

end IndexerChangeWriter

/-- `DeleteAsync`: the rows of the feed, then the vault with its members and its documents. -/
def Vaults.deleteAsync (f : Feed) (seq : Int) (vaultId : Text) : Feed :=
  let f := IndexerChangeWriter.recordVaultGoneAsync f seq vaultId true
  { f with store := { f.store with
      vaults := f.store.vaults.filter (·.id ≠ vaultId)
      members := f.store.members.filter (·.vaultId ≠ vaultId)
      vaultDocuments := f.store.vaultDocuments.filter (·.vaultId ≠ vaultId) } }

/-- `GetSinceAsync` -/
def getSinceAsync (rows : List IndexerChangeEntity) (since : Int) (max : Nat) : List IndexerChange :=
  (((rows.map (·.change)).filter (since < ·.seq)).insertionSort (·.seq ≤ ·.seq)).take max

structure Scope where
  name : Text
  instances : List Text
  settings : Text → IndexerMode

def Scope.inScope (sc : Scope) (c : IndexerChange) : Bool :=
  (c.kind == .vaultDeleted || sc.settings c.vaultId == .managed) &&
    IndexerRouting.isOwner sc.name c.vaultId sc.instances

/-- A call in progress; `since` is its argument. -/
structure Reading where
  since : Int
  limit : Nat
  last : Int
  result : List IndexerChange
  scanned : Nat

namespace GetIndexerChanges

def defaultLimit : Int := 500
def maxLimit : Int := 2000
def batchSize : Nat := 500
def maxScanned : Nat := 20000

def start (since : Int) (limit : Option Int) : Reading where
  since := since
  limit := (max 1 (min (limit.getD defaultLimit) maxLimit)).toNat
  last := max 0 since
  result := []
  scanned := 0

def examine (sc : Scope) (r : Reading) : List IndexerChange → Reading
  | [] => r
  | change :: batch =>
    let r' : Reading := { r with
      last := change.seq
      scanned := r.scanned + 1
      result := if sc.inScope change then r.result ++ [change] else r.result }
    if r'.result.length = r'.limit then r' else examine sc r' batch

/-- One turn of the loop, and whether there is a next one. -/
def turn (sc : Scope) (rows : List IndexerChangeEntity) (r : Reading) : Reading × Bool :=
  let batch := getSinceAsync rows r.last batchSize
  if batch.length = 0 then (r, false)
  else
    let r' := examine sc r batch
    if batch.length < batchSize then (r', false)
    else (r', decide (r'.result.length < r'.limit ∧ r'.scanned < maxScanned))

end GetIndexerChanges

/-- The feed, and an instance that passes the returned `last` back. `delivered` holds the changes of
all answers, `calls` counts them. -/
structure State extends Feed where
  cursor : Int
  reading : Option Reading
  delivered : List IndexerChange
  calls : Nat

inductive Event
  | operation (seq : Int) (resourceType : CrdtResourceType) (resourceId : Text)
  | vaultEnters (seq : Int) (vaultId : Text)
  | vaultLeaves (seq : Int) (vaultId : Text)
  | vaultDeleted (seq : Int) (vaultId : Text)
  | register (vaultId : Text) (docIds : List Text)
  | call (limit : Option Int)
  | batch

def State.setFeed (s : State) (f : Feed) : State := { s with toFeed := f }

def step (sc : Scope) (s : State) : Event → Option State
  | .operation seq type id =>
    if s.sequence < seq then some (s.setFeed (IndexerChangeWriter.recordOperationAsync s.toFeed seq type id)) else none
  | .vaultEnters seq v =>
    if s.sequence < seq then some (s.setFeed (IndexerChangeWriter.recordVaultAsync s.toFeed seq v)) else none
  | .vaultLeaves seq v =>
    if s.sequence < seq then some (s.setFeed (IndexerChangeWriter.recordVaultGoneAsync s.toFeed seq v false)) else none
  | .vaultDeleted seq v =>
    if s.sequence < seq then some (s.setFeed (Vaults.deleteAsync s.toFeed seq v)) else none
  | .register v docIds => some { s with store := (VaultDocuments.registerAsync s.store v docIds).1 }
  | .call limit => match s.reading with
    | some _ => none
    | none => some { s with reading := some (GetIndexerChanges.start s.cursor limit) }
  | .batch => match s.reading with
    | none => none
    | some r => match GetIndexerChanges.turn sc s.rows r with
      | (r', true) => some { s with reading := some r' }
      | (r', false) => some { s with
          reading := none, cursor := r'.last, delivered := s.delivered ++ r'.result, calls := s.calls + 1 }

def init : State where
  store := emptyStore
  rows := []
  sequence := 0
  committed := []
  purges := []
  cursor := 0
  reading := none
  delivered := []
  calls := 0

end Savoire.Indexer
