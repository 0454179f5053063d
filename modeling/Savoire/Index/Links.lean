import Savoire.Index.Paths
import Savoire.Library.Pick
import Mathlib.Data.List.Lex
import Mathlib.Data.Prod.Lex
import Mathlib.Data.String.Basic

/-! The rows of the vault index that links resolve through, and the writes, removals and moves that
keep the resolved targets. -/
namespace Savoire.VaultIndex
open Pick
variable (lower : Lower)

inductive LinkKind
  | wiki | markdown
  deriving DecidableEq

structure LinkRef where
  target : Text
  kind : LinkKind
  deriving DecidableEq

structure NoteRecord where
  id : Text
  base : Option Text
  path : Text
  ext : Text
  aliases : List Text
  links : List LinkRef

structure LinkKeys where
  t : Text
  rel : Option Text
  n : Text
  deriving DecidableEq

def linkKeys (raw : Text) (kind : LinkKind) (sourcePath : Text) : Option LinkKeys :=
  let target := (jsTrim raw).map fun c => if c = '\\' then '/' else c
  if target = [] then none
  else
    let relative := Text.startsWith target "./".toList || Text.startsWith target "../".toList
    match normalizePath (stripDots target) with
    | none | some [] => none
    | some abs =>
      let rel := if relative || (kind == .markdown && !Text.startsWith target "/".toList) then
        resolveFrom (folderOf sourcePath) target else none
      let t := lower.apply abs
      let r := match rel.map lower.apply with
        | some (c :: cs) => if c :: cs = t then none else some (c :: cs)
        | _ => none
      some ⟨t, r, nameOf t⟩

/-- A row of `docs`; `keys` are its columns `name_key` to `full_key`. -/
structure DocRow where
  n : Nat
  id : Text
  base : Option Text
  path : Text
  ext : Text
  keys : DocKeys
  deriving DecidableEq

structure AliasRow where
  doc : Nat
  aliasKey : Text
  deriving DecidableEq

structure LinkRow where
  src : Nat
  pos : Nat
  raw : Text
  kind : LinkKind
  tKey : Text
  tRel : Option Text
  nKey : Text
  dst : Option Nat
  deriving DecidableEq

structure Index where
  docs : List DocRow
  aliases : List AliasRow
  links : List LinkRow
  nextN : Nat

def Index.empty : Index := ⟨[], [], [], 1⟩

/-- `pathColumns`, the keys of an empty path being empty. -/
def pathColumns (path : Text) : DocKeys :=
  if path = [] then ⟨[], [], [], []⟩ else docKeys lower path

def cString (s : Text) : Text := s.takeWhile (· ≠ '\x00')

/-- `length(s)`. -/
def sqlLength (s : Text) : Nat := (cString s).length

/-- `substr(s, -k)`. -/
def sqlSubstrEnd (s : Text) (k : Nat) : Text := (cString s).drop ((cString s).length - k)

/-- `SAME_NAME`: a note of the name that the link gives. -/
def sameName (l : LinkRow) (d : DocRow) : Bool :=
  d.base.isNone && (d.keys.nameKey == l.nKey || d.keys.nameFullKey == l.nKey)

/-- `BEST`: the `.md` first, then the shortest path, then alphabetical order. -/
def bestRank (d : DocRow) : Bool ×ₗ Nat ×ₗ Text ×ₗ Nat :=
  toLex (d.ext != "md".toList, toLex (sqlLength d.path, toLex (d.path, d.n)))

def aliasRank (d : DocRow) : Nat ×ₗ Text ×ₗ Nat :=
  toLex (sqlLength d.path, toLex (d.path, d.n))

def matchesRelative (l : LinkRow) (d : DocRow) : Bool :=
  sameName l d && match l.tRel with
    | none => false
    | some rel => d.keys.fullKey == rel || d.keys.pathKey == rel

def matchesPath (l : LinkRow) (d : DocRow) : Bool :=
  sameName l d && (d.keys.fullKey == l.tKey || d.keys.pathKey == l.tKey)

def matchesSuffix (l : LinkRow) (d : DocRow) : Bool :=
  sameName l d && (!l.tKey.contains '/' ||
    sqlSubstrEnd d.keys.fullKey (sqlLength l.tKey + 1) == '/' :: l.tKey ||
    sqlSubstrEnd d.keys.pathKey (sqlLength l.tKey + 1) == '/' :: l.tKey)

def matchesAlias (aliases : List AliasRow) (l : LinkRow) (d : DocRow) : Bool :=
  d.base.isNone && aliases.contains ⟨d.n, l.tKey⟩

/-- The target of a link among the documents and aliases: the `coalesce` of `resolveWhere`. -/
def resolve (docs : List DocRow) (aliases : List AliasRow) (l : LinkRow) : Option Nat :=
  firstOf [
    pick bestRank (·.n) (matchesRelative l) docs,
    pick bestRank (·.n) (matchesPath l) docs,
    pick bestRank (·.n) (matchesSuffix l) docs,
    pick aliasRank (·.n) (matchesAlias aliases l) docs]

def resolveWhere (scope : LinkRow → Bool) (s : Index) : Index :=
  { s with links := s.links.map fun l =>
      if scope l then { l with dst := resolve s.docs s.aliases l } else l }

/-- The links to look at again when document `n` changes, under its path and its aliases. -/
def around (n : Nat) (path : Text) (aliasKeys : List Text) (l : LinkRow) : Bool :=
  let k := docKeys lower path
  l.src == n || l.dst == some n || l.nKey == k.nameKey || l.nKey == k.nameFullKey ||
    aliasKeys.contains l.tKey

def resolveAround (n : Nat) (path : Text) (aliasKeys : List Text) : Index → Index :=
  resolveWhere (around lower n path aliasKeys)

/-- The rows of a note's links, from position `pos` on. -/
def linkRows (n : Nat) (path : Text) : Nat → List LinkRef → List LinkRow
  | _, [] => []
  | pos, l :: rest => match linkKeys lower l.target l.kind path with
    | none => linkRows n path (pos + 1) rest
    | some k => ⟨n, pos, l.target, l.kind, k.t, k.rel, k.n, none⟩ :: linkRows n path (pos + 1) rest

def aliasKeysOf (aliases : List Text) : List Text :=
  aliases.foldl (fun keys a => if lower.apply a ∈ keys then keys else keys ++ [lower.apply a]) []

/-- `remove` of the links power. -/
def removeLinks (n : Nat) (s : Index) : Index :=
  { s with
    links := s.links.filter fun l => !(l.src == n)
    aliases := s.aliases.filter fun a => !(a.doc == n) }

/-- `INSERT OR REPLACE`: the new row replaces those with its number or its id. -/
def upsertDoc (n : Nat) (note : NoteRecord) (s : Index) : Index :=
  { s with docs := s.docs.filter (fun d => !(d.n == n || d.id == note.id)) ++
      [⟨n, note.id, note.base, note.path, note.ext, pathColumns lower note.path⟩] }

/-- `write` of the links power: nothing for a row of a base. -/
def writeLinks (n : Nat) (note : NoteRecord) (s : Index) : Index :=
  match note.base with
  | some _ => s
  | none =>
    let aliasKeys := aliasKeysOf lower note.aliases
    resolveAround lower n note.path aliasKeys
      { s with
        aliases := s.aliases ++ aliasKeys.map (fun k => ⟨n, k⟩)
        links := s.links ++ linkRows lower n note.path 0 note.links }

/-- The rows that `lookup` finds: id, number, path and base of a document. -/
abbrev Existing := Text → Option DocRow

def lookup (s : Index) (ids : List Text) : Existing := fun id =>
  if id ∈ ids then s.docs.find? fun d => d.id == id else none

/-- `removal`: its links and aliases, its row, then the links that pointed at it. -/
def removal (n : Nat) (s : Index) : Index :=
  let s := removeLinks n s
  resolveWhere (fun l => l.dst == some n) { s with docs := s.docs.filter fun d => !(d.n == n) }

def removeIds : List Text → Existing × Index → Existing × Index
  | [], x => x
  | id :: ids, (existing, s) => match existing id with
    | none => removeIds ids (existing, s)
    | some doc => removeIds ids (Function.update existing id none, removal doc.n s)

/-- One record of a batch: the old rows go, the new ones come. -/
def writeRecord (note : NoteRecord) (x : Existing × Index) : Existing × Index :=
  let (existing, s) := x
  let old := existing note.id
  let s₁ := match old with
    | some doc => removeLinks doc.n s
    | none => s
  let n := match old with
    | some doc => doc.n
    | none => s.nextN
  let s₂ := match old with
    | some _ => s₁
    | none => { s₁ with nextN := s.nextN + 1 }
  let doc : DocRow := ⟨n, note.id, note.base, note.path, note.ext, pathColumns lower note.path⟩
  (Function.update existing note.id (some doc), writeLinks lower n note (upsertDoc lower n note s₂))

def writeRecords : List NoteRecord → Existing × Index → Existing × Index
  | [], x => x
  | note :: notes, x => writeRecords notes (writeRecord lower note x)

/-- `write`: the removals of a batch, then its records. -/
def write (records : List NoteRecord) (removals : List Text) (s : Index) : Index :=
  let existing := lookup s (records.map (·.id) ++ removals)
  (writeRecords lower records (removeIds removals (existing, s))).2

def kept (records : List NoteRecord) : List NoteRecord :=
  records.filter fun r => r.base.isSome || !isTrashPath r.path

def trashed (records : List NoteRecord) : List Text :=
  (records.filter fun r => r.base.isNone && isTrashPath r.path).map (·.id)

def applyRecords (records : List NoteRecord) (s : Index) : Index :=
  write lower (kept records) (trashed records) s

def removeDocs (ids : List Text) (s : Index) : Index := write lower [] ids s

/-- `move` of the links power: the keys of its links follow the new path. -/
def moveLinks (n : Nat) (path : Text) (s : Index) : Index :=
  let aliasKeys := (s.aliases.filter fun a => a.doc == n).map (·.aliasKey)
  resolveAround lower n path aliasKeys
    { s with links := s.links.filterMap fun l =>
        if l.src == n then
          (linkKeys lower l.raw l.kind path).map fun k =>
            { l with tKey := k.t, tRel := k.rel, nKey := k.n }
        else some l }

def moveDoc (id path : Text) (s : Index) : Index :=
  match s.docs.find? fun d => d.id == id with
  | none => s
  | some doc =>
    -- the row of a base, whose id is a non-empty text
    if doc.base.isSome && doc.base != some [] then s
    else if isTrashPath path || extOf lower path != extOf lower doc.path then removal doc.n s
    else if path = doc.path then s
    else moveLinks lower doc.n path
      { s with docs := s.docs.map fun d =>
          if d.n == doc.n then
            { d with path := path, ext := extOf lower path, keys := pathColumns lower path }
          else d }

/-- The operations on the index. -/
inductive Op
  | applyRecords (records : List NoteRecord)
  | removeDocs (ids : List Text)
  | moveDoc (id path : Text)

def step (s : Index) : Op → Option Index
  | .applyRecords records => some (applyRecords lower records s)
  | .removeDocs ids => some (removeDocs lower ids s)
  | .moveDoc id path => some (moveDoc lower id path s)

end Savoire.VaultIndex
