import Savoire.Index.Resolution
import Savoire.Query.Value

/-! The tables that hold a document: its row of `docs` with the title and the folder, its links and
aliases, its words for the search and its sections. A note is read by the extraction; a move patches
the rows of each table. -/
namespace Savoire.VaultIndex
open Query (Scalar PropertyValue Record foldText)

structure Section where
  heading : Option (Text × Nat)
  text : Text
  deriving DecidableEq

/-- What the reader of Markdown and of the frontmatter finds in a content: the properties, brought to
their declared types, and the parts of the text. -/
structure Parts where
  props : Record
  h1 : Option Text
  sections : List Section
  links : List LinkRef

/-- `parts true` reads the frontmatter, `parts false` takes all for text. -/
structure IndexHost extends Query.Host where
  isWordChar : Char → Bool
  parts : Bool → Text → Parts

structure NoteInput where
  id : Text
  path : Text
  content : Text
  frontmatter : Option Bool
  created : Option Text
  modified : Option Text

inductive TitleSource
  | frontmatter | heading | name | given
  deriving DecidableEq

/-- A note as the extraction reads it; `NoteRecord` is what the links look at. -/
structure ExtractedNote extends NoteRecord where
  folder : Text
  title : Text
  titleSource : TitleSource
  props : Record
  sections : List Section
  created : Option Text
  modified : Option Text

section Extract
variable (host : IndexHost)

def stringList : Option PropertyValue → List Text
  | some (.list xs) => xs.map fun x => x.str host.toHost
  | some (.scalar (.text s)) => [s]
  | some (.scalar (.num x)) => [host.numText x]
  | _ => []

def frontmatterAliases (props : Record) : List Text :=
  ((stringList host (props.own "aliases".toList) ++ stringList host (props.own "alias".toList)).map jsTrim).filter
    (· ≠ [])

def frontmatterTitle (props : Record) : Option Text :=
  match props.own "title".toList with
  | some (.scalar (.text s)) => if jsTrim s = [] then none else some (jsTrim s)
  | some (.scalar (.num x)) => some (host.numText x)
  | _ => none

def distinctFold (list : List Text) : List Text :=
  list.foldl (fun out s => if host.lower.apply s ∈ out.map host.lower.apply then out else out ++ [s]) []

def extractNote (input : NoteInput) : ExtractedNote :=
  let ext := extOf host.lower input.path
  let useFrontmatter := input.frontmatter.getD (ext == "md".toList)
  let parts := host.parts useFrontmatter input.content
  let fmTitle := frontmatterTitle host parts.props
  { id := input.id
    base := none
    path := input.path
    ext
    aliases := distinctFold host (frontmatterAliases host parts.props)
    links := parts.links
    folder := folderOf input.path
    title := (fmTitle.or parts.h1).getD (stemOf input.path)
    titleSource := if fmTitle.isSome then .frontmatter else if parts.h1.isSome then .heading else .name
    props := parts.props
    sections := parts.sections
    created := input.created
    modified := input.modified }

end Extract

/-- The columns of `docs` beside those of `DocRow`; the properties are the value of their JSON. -/
structure DocColumns where
  pathFold : Option Text
  title : Text
  titleFold : Option Text
  titleSrc : TitleSource
  folder : Text
  folderFold : Option Text
  extFold : Option Text
  created : Option Text
  createdFold : Option Text
  modified : Option Text
  modifiedFold : Option Text
  props : List (Text × PropertyValue)
  deriving DecidableEq

/-- A row of `search_fts`. -/
structure SearchRow where
  title : Text
  body : Text
  props : Text
  deriving DecidableEq

section Rows
variable (host : IndexHost)

def foldOrNull (s : Option Text) : Option Text :=
  match s with
  | none | some [] => none
  | some s => some (foldText host.toHost s)

def jsonScalar : Scalar → Scalar
  | .num x => if x.isFinite then .num x else .null
  | x => x

/-- `JSON.parse(JSON.stringify(props))` -/
def jsonProps (props : List (Text × PropertyValue)) : List (Text × PropertyValue) :=
  props.map fun e => (e.1, match e.2 with
    | .scalar x => .scalar (jsonScalar x)
    | .list xs => .list (xs.map jsonScalar))

def docColumns (note : ExtractedNote) : DocColumns where
  pathFold := foldOrNull host note.path
  title := note.title
  titleFold := foldOrNull host note.title
  titleSrc := note.titleSource
  folder := note.folder
  folderFold := foldOrNull host note.folder
  extFold := foldOrNull host note.ext
  created := note.created
  createdFold := foldOrNull host note.created
  modified := note.modified
  modifiedFold := foldOrNull host note.modified
  props := jsonProps note.props.entries

def words (s : Text) : List Text :=
  ((foldText host.toHost s).splitOnP fun c => !host.isWordChar c).filter (· ≠ [])

/-- `typeof x === 'string' && x` -/
def textOf? : Scalar → Option Text
  | .text [] => none
  | .text s => some s
  | _ => none

def propsText (props : List (Text × PropertyValue)) : Text :=
  ['\n'].intercalate ((props.flatMap fun e => match e.2 with
    | .scalar x => [x]
    | .list xs => xs).filterMap textOf?)

def ftsRow (title : Text) (sections : List Section) (props : List (Text × PropertyValue)) : SearchRow where
  title := [' '].intercalate (words host title)
  body := [' '].intercalate (words host (['\n'].intercalate (sections.map (·.text))))
  props := [' '].intercalate (words host (propsText props))

end Rows

section Operations
variable (host : IndexHost)

/-- The primary key of `docs`, and its unique ids. -/
def UniqueRows (docs : List DocRow) : Prop := ∀ d ∈ docs, ∀ e ∈ docs, d.n = e.n ∨ d.id = e.id → d = e

variable {docs : List DocRow}

theorem UniqueRows.filter (h : UniqueRows docs) (p : DocRow → Bool) :
    UniqueRows (docs.filter p) :=
  fun d hd e he => h d (List.mem_filter.1 hd).1 e (List.mem_filter.1 he).1

theorem UniqueRows.upsert (h : UniqueRows docs) (row : DocRow) :
    UniqueRows (docs.filter (fun d => !(d.n == row.n || d.id == row.id)) ++ [row]) := by
  have hother : ∀ d ∈ docs.filter (fun d => !(d.n == row.n || d.id == row.id)), d.n ≠ row.n ∧ d.id ≠ row.id := by
    simpa using (List.mem_filter.1 hd).2
  intro d hd e he hde
  obtain hd | hd := List.mem_append.1 hd <;> obtain he | he := List.mem_append.1 he
  · exact h.filter _ d hd e he hde
  · obtain rfl := List.mem_singleton.1 he
    exact absurd hde (not_or.2 (hother d hd))
  · obtain rfl := List.mem_singleton.1 hd
    exact absurd (hde.imp Eq.symm Eq.symm) (not_or.2 (hother e he))
  · exact (List.mem_singleton.1 hd).trans (List.mem_singleton.1 he).symm

theorem UniqueRows.writeRecord {lower : Lower} {note : NoteRecord} {existing : Existing} {s : Index}
    (h : UniqueRows s.docs) : UniqueRows (writeRecord lower note (existing, s)).2.docs := by
  cases hold : existing note.id with
  | none =>
    rw [writeRecord_of_none hold, writeLinks_docs]
    exact h.upsert (newRow lower s.nextN note)
  | some doc =>
    rw [writeRecord_of_some hold, writeLinks_docs]
    exact h.upsert (newRow lower doc.n note)

def movedRow (lower : Lower) (n : Nat) (path : Text) (d : DocRow) : DocRow :=
  if d.n == n then { d with path := path, ext := extOf lower path, keys := pathColumns lower path } else d

theorem movedRow_n (lower : Lower) (n : Nat) (path : Text) (d : DocRow) : (movedRow lower n path d).n = d.n := by
  unfold movedRow
  split <;> rfl

theorem movedRow_id (lower : Lower) (n : Nat) (path : Text) (d : DocRow) : (movedRow lower n path d).id = d.id := by
  unfold movedRow
  split <;> rfl

theorem UniqueRows.move {lower : Lower} (h : UniqueRows docs) (n : Nat) (path : Text) :
    UniqueRows (docs.map (movedRow lower n path)) := by
  intro d hd e he hde
  obtain ⟨d', hd', rfl⟩ := List.mem_map.1 hd
  obtain ⟨e', he', rfl⟩ := List.mem_map.1 he
  rw [movedRow_n, movedRow_n, movedRow_id, movedRow_id] at hde
  rw [h d' hd' e' he' hde]

/-- The tables, by the numbers of the documents. -/
structure Tables where
  index : Index
  columns : Nat → Option DocColumns
  search : Nat → Option SearchRow
  sections : Nat → Option (List Section)
  unique : UniqueRows index.docs

namespace Tables

/-- `removal`: the rows of a document go from every table. -/
def removal (n : Nat) (t : Tables) : Tables where
  index := VaultIndex.removal n t.index
  columns := Function.update t.columns n none
  search := Function.update t.search n none
  sections := Function.update t.sections n none
  unique := t.unique.filter _

def find (t : Tables) (id : Text) : Option DocRow := t.index.docs.find? fun d => d.id == id

def writeNote (note : ExtractedNote) (t : Tables) : Tables :=
  let n := match t.find note.id with
    | some doc => doc.n
    | none => t.index.nextN
  { index := (writeRecord host.lower note.toNoteRecord (lookup t.index [note.id], t.index)).2
    columns := Function.update t.columns n (some (docColumns host note))
    search := Function.update t.search n (some (ftsRow host note.title note.sections note.props.entries))
    sections := Function.update t.sections n (some note.sections)
    unique := t.unique.writeRecord }

def applyDoc (input : NoteInput) (t : Tables) : Tables :=
  if isTrashPath input.path then
    match t.find input.id with
    | some doc => t.removal doc.n
    | none => t
  else t.writeNote host (extractNote host input)

inductive MoveResult
  | moved | unchanged | removed | missing
  deriving DecidableEq

/-- The row of `docs` is patched, then the rows of each power. -/
def moveDoc (id path : Text) (t : Tables) : Tables × MoveResult :=
  let gone := if isTrashPath path then MoveResult.removed else .missing
  match t.find id with
  | none => (t, gone)
  | some doc =>
    if doc.base.isSome && doc.base != some [] then (t, gone)
    else if isTrashPath path || extOf host.lower path != extOf host.lower doc.path then
      (t.removal doc.n, gone)
    else if path = doc.path then (t, .unchanged)
    else
      let row := t.columns doc.n
      let title := match row with
        | some row => if row.titleSrc = .name then stemOf path else row.title
        | none => stemOf path
      let folder := folderOf path
      let patched := row.map fun row => { row with
        pathFold := foldOrNull host path
        title
        titleFold := foldOrNull host title
        folder
        folderFold := foldOrNull host folder
        extFold := foldOrNull host (extOf host.lower path) }
      -- `move` of the search power: nothing when the title stays.
      let search := match row with
        | some row => if row.title = title then t.search
          else Function.update t.search doc.n
            (some (ftsRow host title ((t.sections doc.n).getD []) row.props))
        | none => t.search
      ({ index := moveLinks host.lower doc.n path
           { t.index with docs := t.index.docs.map (movedRow host.lower doc.n path) }
         columns := Function.update t.columns doc.n patched
         search
         sections := t.sections
         unique := t.unique.move doc.n path }, .moved)

theorem moveDoc_index (id path : Text) (t : Tables) :
    (moveDoc host id path t).1.index = VaultIndex.moveDoc host.lower id path t.index := by
  unfold moveDoc VaultIndex.moveDoc find
  cases t.index.docs.find? fun d => d.id == id with
  | none => rfl
  | some doc =>
    dsimp only
    split
    · rfl
    · split
      · rfl
      · split
        · rfl
        · rfl

end Tables
end Operations

end Savoire.VaultIndex
