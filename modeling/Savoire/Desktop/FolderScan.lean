import Savoire.Desktop.DocumentIds

/-! The scan of a vault folder: which document each file is, from the ids known by path, the
documents that vanished and the ids drawn from the paths. -/
namespace Savoire.FolderVault
variable {ι : Type*} [DecidableEq ι]

inductive EntryKind
  | file
  | directory
  deriving DecidableEq

structure FileEntry where
  path : Text
  kind : EntryKind
  size : Option Nat
  mtimeMs : Option Nat

/-- What `list` gives, each path once, and what the files hold. -/
structure Folder where
  entries : List FileEntry
  nodup : (entries.map FileEntry.path).Nodup
  bytes : Text → List UInt8

/-- `discoveredDocumentId` of this vault, the hash of a content, the order of `localeCompare`. -/
structure Host (ι : Type*) where
  discoveredDocumentId : Text → ι
  contentHash : List UInt8 → Text
  localeCompare : Text → Text → Ordering

def vaultMetaPath : Text := ".savoire/vault.json".toList

def trashFolder : Text := ".trash".toList

def isVaultPath (path : Text) : Bool :=
  let parts := path.splitOn '/'
  path ≠ [] && parts.zipIdx.all fun part =>
    !Text.startsWith part.1 ['.'] || (part.2 == 0 && part.1 == trashFolder && decide (1 < parts.length))

def isVaultFolder (path : Text) : Bool :=
  isVaultPath path && path ≠ trashFolder && !path.startsWith (trashFolder ++ ['/'])

def baseName (path : Text) : Text := VaultIndex.afterLast '/' path

structure Stat where
  size : Option Nat
  mtimeMs : Option Nat
  deriving DecidableEq

def visible (e : FileEntry) : Bool := e.kind == .file && isVaultPath e.path

def present (folder : Folder) : KeyedMap Text Stat where
  entries := (folder.entries.filter visible).map fun e => (e.path, ⟨e.size, e.mtimeMs⟩)
  nodup := by
    rw [List.map_map]
    exact folder.nodup.sublist (List.filter_sublist.map FileEntry.path)

def visibleFolders (folder : Folder) : KeyedMap Text Unit :=
  (folder.entries.filter fun e => e.kind == .directory && isVaultFolder e.path).foldl
    (fun m e => m.set (e.path ++ ['/']) ()) .empty

def only {α : Type*} : List α → Option α
  | [a] => some a
  | _ => none

section
variable (host : Host ι) (folder : Folder)

def matchRename (path : Text) (stat : Stat) (candidates : KeyedMap ι DocumentIdEntry) : Option ι :=
  match stat.size with
  | none => none
  | some size =>
    let sameSize := candidates.entries.filter fun c => c.2.size == some size
    let sameDate := sameSize.filter fun c => c.2.mtimeMs.isSome && c.2.mtimeMs == stat.mtimeMs
    if sameDate.length = 1 then (only sameDate).map Prod.fst
    else if 1 < sameDate.length then
      (only (sameDate.filter fun c => baseName c.2.path == baseName path)).map Prod.fst
    else
      let hashed := sameSize.filter fun c => c.2.hash.any (· ≠ [])
      if hashed.length = 0 then none
      else
        let h := host.contentHash (folder.bytes path)
        (only (hashed.filter fun c => c.2.hash == some h)).map Prod.fst

def idAt (pairs : List (ι × Text)) (path : Text) : Option ι :=
  (pairs.reverse.find? fun e => e.2 == path).map Prod.fst

/-- `idsByPath.get(path) ?? currentByPath.get(path)` -/
def knownId (ids : KeyedMap ι DocumentIdEntry) (current : KeyedMap ι Text) (path : Text) : Option ι :=
  (idAt (ids.entries.map fun e => (e.1, e.2.path)) path).or (idAt current.entries path)

/-- The paths that keep their id, and the others. `used` is the set of the ids assigned. -/
def assignKnown (known : Text → Option ι) :
    List Text → KeyedMap ι Text × List Text → KeyedMap ι Text × List Text
  | [], acc => acc
  | path :: rest, (assigned, unassigned) => assignKnown known rest <| match known path with
    | some id => if !assigned.has id then (assigned.set id path, unassigned) else (assigned, unassigned ++ [path])
    | none => (assigned, unassigned ++ [path])

/-- The documents whose file is not there any more. -/
def vanished (ids : KeyedMap ι DocumentIdEntry) (current assigned : KeyedMap ι Text) : KeyedMap ι DocumentIdEntry :=
  let there := present folder
  let candidates := ids.filter fun e => !assigned.has e.1 && !there.has e.2.path
  current.entries.foldl (fun candidates d =>
    if !assigned.has d.1 && !candidates.has d.1 && !there.has d.2 then candidates.set d.1 ⟨d.2, none, none, none⟩
    else candidates) candidates

def matched (path : Text) (candidates : KeyedMap ι DocumentIdEntry) : Option ι :=
  match (present folder).get path with
  | none => none
  | some stat => matchRename host folder path stat candidates

/-- The ids of the other paths; `uuid` are the random ids drawn in this scan. -/
def place (uuid : Text → ι) : List Text → KeyedMap ι Text × KeyedMap ι DocumentIdEntry →
    KeyedMap ι Text × KeyedMap ι DocumentIdEntry
  | [], acc => acc
  | path :: rest, (assigned, candidates) => match matched host folder path candidates with
    | some id => place uuid rest (assigned.set id path, candidates.delete id)
    | none =>
      let id := host.discoveredDocumentId path
      let id := if assigned.has id then uuid path else id
      place uuid rest (assigned.set id path, candidates)

/-- The paths that keep their id, and the others in the order in which they get one. -/
def firstPass (s : Session ι) : KeyedMap ι Text × List Text :=
  let pass := assignKnown (knownId s.ids s.directory) ((present folder).entries.map Prod.fst) (.empty, [])
  (pass.1, Query.sortTexts pass.2)

def candidates (s : Session ι) : KeyedMap ι DocumentIdEntry :=
  vanished folder s.ids s.directory (firstPass folder s).1

/-- The id of each visible file, and the vanished documents that are none of them. -/
def assignment (uuid : Text → ι) (s : Session ι) : KeyedMap ι Text × KeyedMap ι DocumentIdEntry :=
  place host folder uuid (firstPass folder s).2 ((firstPass folder s).1, candidates folder s)

def updateId (s : Session ι) (id : ι) (path : Text) : Session ι :=
  match (present folder).get path with
  | none => s
  | some stat => match s.ids.get id with
    | none => setId s id ⟨path, stat.size, stat.mtimeMs, none⟩
    | some old =>
      if old.path ≠ path then setId s id ⟨path, stat.size, stat.mtimeMs, none⟩
      else if old.size ≠ stat.size ∨ old.mtimeMs ≠ stat.mtimeMs then
        setId s id ⟨path, stat.size, stat.mtimeMs, if old.size = stat.size then old.hash else none⟩
      else s

/-- A document that the directory never had may be one that another session is about to write. -/
def dropVanished (initial : Bool) (current : KeyedMap ι Text) (s : Session ι) (id : ι) : Session ι :=
  if initial || current.has id then deleteId s id else s

/-- The map becomes `docs`, in one transaction. -/
def applyFromDisk {κ β : Type*} [DecidableEq κ] [DecidableEq β] (m docs : KeyedMap κ β) : KeyedMap κ β :=
  docs.entries.foldl (fun m d => if m.get d.1 = some d.2 then m else m.set d.1 d.2)
    (m.filter fun e => docs.has e.1)

/-- None when the folder is no vault any more (`vaultGone`). The changes of the application, which a
scan waits for, are not in the picture. -/
def scan (uuid : Text → ι) (initial : Bool) (file : Option (DocumentsFile ι)) (s : Session ι) :
    Option (Option (DocumentsFile ι) × Session ι) :=
  if !initial && !folder.entries.any (fun e => e.path == vaultMetaPath) then none
  else
    let s := loadIds file s
    let current := s.directory
    let (assigned, left) := assignment host folder uuid s
    let s := assigned.entries.foldl (fun s a => updateId folder s a.1 a.2) s
    let s := left.entries.foldl (fun s c => dropVanished initial current s c.1) s
    let s := { s with directory := applyFromDisk s.directory assigned
                      directoryFolders := applyFromDisk s.directoryFolders (visibleFolders folder) }
    some (if !s.dirtyIds.entries.isEmpty || !s.deletedIds.entries.isEmpty then saveIds host.localeCompare false file s
      else (file, s))

end

structure State (ι : Type*) where
  folder : Folder
  file : Option (DocumentsFile ι)
  session : Option (Session ι)

inductive Event (ι : Type*)
  | change (folder : Folder)
  | opened (uuid : Text → ι)
  | scan (uuid : Text → ι)

/-- `start`: the ids, the first scan, the ids again. -/
def start (host : Host ι) (folder : Folder) (uuid : Text → ι) (file : Option (DocumentsFile ι)) :
    Option (Option (DocumentsFile ι) × Session ι) :=
  (scan host folder uuid true file (loadIds file .fresh)).map fun r => saveIds host.localeCompare false r.1 r.2

def step (host : Host ι) (s : State ι) : Event ι → Option (State ι)
  | .change folder => some { s with folder := folder }
  | .opened uuid => (start host s.folder uuid s.file).map fun r => { s with file := r.1, session := some r.2 }
  | .scan uuid => match s.session with
    | none => none
    | some session =>
      (scan host s.folder uuid false s.file session).map fun r => { s with file := r.1, session := some r.2 }

end Savoire.FolderVault
