import Savoire.Vault.Directory

/-! Operations of the file tree on a vault. A folder has no path of its own to rename: each of its
documents is renamed. -/
namespace Savoire.VaultClient
open VaultIndex (isTrashPath)

/-- `sort()` of texts: by UTF-16 units. -/
def compareTexts : Text → Text → Ordering := compareOn fun s => s.flatMap Utf.utf16

instance : Std.TransCmp compareTexts := by unfold compareTexts; infer_instance

/-- What `list` shows of a path below `start`: the document or the folder of the next level. -/
def entryOf (start path : Text) : Text :=
  let rest := path.drop start.length
  if '/' ∈ rest then start ++ rest.takeWhile (· ≠ '/') ++ "/".toList else start ++ rest

def listStart (dir : Text) : Text := if dir = [] then [] else folderStart dir

def list (d : Directory) (dir : Text) : List Text :=
  let start := listStart dir
  let hideTrash := !isTrashPath start
  let docs := (d.paths.filter fun path => path.startsWith start && !(hideTrash && isTrashPath path)).map (entryOf start)
  let folders := (d.getFolders.filter fun f => f.startsWith start && decide (f.drop start.length ≠ [])).map
    (entryOf start)
  StableSort.sort compareTexts (docs ++ folders).dedup

section Resolve
variable (host : Links.Host) (resolveDoc : Directory → Text → Option DocId) (d : Directory)

def documents : List (DocId × Text) := d.getAll.filter fun doc => !isTrashPath doc.2

def resolveLinkDocument (target : Text) : Option (DocId × Text) :=
  match findDocumentByPath d target with
  | some exact => some exact
  | none =>
    match Links.resolveLinkPath host target ((documents d).map Prod.snd) with
    | some path => (documents d).find? fun doc => doc.2 = path
    | none => none

/-- The document whose path this is, with or without its `.md`, the first of the directory. -/
def lookup (path : Text) : Option (DocId × Text) :=
  d.getAll.find? fun doc => doc.2 = path ∨ doc.2 = path ++ Links.noteExt

/-- `_resolveDocumentByPath`; the app gives `resolveDoc`, over its own list of documents. -/
def resolveDocumentId (path : Text) : Option DocId :=
  match lookup d path with
  | some doc => some doc.1
  | none =>
    match resolveLinkDocument host d path with
    | some doc => some doc.1
    | none => (resolveDoc d path).or (resolveDoc d (path ++ Links.noteExt))

end Resolve

def renameDocument (d : Directory) (documentId : DocId) (newPath : Text) : Directory :=
  d.rename documentId (Links.withNoteExtension newPath)

end Savoire.VaultClient

namespace Savoire.FolderOps
open VaultClient

def isFolder (entry : Text) : Bool := Links.endsWith entry "/".toList

structure FolderContent where
  files : List Text
  folders : List Text
  deriving DecidableEq

/-- The loop of `collectFolder`; none when `fuel` turns do not empty the queue. -/
def collect (d : Directory) : ℕ → List Text → FolderContent → Option FolderContent
  | _, [], content => some content
  | 0, _ :: _, _ => none
  | fuel+1, dir :: queue, content =>
    let entries := list d dir
    collect d fuel (queue ++ entries.filter isFolder)
      ⟨content.files ++ entries.filter (!isFolder ·), content.folders ++ entries.filter isFolder⟩

def collectFolder (d : Directory) (fuel : ℕ) (folderPath : Text) : Option FolderContent :=
  collect d fuel [folderPath] ⟨[], [folderPath]⟩

def isInside (path folderPath : Text) : Bool := decide (path ≠ folderPath) && path.startsWith folderPath

def rebasePath (path start target : Text) : Text :=
  if path.startsWith start then target ++ path.drop start.length else path

structure Move where
  start : Text
  target : Text
  deriving DecidableEq

def insideItself : Text := "Impossible de deplacer un dossier dans lui-meme.".toList

def alreadyExists (path : Text) : Text := "Un fichier existe deja : ".toList ++ path

def notFound (path : Text) : Text := "Document not found: ".toList ++ path

section Move
variable (host : Links.Host) (resolveDoc : Directory → Text → Option DocId) (start target : Text)

/-- The check before anything is touched: the first file whose new path finds a document. -/
def conflict (d : Directory) (files : List Text) : Option Text :=
  files.find? fun file => (resolveDocumentId host resolveDoc d (rebasePath file start target)).isSome

def renameAll : List Text → Directory → List Move → Directory × Except Text (List Move)
  | [], d, moves => (d, .ok moves)
  | file :: files, d, moves =>
    match resolveDocumentId host resolveDoc d file with
    | none => (d, .error (notFound file))
    | some id =>
      let path := rebasePath file start target
      renameAll files (renameDocument d id path) (moves ++ [⟨file, path⟩])

/-- The folders that no document is under exist only by their entry. -/
def createEmpty (content : FolderContent) (d : Directory) : Directory :=
  content.folders.foldl (fun acc folder =>
    if content.files.any (·.startsWith folder) then acc else createFolder acc (rebasePath folder start target)) d

/-- `moveFolder`, with the directory that it leaves; none when the folder is not read to its end. -/
def moveFolder (fuel : ℕ) (d : Directory) : Option (Directory × Except Text (List Move)) :=
  if start = target then some (d, .ok [])
  else if isInside target start then some (d, .error insideItself)
  else
    (collectFolder d fuel start).map fun content =>
      match conflict host resolveDoc start target d content.files with
      | some file => (d, .error (alreadyExists (rebasePath file start target)))
      | none =>
        match renameAll host resolveDoc start target content.files d [] with
        | (renamed, .error e) => (renamed, .error e)
        | (renamed, .ok moves) => (deleteFolder (createEmpty start target content renamed) start, .ok moves)

end Move
end Savoire.FolderOps
