import Savoire.Text

/-! Paths of the vault: relative to its root, separated by `/`. the host gives
`toLowerCase`. -/
namespace Savoire.VaultIndex

/-- The host's `toLowerCase`. -/
structure Lower where
  apply : Text → Text
  nil : apply [] = []

variable (lower : Lower)

def trashPrefix : Text := ".trash/".toList

def isTrashPath (path : Text) : Bool := path.startsWith trashPrefix

def afterLast (sep : Char) (s : Text) : Text := s.rtakeWhile (· ≠ sep)

def beforeLast (sep : Char) (s : Text) : Option Text :=
  if sep ∈ s then some (s.rdropWhile (· ≠ sep)).dropLast else none

def folderOf (path : Text) : Text := (beforeLast '/' path).getD []

def nameOf (path : Text) : Text := afterLast '/' path

theorem notMem_nameOf (path : Text) : '/' ∉ nameOf path := by
  intro h
  simpa using List.mem_rtakeWhile_imp h

def extOf (path : Text) : Text :=
  let name := nameOf path
  match beforeLast '.' name with
  | none | some [] => []
  | some _ => lower.apply (afterLast '.' name)

def stemOf (path : Text) : Text :=
  let name := nameOf path
  match beforeLast '.' name with
  | none | some [] => name
  | some stem => stem

/-- The segments that remain, last first; none when the path leaves the root. -/
def normalizeSegments : List Text → List Text → Option (List Text)
  | out, [] => some out
  | out, seg :: rest =>
    if seg = [] ∨ seg = ".".toList then normalizeSegments out rest
    else if seg = "..".toList then
      match out with
      | [] => none
      | _ :: out => normalizeSegments out rest
    else normalizeSegments (seg :: out) rest

def normalizePath (path : Text) : Option Text :=
  (normalizeSegments [] (path.splitOn '/')).map fun out => ['/'].intercalate out.reverse

def resolveFrom (folder rel : Text) : Option Text :=
  normalizePath (if folder = [] then rel else folder ++ "/".toList ++ rel)

/-- The keys under which a link finds a document. -/
structure DocKeys where
  nameKey : Text
  nameFullKey : Text
  pathKey : Text
  fullKey : Text
  deriving DecidableEq

def docKeys (path : Text) : DocKeys :=
  let full := lower.apply path
  let name := nameOf full
  let stem := stemOf full
  ⟨stem, name, full.take (full.length - name.length) ++ stem, full⟩

/-- The characters that `String.prototype.trim` removes. -/
def isJsSpace (c : Char) : Bool :=
  (Text.isWhiteSpace c && c.toNat != 0x85) || c.toNat == 0xFEFF

def jsTrim (s : Text) : Text := (s.dropWhile isJsSpace).rdropWhile isJsSpace

/-- Removes the leading `./` and `../`. -/
def stripDots : Text → Text
  | '.' :: '/' :: rest => stripDots rest
  | '.' :: '.' :: '/' :: rest => stripDots rest
  | s => s

end Savoire.VaultIndex
