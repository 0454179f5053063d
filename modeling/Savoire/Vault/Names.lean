import Savoire.Library.FirstFree
import Savoire.Links.Resolver

/-! Names of the documents of a vault: the trash, and the attachments. A path is free when no
document has it; the paths in use are given as a list. -/
namespace Savoire.VaultClient
open VaultIndex (nameOf notMem_nameOf beforeLast afterLast isTrashPath isJsSpace jsTrim)

/-- `path.slice(0, path.lastIndexOf('/') + 1)`. -/
def parentOf (path : Text) : Text := path.rdropWhile (· ≠ '/')

def splitName (name : Text) : Text × Text :=
  match beforeLast '.' name with
  | none | some [] => (name, [])
  | some base => (base, '.' :: afterLast '.' name)

/-- `${base} ${n}${ext}`. -/
def numbered (base ext : Text) (n : ℕ) : Text := base ++ ' ' :: Nat.toDigits 10 n ++ ext

/-- The names tried in turn: the one asked for, then « Nom 1.ext », « Nom 2.ext »... -/
def candidate (path base ext : Text) : ℕ → Text
  | 0 => path
  | n+1 => numbered base ext (n + 1)

def trashDir : Text := ".trash/".toList

def splitExtension (path : Text) : Text × Text :=
  (parentOf path ++ (splitName (nameOf path)).1, (splitName (nameOf path)).2)

def uniquePath (path : Text) (taken : List Text) : Text :=
  FirstFree.first taken (candidate path (splitExtension path).1 (splitExtension path).2)

def trashPathFor (path : Text) (taken : List Text) : Text := uniquePath (trashDir ++ path) taken

def originalPathOf (trashPath : Text) : Text :=
  if isTrashPath trashPath then trashPath.drop trashDir.length else trashPath

def restorePathFor (trashPath : Text) (taken : List Text) : Text :=
  uniquePath (originalPathOf trashPath) taken

def attachmentsDir : Text := "attachments/".toList

inductive AttachmentLocation
  | noteFolder
  | attachments
  deriving DecidableEq

/-- `ATTACHMENT_LOCATION`. -/
def attachmentLocation : AttachmentLocation := .noteFolder

def noteFolderOf (notePath : Text) : Text :=
  match beforeLast '.' (nameOf notePath) with
  | none | some [] => []
  | some stem => parentOf notePath ++ stem ++ "/".toList

def attachmentFolderFor (notePath : Option Text) (location : AttachmentLocation) : Text :=
  let path := notePath.getD []
  if location ≠ .noteFolder ∨ path = [] then attachmentsDir
  else if noteFolderOf path = [] then attachmentsDir
  else noteFolderOf path

/-- Each run of characters that `p` names is replaced by one space. -/
def replaceRuns (p : Char → Bool) : Text → Text
  | [] => []
  | c :: rest =>
    if p c then
      match rest with
      | [] => [' ']
      | d :: _ => if p d then replaceRuns p rest else ' ' :: replaceRuns p rest
    else c :: replaceRuns p rest

/-- The characters that would break a link or a path. -/
def isUnsafe (c : Char) : Bool := c ∈ "[]|#^\\/:".toList

def sanitizeFileName (name : Text) : Text :=
  let clean := jsTrim (replaceRuns isJsSpace (replaceRuns isUnsafe name))
  if clean.startsWith ".".toList then "fichier".toList ++ clean
  else if clean = [] then "fichier".toList
  else clean

/-- A folder path with its final `/`, and the root as it is. -/
def folderPath (dir : Text) : Text := if dir = [] ∨ Links.endsWith dir "/".toList then dir else dir ++ "/".toList

def uniqueAttachmentPath (name : Text) (taken : List Text) (dir : Text) : Text :=
  let parts := splitName (sanitizeFileName name)
  let base := folderPath dir ++ parts.1
  FirstFree.first taken (candidate (base ++ parts.2) base parts.2)

theorem parentOf_append_nameOf (path : Text) : parentOf path ++ nameOf path = path :=
  List.rdropWhile_append_rtakeWhile

theorem append_afterLast {sep : Char} {s base : Text} (h : beforeLast sep s = some base) :
    base ++ sep :: afterLast sep s = s := by
  unfold beforeLast at h
  split at h
  · rename_i hsep
    -- what is left of the last part ends with the separator
    have hne : s.rdropWhile (· ≠ sep) ≠ [] := by
      intro hnil
      simpa using List.rdropWhile_eq_nil_iff.1 hnil sep hsep
    have hlast : (s.rdropWhile (· ≠ sep)).getLast hne = sep := by
      simpa using List.rdropWhile_last_not (· ≠ sep) s hne
    have hbase : base ++ [sep] = s.rdropWhile (· ≠ sep) := by
      have hcut := List.dropLast_append_getLast hne
      rw [hlast, Option.some.inj h] at hcut
      exact hcut
    have hwhole : s.rdropWhile (· ≠ sep) ++ s.rtakeWhile (· ≠ sep) = s := List.rdropWhile_append_rtakeWhile
    rw [← hbase, List.append_assoc] at hwhole
    exact hwhole
  · cases h

theorem afterLast_append (sep : Char) (u v : Text) : afterLast sep (u ++ sep :: v) = afterLast sep v := by
  have hreverse : (u ++ sep :: v).reverse = v.reverse ++ sep :: u.reverse := by simp
  rw [afterLast, afterLast, List.rtakeWhile, List.rtakeWhile, hreverse, List.takeWhile_append]
  split
  · rename_i hall
    rw [List.takeWhile_cons_of_neg (by simp), List.append_nil]
    rw [(List.takeWhile_prefix _).eq_of_length hall]
  · rfl

theorem afterLast_append_of_notMem {sep : Char} {v : Text} (u : Text) (h : sep ∉ v) :
    afterLast sep (u ++ v) = afterLast sep u ++ v := by
  have hall : ∀ c ∈ v.reverse, decide (c ≠ sep) = true := by
    intro c hc
    rw [decide_eq_true_iff]
    rintro rfl
    exact h (List.mem_reverse.1 hc)
  rw [afterLast, afterLast, List.rtakeWhile, List.rtakeWhile, List.reverse_append, List.takeWhile_append_of_pos hall]
  simp

theorem afterLast_of_notMem {sep : Char} {v : Text} (h : sep ∉ v) : afterLast sep v = v :=
  afterLast_append_of_notMem [] h

theorem beforeLast_append {sep : Char} {v : Text} (u : Text) (h : sep ∉ v) : beforeLast sep (u ++ sep :: v) = some u := by
  obtain ⟨base, hbase⟩ : ∃ base, beforeLast sep (u ++ sep :: v) = some base := ⟨_, if_pos (by simp)⟩
  have hcut := append_afterLast hbase
  rw [afterLast_append, afterLast_of_notMem h] at hcut
  rw [hbase, List.append_cancel_right hcut]

theorem splitName_append (name : Text) : (splitName name).1 ++ (splitName name).2 = name := by
  unfold splitName
  split
  · exact List.append_nil name
  · exact List.append_nil name
  · exact append_afterLast ‹_›

theorem splitExtension_append (path : Text) : (splitExtension path).1 ++ (splitExtension path).2 = path := by
  rw [splitExtension, List.append_assoc, splitName_append, parentOf_append_nameOf]

theorem isPrefix_parentOf (u v : Text) : u ++ ['/'] <+: parentOf (u ++ '/' :: v) := by
  have hparts := parentOf_append_nameOf (u ++ '/' :: v)
  have hcut : parentOf (u ++ '/' :: v) ++ nameOf (u ++ '/' :: v) = (u ++ ['/']) ++ v := by
    rw [hparts, List.append_assoc]
    rfl
  obtain ⟨w, hw, hname⟩ | ⟨w, hw, -⟩ := List.append_eq_append_iff.1 hcut
  · -- the name has no separator
    cases w using List.reverseRecOn with
    | nil => exact ⟨[], by simpa using hw⟩
    | append_singleton w c =>
      rw [← List.append_assoc] at hw
      have hc : c = '/' := (List.cons.inj (List.append_inj_right' hw rfl)).1.symm
      have hmem : '/' ∈ nameOf (u ++ '/' :: v) := by simp [hname, hc]
      exact absurd hmem (notMem_nameOf _)
  · exact ⟨w, hw.symm⟩

theorem toDigits_injective : Function.Injective (Nat.toDigits 10) := by
  intro m n h
  have hread := congrArg (fun digits => Nat.ofDigitChars 10 digits 0) h
  simpa only [Nat.ofDigitChars_ten_toDigits] using hread

theorem candidate_injective (base ext : Text) : Function.Injective (candidate (base ++ ext) base ext) := by
  have hnew : ∀ n, base ++ ext ≠ numbered base ext n := by
    intro n h
    have hlength := congrArg List.length h
    simp [numbered] at hlength
    omega
  intro m n h
  cases m with
  | zero =>
    cases n with
    | zero => rfl
    | succ n => exact absurd h (hnew (n + 1))
  | succ m =>
    cases n with
    | zero => exact absurd h.symm (hnew (m + 1))
    | succ n =>
      have hdigits : Nat.toDigits 10 (m + 1) = Nat.toDigits 10 (n + 1) := by simpa [candidate, numbered] using h
      exact toDigits_injective hdigits

variable {path name : Text} {taken : List Text}

theorem uniquePath_not_mem : uniquePath path taken ∉ taken := by
  have hinj := candidate_injective (splitExtension path).1 (splitExtension path).2
  rw [splitExtension_append] at hinj
  exact FirstFree.first_not_mem hinj

theorem uniquePath_of_free (h : path ∉ taken) : uniquePath path taken = path := FirstFree.first_of_not_mem h

theorem isTrashPath_append (path : Text) : isTrashPath (trashDir ++ path) = true := by
  rw [isTrashPath, Text.startsWith_iff]
  exact List.prefix_append _ _

@[simp] theorem originalPathOf_trash (path : Text) : originalPathOf (trashDir ++ path) = path := by
  exact List.drop_left

theorem isTrashPath_trashPathFor (path : Text) (taken : List Text) : isTrashPath (trashPathFor path taken) = true := by
  obtain ⟨n, hn⟩ := FirstFree.exists_first taken
    (candidate (trashDir ++ path) (splitExtension (trashDir ++ path)).1 (splitExtension (trashDir ++ path)).2)
  rw [trashPathFor, uniquePath, hn]
  cases n with
  | zero => exact isTrashPath_append path
  | succ n =>
    have hparent : trashDir <+: parentOf (trashDir ++ path) := isPrefix_parentOf ".trash".toList path
    rw [isTrashPath, Text.startsWith_iff, candidate, numbered, splitExtension, List.append_assoc, List.append_assoc]
    exact hparent.trans (List.prefix_append _ _)

end Savoire.VaultClient
