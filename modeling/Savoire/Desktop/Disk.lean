import Savoire.Library.KeyedMap
import Savoire.Index.Paths
import Mathlib.Data.List.Infix
import Mathlib.Data.List.Perm.Subperm

/-! The folder of a vault as its session sees it: files and folders under paths from the root, and the
operations on them, which give nothing when they fail. -/
namespace Savoire.FolderQueue
open VaultIndex (folderOf)

abbrev Bytes := List UInt8

/-- Of the folders, those that were made; one that something stands under is there in any case. -/
structure Disk where
  files : KeyedMap Text Bytes
  folders : List Text

def isUnder (path dir : Text) : Bool := dir == [] || path == dir || (dir ++ ['/']).isPrefixOf path

namespace Disk

def paths (d : Disk) : List Text := d.files.entries.map Prod.fst ++ d.folders

def hasFolder (d : Disk) (path : Text) : Bool :=
  path == [] || (!d.files.has path && (path ∈ d.folders || d.paths.any (path ++ ['/']).isPrefixOf))

def isThere (d : Disk) (path : Text) : Bool := d.files.has path || d.hasFolder path

/-- Fails when a file stands where a folder has to be. -/
def mkdirs (d : Disk) (dir : Text) : Option Disk :=
  if d.files.entries.any fun e => isUnder dir e.1 then none else some { d with folders := dir :: d.folders }

def write (d : Disk) (path : Text) (content : Bytes) : Option Disk :=
  if d.hasFolder path then none
  else (d.mkdirs (folderOf path)).map fun d => { d with files := d.files.set path content }

def moved (src dst path : Text) : Text := if isUnder path src then dst ++ path.drop src.length else path

def rename (d : Disk) (src dst : Text) : Option Disk :=
  if src = dst then some d
  else if src = [] || !d.isThere src || isUnder dst src then none
  else (d.mkdirs (folderOf dst)).map fun d =>
    match d.files.get src with
    | some content => ⟨(d.files.delete src).set dst content, folderOf src :: d.folders⟩
    | none =>
        ⟨(d.files.entries.filter fun e => isUnder e.1 src).foldl
            (fun files e => (files.delete e.1).set (moved src dst e.1) e.2) d.files,
          folderOf src :: d.folders.map (moved src dst)⟩

def remove (d : Disk) (path : Text) : Option Disk :=
  if d.files.has path then some ⟨d.files.delete path, folderOf path :: d.folders⟩
  else if path = [] || !d.hasFolder path then none
  else some ⟨d.files.filter fun e => !isUnder e.1 path, folderOf path :: d.folders.filter fun f => !isUnder f path⟩

/-- Is nothing listed in a folder? -/
def isEmptyFolder (d : Disk) (dir : Text) : Option Bool :=
  if d.hasFolder dir then some !(d.paths.any fun p => p != dir && isUnder p dir) else none

/-- From a folder up, as long as it is empty and was not made on purpose; as many as the text has characters. -/
def removeEmptyParents (explicitFolders : List Text) : Nat → Text → Disk → Option Disk
  | 0, _, d => some d
  | fuel + 1, dir, d =>
    if dir = [] || dir ++ ['/'] ∈ explicitFolders || !d.isThere dir then some d
    else match d.isEmptyFolder dir with
      | none => none
      | some false => some d
      | some true => (d.remove dir).bind (removeEmptyParents explicitFolders fuel (folderOf dir))

variable {d d' : Disk} {path dir src dst : Text} {content : Bytes}

theorem get_of_not_isThere (h : d.isThere path = false) : d.files.get path = none := by
  rw [isThere, Bool.or_eq_false_iff, KeyedMap.has, Option.isSome_eq_false_iff] at h
  simpa using h.1

theorem isThere_of_get (h : d.files.get path = some content) : d.isThere path = true := by
  rw [isThere, KeyedMap.has, h]
  rfl

theorem files_mkdirs (h : d.mkdirs dir = some d') : d'.files = d.files := by
  unfold mkdirs at h
  split at h
  · cases h
  · cases h
    rfl

theorem files_write (h : d.write path content = some d') : d'.files = d.files.set path content := by
  unfold write at h
  split at h
  · cases h
  · obtain ⟨d1, hd1, rfl⟩ := Option.map_eq_some_iff.mp h
    rw [files_mkdirs hd1]

theorem files_rename (hne : src ≠ dst) (hsrc : d.files.get src = some content) (h : d.rename src dst = some d') :
    d'.files = (d.files.delete src).set dst content := by
  rw [rename, if_neg hne] at h
  split at h
  · cases h
  · obtain ⟨d1, hd1, hd'⟩ := Option.map_eq_some_iff.mp h
    rw [files_mkdirs hd1, hsrc] at hd'
    rw [← hd']

theorem files_remove (hpath : d.files.get path = some content) (h : d.remove path = some d') :
    d'.files = d.files.delete path := by
  rw [remove, KeyedMap.has, hpath, Option.isSome_some, if_pos rfl] at h
  cases h
  rfl

theorem get_remove_empty (hdir : dir ≠ []) (hempty : d.isEmptyFolder dir = some true)
    (h : d.remove dir = some d') : d'.files.get path = d.files.get path := by
  unfold isEmptyFolder at hempty
  split at hempty
  · rename_i hfolder
    have hnone : ∀ p ∈ d.paths, p = dir ∨ isUnder p dir = false := by
      simpa [Classical.or_iff_not_imp_left] using hempty
    have hfile : d.files.has dir = false := by
      simp only [hasFolder, Bool.or_eq_true, beq_iff_eq, hdir, false_or, Bool.and_eq_true] at hfolder
      simpa using hfolder.1
    unfold remove at h
    rw [hfile, if_neg Bool.false_ne_true] at h
    split at h
    · cases h
    · cases h
      ext content
      rw [KeyedMap.get_filter, and_iff_left_iff_imp]
      intro hget
      obtain rfl | hunder := hnone path
        (List.mem_append_left _ (List.mem_map.mpr ⟨(path, content), KeyedMap.mem_iff.mpr hget, rfl⟩))
      · rw [KeyedMap.has, hget] at hfile
        cases hfile
      · simp [hunder]
  · cases hempty

theorem get_removeEmptyParents {explicitFolders : List Text} {fuel : Nat}
    (h : removeEmptyParents explicitFolders fuel dir d = some d') : d'.files.get path = d.files.get path := by
  induction fuel generalizing dir d with
  | zero =>
    cases h
    rfl
  | succ fuel ih =>
    rw [removeEmptyParents] at h
    split at h
    · cases h
      rfl
    · rename_i hgo
      cases hempty : d.isEmptyFolder dir with
      | none => simp [hempty] at h
      | some empty =>
        cases empty with
        | false =>
          simp only [hempty] at h
          cases h
          rfl
        | true =>
          simp only [hempty] at h
          obtain ⟨d1, hd1, hd'⟩ := Option.bind_eq_some_iff.mp h
          have hdir : dir ≠ [] := by
            rintro rfl
            simp at hgo
          rw [ih hd', get_remove_empty hdir hempty hd1]

end Disk

def splitExtension (path : Text) : Text × Text :=
  match VaultIndex.beforeLast '.' (VaultIndex.nameOf path) with
  | none | some [] => (path, [])
  | some stem =>
      let ext := (VaultIndex.nameOf path).drop stem.length
      (path.take (path.length - ext.length), ext)

def numbered (path : Text) (n : Nat) : Text :=
  (splitExtension path).1 ++ ' ' :: Nat.toDigits 10 n ++ (splitExtension path).2

theorem numbered_injective (path : Text) : Function.Injective (numbered path) := by
  intro n n' h
  have hdigits : Nat.toDigits 10 n = Nat.toDigits 10 n' :=
    (List.cons.inj (List.append_cancel_left (List.append_cancel_right h))).2
  rw [← Nat.ofDigitChars_ten_toDigits (n := n), hdigits, Nat.ofDigitChars_ten_toDigits]

def takenPaths (d : Disk) (directory : List Text) : List Text := [] :: (d.paths ++ directory).flatMap List.inits

def isTaken (d : Disk) (directory : List Text) (path : Text) : Bool := d.isThere path || path ∈ directory

/-- The first number that is free; a number as large as there are taken paths is enough. -/
def freePath (d : Disk) (directory : List Text) (path : Text) : Text :=
  numbered path (((List.range' 1 ((takenPaths d directory).length + 1)).find?
    fun n => !isTaken d directory (numbered path n)).getD 0)

theorem mem_takenPaths {d : Disk} {directory : List Text} {path : Text} (h : isTaken d directory path = true) :
    path ∈ takenPaths d directory := by
  have hself : ∀ p ∈ d.paths ++ directory, path <+: p → path ∈ takenPaths d directory := by
    intro p hp hprefix
    exact List.mem_cons_of_mem _ (List.mem_flatMap.mpr ⟨p, hp, (List.mem_inits path p).mpr hprefix⟩)
  rw [isTaken, Bool.or_eq_true, decide_eq_true_iff] at h
  obtain hthere | hdirectory := h
  · rw [Disk.isThere, Bool.or_eq_true] at hthere
    obtain hfile | hfolder := hthere
    · obtain ⟨content, hget⟩ := KeyedMap.has_iff.mp hfile
      have hpath : path ∈ d.paths :=
        List.mem_append_left _ (List.mem_map.mpr ⟨(path, content), KeyedMap.mem_iff.mpr hget, rfl⟩)
      exact hself path (List.mem_append_left _ hpath) (List.prefix_refl path)
    · simp only [Disk.hasFolder, Bool.or_eq_true, beq_iff_eq, Bool.and_eq_true, decide_eq_true_eq,
        List.any_eq_true, List.isPrefixOf_iff_prefix] at hfolder
      obtain rfl | ⟨-, hfolder | ⟨p, hp, hprefix⟩⟩ := hfolder
      · exact List.mem_cons_self
      · exact hself path (List.mem_append_left _ (List.mem_append_right _ hfolder)) (List.prefix_refl path)
      · exact hself p (List.mem_append_left _ hp) ((List.prefix_append path ['/']).trans hprefix)
  · exact hself path (List.mem_append_right _ hdirectory) (List.prefix_refl path)

theorem freePath_free (d : Disk) (directory : List Text) (path : Text) :
    isTaken d directory (freePath d directory path) = false := by
  rw [freePath]
  cases hfind : (List.range' 1 ((takenPaths d directory).length + 1)).find?
      fun n => !isTaken d directory (numbered path n) with
  | some n => simpa using List.find?_some hfind
  | none =>
    -- Else there would be more taken paths than there are.
    have hall : ∀ p ∈ (List.range' 1 ((takenPaths d directory).length + 1)).map (numbered path),
        p ∈ takenPaths d directory := by
      intro p hp
      obtain ⟨n, hn, rfl⟩ := List.mem_map.mp hp
      exact mem_takenPaths (by simpa using List.find?_eq_none.mp hfind n hn)
    have hnodup : ((List.range' 1 ((takenPaths d directory).length + 1)).map (numbered path)).Nodup :=
      List.Nodup.map (numbered_injective path) List.nodup_range'
    have hlength := (List.subperm_of_subset hnodup hall).length_le
    rw [List.length_map, List.length_range'] at hlength
    omega

end Savoire.FolderQueue
