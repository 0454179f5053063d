import Savoire.Library.KeyedMap
import Savoire.Query.Compare

/-! The ids of a vault on a disk: `.savoire/documents.json`, its copy in a session and the changes
of the session that are not written yet. An id is never the empty text, so a test of an id is a
test that there is one. -/
namespace Savoire.FolderVault
variable {ι : Type*} [DecidableEq ι]

/-- One entry of `documents.json`; size and date as they were last seen. -/
structure DocumentIdEntry where
  path : Text
  size : Option Nat
  mtimeMs : Option Nat
  hash : Option Text
  deriving DecidableEq

structure DocumentsFile (ι : Type*) where
  documents : KeyedMap ι DocumentIdEntry
  folders : List Text

/-- `ids` and the pending changes of the session, and its directory: documents and folders. -/
structure Session (ι : Type*) where
  ids : KeyedMap ι DocumentIdEntry
  dirtyIds : KeyedMap ι Unit
  deletedIds : KeyedMap ι Unit
  explicitFolders : KeyedMap Text Unit
  addedFolders : KeyedMap Text Unit
  removedFolders : KeyedMap Text Unit
  directory : KeyedMap ι Text
  directoryFolders : KeyedMap Text Unit

def Session.fresh : Session ι :=
  { ids := .empty, dirtyIds := .empty, deletedIds := .empty, explicitFolders := .empty, addedFolders := .empty,
    removedFolders := .empty, directory := .empty, directoryFolders := .empty }

def documents (file : Option (DocumentsFile ι)) : KeyedMap ι DocumentIdEntry :=
  match file with
  | none => .empty
  | some file => file.documents

def diskFolders (file : Option (DocumentsFile ι)) : List Text :=
  match file with
  | none => []
  | some file => file.folders

/-- `structural` only decides when the change is written. -/
def setId (s : Session ι) (id : ι) (entry : DocumentIdEntry) : Session ι :=
  { s with ids := s.ids.set id entry, deletedIds := s.deletedIds.delete id, dirtyIds := s.dirtyIds.set id () }

def deleteId (s : Session ι) (id : ι) : Session ι :=
  { s with ids := s.ids.delete id, dirtyIds := s.dirtyIds.delete id, deletedIds := s.deletedIds.set id () }

def loadIds (file : Option (DocumentsFile ι)) (s : Session ι) : Session ι :=
  let folders := (diskFolders file).foldl (fun m f => m.set f ()) KeyedMap.empty
  let folders := s.removedFolders.entries.foldl (fun m f => m.delete f.1) folders
  let folders := s.addedFolders.entries.foldl (fun m f => m.set f.1 ()) folders
  let merged := s.deletedIds.entries.foldl (fun m id => m.delete id.1) (documents file)
  let merged := s.dirtyIds.entries.foldl (fun m id => match s.ids.get id.1 with
    | some e => m.set id.1 e
    | none => m) merged
  { s with ids := merged, explicitFolders := folders }

variable (localeCompare : Text → Text → Ordering)

def saveIds (force : Bool) (file : Option (DocumentsFile ι)) (s : Session ι) :
    Option (DocumentsFile ι) × Session ι :=
  if !force && s.dirtyIds.entries.isEmpty && s.deletedIds.entries.isEmpty then (file, s)
  else
    let s := loadIds file s
    (some { documents := s.ids.sort fun a b => localeCompare a.2.path b.2.path
            folders := Query.sortTexts (s.explicitFolders.entries.map Prod.fst) },
      { s with dirtyIds := .empty, deletedIds := .empty, addedFolders := .empty, removedFolders := .empty })

/-- An id without a pending change is as the file has it; one to write is there. -/
structure Mirror (file : Option (DocumentsFile ι)) (s : Session ι) : Prop where
  clean : ∀ id, s.dirtyIds.get id = none → s.deletedIds.get id = none → s.ids.get id = (documents file).get id
  deleted : ∀ id, s.deletedIds.get id ≠ none → s.ids.get id = none
  dirty : ∀ id, s.dirtyIds.get id ≠ none → s.ids.get id ≠ none

variable {localeCompare} {file : Option (DocumentsFile ι)} {s : Session ι}

theorem Mirror.setId (h : Mirror file s) (id : ι) (entry : DocumentIdEntry) : Mirror file (setId s id entry) where
  clean := by
    intro k hdirty hdeleted
    have hne : k ≠ id := by
      rintro rfl
      simp [FolderVault.setId] at hdirty
    dsimp only [FolderVault.setId] at hdirty hdeleted ⊢
    rw [KeyedMap.get_set_ne hne] at hdirty ⊢
    rw [KeyedMap.get_delete, if_neg hne] at hdeleted
    exact h.clean k hdirty hdeleted
  deleted := by
    intro k hdeleted
    dsimp only [FolderVault.setId] at hdeleted ⊢
    have hne : k ≠ id := by
      rintro rfl
      simp [KeyedMap.get_delete] at hdeleted
    rw [KeyedMap.get_delete, if_neg hne] at hdeleted
    rw [KeyedMap.get_set_ne hne]
    exact h.deleted k hdeleted
  dirty := by
    intro k hdirty
    dsimp only [FolderVault.setId] at hdirty ⊢
    by_cases hne : k = id
    · subst hne
      simp
    · rw [KeyedMap.get_set_ne hne] at hdirty ⊢
      exact h.dirty k hdirty

theorem Mirror.deleteId (h : Mirror file s) (id : ι) : Mirror file (deleteId s id) where
  clean := by
    intro k hdirty hdeleted
    dsimp only [FolderVault.deleteId] at hdirty hdeleted ⊢
    have hne : k ≠ id := by
      rintro rfl
      simp at hdeleted
    rw [KeyedMap.get_set_ne hne] at hdeleted
    rw [KeyedMap.get_delete, if_neg hne] at hdirty ⊢
    exact h.clean k hdirty hdeleted
  deleted := by
    intro k hdeleted
    dsimp only [FolderVault.deleteId] at hdeleted ⊢
    rw [KeyedMap.get_delete]
    split
    · rfl
    · rename_i hne
      rw [KeyedMap.get_set_ne hne] at hdeleted
      exact h.deleted k hdeleted
  dirty := by
    intro k hdirty
    dsimp only [FolderVault.deleteId] at hdirty ⊢
    rw [KeyedMap.get_delete] at hdirty ⊢
    by_cases hne : k = id
    · rw [if_pos hne] at hdirty
      exact absurd rfl hdirty
    · rw [if_neg hne] at hdirty ⊢
      exact h.dirty k hdirty

theorem get_foldl_dirty (ids : KeyedMap ι DocumentIdEntry) (dirty : List (ι × Unit)) (m : KeyedMap ι DocumentIdEntry)
    (k : ι) : (dirty.foldl (fun m id => match ids.get id.1 with
      | some e => m.set id.1 e
      | none => m) m).get k = if k ∈ dirty.map Prod.fst then (ids.get k).or (m.get k) else m.get k := by
  induction dirty generalizing m with
  | nil => rfl
  | cons e dirty ih =>
    rw [List.foldl_cons, ih, List.map_cons]
    by_cases he : k = e.1
    · subst he
      cases hids : ids.get e.1 with
      | none => simp
      | some entry => simp
    · have hkeep : (match ids.get e.1 with
          | some entry => m.set e.1 entry
          | none => m).get k = m.get k := by
        cases ids.get e.1 with
        | none => rfl
        | some entry => exact KeyedMap.get_set_ne he
      rw [hkeep]
      by_cases hk : k ∈ dirty.map Prod.fst
      · rw [if_pos hk, if_pos (List.mem_cons_of_mem _ hk)]
      · rw [if_neg hk, if_neg (List.not_mem_cons_of_ne_of_not_mem he hk)]

theorem get_loadIds (h : Mirror file s) (id : ι) : (loadIds file s).ids.get id = s.ids.get id := by
  dsimp only [loadIds]
  rw [get_foldl_dirty, KeyedMap.get_foldl_delete]
  by_cases hdirty : s.dirtyIds.get id = none
  · rw [if_neg fun hkey => KeyedMap.mem_keys.mp hkey hdirty]
    by_cases hdeleted : s.deletedIds.get id = none
    · rw [if_neg fun hkey => KeyedMap.mem_keys.mp hkey hdeleted]
      exact (h.clean id hdirty hdeleted).symm
    · rw [if_pos (KeyedMap.mem_keys.mpr hdeleted)]
      exact (h.deleted id hdeleted).symm
  · rw [if_pos (KeyedMap.mem_keys.mpr hdirty)]
    obtain ⟨entry, hentry⟩ := Option.ne_none_iff_exists'.mp (h.dirty id hdirty)
    rw [hentry]
    rfl

structure Saved (file : Option (DocumentsFile ι)) (s : Session ι) : Prop where
  dirty : s.dirtyIds.entries = []
  deleted : s.deletedIds.entries = []
  same : ∀ id, (documents file).get id = s.ids.get id

theorem Saved.mirror (h : Saved file s) : Mirror file s where
  clean := by
    intro id _ _
    exact (h.same id).symm
  deleted := by
    intro id hid
    rw [KeyedMap.get, h.deleted] at hid
    exact absurd rfl hid
  dirty := by
    intro id hid
    rw [KeyedMap.get, h.dirty] at hid
    exact absurd rfl hid

theorem saved_loadIds (file : Option (DocumentsFile ι)) : Saved file (loadIds file .fresh) where
  dirty := rfl
  deleted := rfl
  same := fun _ => rfl

theorem saveIds_saved (force : Bool) (h : Mirror file s) :
    Saved (saveIds localeCompare force file s).1 (saveIds localeCompare force file s).2 ∧
      (∀ id, (saveIds localeCompare force file s).2.ids.get id = s.ids.get id) ∧
      (saveIds localeCompare force file s).2.directory = s.directory := by
  unfold saveIds
  split
  · rename_i hnothing
    simp only [Bool.and_eq_true, List.isEmpty_iff] at hnothing
    obtain ⟨⟨-, hdirty⟩, hdeleted⟩ := hnothing
    refine ⟨⟨hdirty, hdeleted, ?_⟩, fun _ => rfl, rfl⟩
    intro id
    have hclean : s.dirtyIds.get id = none := by
      rw [KeyedMap.get, hdirty]
      rfl
    have hkept : s.deletedIds.get id = none := by
      rw [KeyedMap.get, hdeleted]
      rfl
    exact (h.clean id hclean hkept).symm
  · refine ⟨⟨rfl, rfl, ?_⟩, fun id => get_loadIds h id, rfl⟩
    intro id
    exact KeyedMap.get_sort _

end Savoire.FolderVault
