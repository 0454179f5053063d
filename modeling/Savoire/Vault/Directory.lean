import Savoire.Library.KeyedMap
import Savoire.Vault.Names

/-! The directory of a vault, and what its client does to it: a document is a path under an id,
and to delete is to rename into the trash. -/
namespace Savoire.VaultClient
open VaultIndex (isTrashPath)

abbrev DocId := Text

/-- `YMapVaultDirectory`: the paths by id, and the folders that have an entry of their own. -/
structure Directory where
  map : KeyedMap DocId Text
  folderMap : KeyedMap Text Unit

namespace Directory
variable (d : Directory)

def getAll : List (DocId × Text) := d.map.entries

def getById (id : DocId) : Option Text := d.map.get id

def add (id : DocId) (path : Text) : Directory := { d with map := d.map.set id path }

def remove (id : DocId) : Directory := { d with map := d.map.delete id }

def rename (id : DocId) (newPath : Text) : Directory :=
  if d.map.has id then { d with map := d.map.set id newPath } else d

def addFolder (path : Text) : Directory := { d with folderMap := d.folderMap.set path () }

def removeFolder (path : Text) : Directory := { d with folderMap := d.folderMap.delete path }

def getFolders : List Text := d.folderMap.entries.map Prod.fst

def paths : List Text := d.getAll.map Prod.snd

/-- No two documents have one path. -/
def Distinct : Prop :=
  ∀ i j path, d.getById i = some path → d.getById j = some path → i = j

end Directory

/-- `_findDocumentByPath`. -/
def findDocumentByPath (d : Directory) (path : Text) : Option (DocId × Text) :=
  d.getAll.find? fun doc => doc.2 = path

def trash (d : Directory) (documentId : DocId) : Directory × Option Text :=
  match d.getById documentId with
  | none => (d, none)
  | some path =>
    if isTrashPath path then (d, some path)
    else
      let target := trashPathFor path d.paths
      (d.rename documentId target, some target)

def deleteFile (d : Directory) (documentId : DocId) : Directory := (trash d documentId).1

/-- A folder path with its final `/`. -/
def folderStart (path : Text) : Text := if Links.endsWith path "/".toList then path else path ++ "/".toList

def createFolder (d : Directory) (path : Text) : Directory := d.addFolder (folderStart path)

/-- One document of `deleteFolder`. -/
def trashUnder (start : Text) (d : Directory) (doc : DocId × Text) : Directory :=
  if doc.2.startsWith start then (trash d doc.1).1 else d

def deleteFolder (d : Directory) (path : Text) : Directory :=
  let start := folderStart path
  let trashed := d.getAll.foldl (trashUnder start) d
  trashed.getFolders.foldl (fun acc f => if f = start ∨ f.startsWith start then acc.removeFolder f else acc) trashed

def documentNotFound (documentId : DocId) : Text := "Document not found: ".toList ++ documentId

def restoreFromTrash (d : Directory) (documentId : DocId) : Except Text (Directory × Text) :=
  match d.getById documentId with
  | none => .error (documentNotFound documentId)
  | some path =>
    if ¬ isTrashPath path then .ok (d, path)
    else
      let target := restorePathFor path d.paths
      .ok (d.rename documentId target, target)

def deleteFilePermanently (d : Directory) (documentId : DocId) : Except Text Directory :=
  match d.getById documentId with
  | none => .ok d
  | some path =>
    if ¬ isTrashPath path then
      .error "Seul un document de la corbeille peut etre supprime definitivement.".toList
    else .ok (d.remove documentId)

section
variable {d : Directory} {id j : DocId} {path p : Text}

theorem Directory.mem_getAll : (id, path) ∈ d.getAll ↔ d.getById id = some path := KeyedMap.mem_iff

theorem Directory.mem_paths : path ∈ d.paths ↔ ∃ id, d.getById id = some path := by
  constructor
  · intro h
    obtain ⟨⟨id, p⟩, hmem, rfl⟩ := List.mem_map.1 h
    exact ⟨id, Directory.mem_getAll.1 hmem⟩
  · rintro ⟨id, h⟩
    exact List.mem_map.2 ⟨(id, path), Directory.mem_getAll.2 h, rfl⟩

theorem Directory.getById_add : (d.add id path).getById j = if j = id then some path else d.getById j :=
  KeyedMap.get_set

theorem Directory.getById_remove : (d.remove id).getById j = if j = id then none else d.getById j :=
  KeyedMap.get_delete

theorem Directory.getById_rename (h : d.getById id = some p) :
    (d.rename id path).getById j = if j = id then some path else d.getById j := by
  have hhas : d.map.has id = true := KeyedMap.has_iff.2 ⟨p, h⟩
  rw [Directory.rename, if_pos hhas]
  exact KeyedMap.get_set

theorem Directory.distinct_single (folders : KeyedMap Text Unit) :
    (⟨KeyedMap.empty.set id path, folders⟩ : Directory).Distinct := by
  have honly : ∀ j p, (KeyedMap.empty.set id path).get j = some p → j = id := by
    intro j p hj
    rw [KeyedMap.get_set] at hj
    split at hj
    · assumption
    · cases hj
  exact fun i j p hi hj => (honly i p hi).trans (honly j p hj).symm

theorem trash_cases (d : Directory) (id : DocId) :
    ((trash d id).1 = d ∧ ∀ path, d.getById id = some path → isTrashPath path = true) ∨
      ∃ path, d.getById id = some path ∧ isTrashPath path = false ∧
        (trash d id).1 = d.rename id (trashPathFor path d.paths) := by
  unfold trash
  split
  · rename_i hnone
    refine .inl ⟨rfl, fun path hpath => ?_⟩
    rw [hnone] at hpath
    cases hpath
  · rename_i path hpath
    split
    · refine .inl ⟨rfl, fun p hp => ?_⟩
      rw [hpath] at hp
      rwa [← Option.some.inj hp]
    · rename_i htrash
      exact .inr ⟨path, hpath, by simpa using htrash, rfl⟩

theorem restoreFromTrash_cases {r : Directory × Text} (h : restoreFromTrash d id = .ok r) :
    (r.1 = d ∧ d.getById id = some r.2 ∧ isTrashPath r.2 = false) ∨ ∃ path, d.getById id = some path ∧
      isTrashPath path = true ∧ r.2 = restorePathFor path d.paths ∧ r.1 = d.rename id r.2 := by
  unfold restoreFromTrash at h
  split at h
  · cases h
  · rename_i path hpath
    split at h
    · rename_i htrash
      cases h
      exact .inl ⟨rfl, hpath, by simpa using htrash⟩
    · rename_i htrash
      cases h
      exact .inr ⟨path, hpath, by simpa using htrash, rfl, rfl⟩

theorem deleteFilePermanently_cases {d' : Directory} (h : deleteFilePermanently d id = .ok d') :
    (d' = d ∧ d.getById id = none) ∨ ∃ path, d.getById id = some path ∧ isTrashPath path = true ∧ d' = d.remove id := by
  unfold deleteFilePermanently at h
  split at h
  · cases h
    exact .inl ⟨rfl, ‹_›⟩
  · rename_i path hpath
    split at h
    · cases h
    · rename_i htrash
      cases h
      exact .inr ⟨path, hpath, by simpa using htrash, rfl⟩

/-- Every document stays, only those of `who` may have another path, and paths that were distinct
still are. -/
structure Moved (who : DocId → Prop) (d d' : Directory) : Prop where
  distinct : d.Distinct → d'.Distinct
  new : ∀ id, d.getById id = none → d'.getById id = none
  stays : ∀ id, d.getById id ≠ none → d'.getById id ≠ none
  kept : ∀ id, ¬ who id → d'.getById id = d.getById id

theorem Moved.refl {who : DocId → Prop} (d : Directory) : Moved who d d :=
  ⟨fun h => h, fun _ h => h, fun _ h => h, fun _ _ => rfl⟩

theorem Moved.trans {who : DocId → Prop} {a b c : Directory} (hab : Moved who a b) (hbc : Moved who b c) :
    Moved who a c where
  distinct h := hbc.distinct (hab.distinct h)
  new id h := hbc.new id (hab.new id h)
  stays id h := hbc.stays id (hab.stays id h)
  kept id h := (hbc.kept id h).trans (hab.kept id h)

theorem Moved.weaken {who who' : DocId → Prop} {a b : Directory} (h : Moved who a b) (hw : ∀ id, who id → who' id) :
    Moved who' a b :=
  ⟨h.distinct, h.new, h.stays, fun id hid => h.kept id fun hwho => hid (hw id hwho)⟩

theorem Directory.Distinct.put (h : d.Distinct) (hfree : path ∉ d.paths) {d' : Directory}
    (hd' : ∀ j, d'.getById j = if j = id then some path else d.getById j) : d'.Distinct := by
  have hother : ∀ i, d.getById i ≠ some path := fun i hi => hfree (Directory.mem_paths.2 ⟨i, hi⟩)
  intro i k p hi hk
  rw [hd'] at hi hk
  split at hi
  · rename_i heq
    cases hi
    split at hk
    · rename_i hkeq
      exact heq.trans hkeq.symm
    · exact absurd hk (hother k)
  · split at hk
    · cases hk
      exact absurd hi (hother i)
    · exact h i k p hi hk

theorem moved_rename (h : d.getById id = some p) (hfree : path ∉ d.paths) : Moved (· = id) d (d.rename id path) where
  distinct hd := hd.put hfree fun j => Directory.getById_rename h
  new j hj := by
    have hne : j ≠ id := by
      rintro rfl
      rw [h] at hj
      cases hj
    rw [Directory.getById_rename h, if_neg hne]
    exact hj
  stays j hj := by
    rw [Directory.getById_rename h]
    split
    · exact Option.some_ne_none path
    · exact hj
  kept j hj := by
    rw [Directory.getById_rename h, if_neg hj]

theorem moved_trash (d : Directory) (id : DocId) : Moved (· = id) d (trash d id).1 := by
  obtain ⟨hsame, -⟩ | ⟨path, hpath, -, htrash⟩ := trash_cases d id
  · rw [hsame]
    exact .refl d
  · rw [htrash]
    exact moved_rename hpath uniquePath_not_mem

theorem moved_restore {r : Directory × Text} (h : restoreFromTrash d id = .ok r) : Moved (· = id) d r.1 := by
  obtain ⟨hsame, -⟩ | ⟨path, hpath, -, htarget, hr⟩ := restoreFromTrash_cases h
  · rw [hsame]
    exact .refl d
  · rw [hr]
    have hfree : r.2 ∉ d.paths := by
      rw [htarget]
      exact uniquePath_not_mem
    exact moved_rename hpath hfree

theorem moved_foldl_trashUnder (start : Text) (docs : List (DocId × Text)) (d : Directory) :
    Moved (fun id => ∃ path, (id, path) ∈ docs ∧ path.startsWith start = true) d
      (docs.foldl (trashUnder start) d) := by
  induction docs generalizing d with
  | nil => exact .refl d
  | cons doc docs ih =>
    have hrest : Moved (fun id => ∃ path, (id, path) ∈ doc :: docs ∧ path.startsWith start = true)
        (trashUnder start d doc) (docs.foldl (trashUnder start) (trashUnder start d doc)) := by
      refine (ih (trashUnder start d doc)).weaken ?_
      rintro id ⟨path, hmem, hstart⟩
      exact ⟨path, List.mem_cons_of_mem doc hmem, hstart⟩
    refine Moved.trans ?_ hrest
    unfold trashUnder
    split
    · rename_i hstart
      refine (moved_trash d doc.1).weaken ?_
      rintro id rfl
      exact ⟨doc.2, List.mem_cons_self, hstart⟩
    · exact .refl d

theorem getById_deleteFolder (d : Directory) (dir : Text) (j : DocId) :
    (deleteFolder d dir).getById j = (d.getAll.foldl (trashUnder (folderStart dir)) d).getById j := by
  have hall : ∀ (fs : List Text) (d : Directory), (fs.foldl (fun acc f =>
      if f = folderStart dir ∨ f.startsWith (folderStart dir) then acc.removeFolder f else acc) d).map = d.map := by
    intro fs
    induction fs with
    | nil => exact fun _ => rfl
    | cons f fs ih =>
      intro d
      rw [List.foldl_cons, ih]
      split
      · rfl
      · rfl
  exact congrArg (·.get j) (hall _ _)

theorem moved_deleteFolder (d : Directory) (dir : Text) :
    Moved (fun id => ∃ path, d.getById id = some path ∧ path.startsWith (folderStart dir) = true) d
      (deleteFolder d dir) := by
  have hmoved := moved_foldl_trashUnder (folderStart dir) d.getAll d
  have hget := getById_deleteFolder d dir
  have hall : Moved (fun id => ∃ path, (id, path) ∈ d.getAll ∧ path.startsWith (folderStart dir) = true) d
      (deleteFolder d dir) := by
    refine ⟨?_, ?_, ?_, ?_⟩
    · intro hd i j p hi hj
      exact hmoved.distinct hd i j p (hget i ▸ hi) (hget j ▸ hj)
    · intro id hid
      rw [hget]
      exact hmoved.new id hid
    · intro id hid
      rw [hget]
      exact hmoved.stays id hid
    · intro id hid
      rw [hget]
      exact hmoved.kept id hid
  refine hall.weaken ?_
  rintro id ⟨path, hmem, hstart⟩
  exact ⟨path, Directory.mem_getAll.1 hmem, hstart⟩

theorem trash_of_trashed (h : d.getById j = some p) (hp : isTrashPath p = true) :
    (trash d id).1.getById j = some p := by
  obtain ⟨hsame, -⟩ | ⟨path, hpath, hout, htrash⟩ := trash_cases d id
  · rw [hsame]
    exact h
  · have hne : j ≠ id := by
      rintro rfl
      rw [h] at hpath
      cases hpath
      rw [hp] at hout
      cases hout
    rw [htrash, Directory.getById_rename hpath, if_neg hne]
    exact h

theorem deleteFolder_of_trashed (dir : Text) (h : d.getById j = some p) (hp : isTrashPath p = true) :
    (deleteFolder d dir).getById j = some p := by
  have hall : ∀ (docs : List (DocId × Text)) (d : Directory), d.getById j = some p →
      (docs.foldl (trashUnder (folderStart dir)) d).getById j = some p := by
    intro docs
    induction docs with
    | nil => exact fun _ hd => hd
    | cons doc docs ih =>
      intro d hd
      refine ih _ ?_
      unfold trashUnder
      split
      · exact trash_of_trashed hd hp
      · exact hd
  exact (getById_deleteFolder d dir j).trans (hall d.getAll d h)

theorem of_trash_of_not_trashed (h : (trash d id).1.getById j = some p) (hp : isTrashPath p = false) :
    d.getById j = some p ∧ j ≠ id := by
  obtain ⟨hsame, htrashed⟩ | ⟨path, hpath, -, htrash⟩ := trash_cases d id
  · rw [hsame] at h
    refine ⟨h, ?_⟩
    rintro rfl
    rw [htrashed p h] at hp
    cases hp
  · rw [htrash, Directory.getById_rename hpath] at h
    split at h
    · rw [← Option.some.inj h, isTrashPath_trashPathFor] at hp
      cases hp
    · exact ⟨h, ‹_›⟩

theorem of_deleteFolder_of_not_trashed {dir : Text} (h : (deleteFolder d dir).getById j = some p)
    (hp : isTrashPath p = false) : d.getById j = some p ∧ ¬ folderStart dir <+: p := by
  have hall : ∀ (docs : List (DocId × Text)) (d : Directory),
      (docs.foldl (trashUnder (folderStart dir)) d).getById j = some p →
        d.getById j = some p ∧ ∀ path, (j, path) ∈ docs → ¬ folderStart dir <+: path := by
    intro docs
    induction docs with
    | nil => exact fun d hd => ⟨hd, fun path hmem => absurd hmem List.not_mem_nil⟩
    | cons doc docs ih =>
      intro d hd
      obtain ⟨hstep, hrest⟩ := ih _ hd
      unfold trashUnder at hstep
      split at hstep
      · obtain ⟨hbefore, hne⟩ := of_trash_of_not_trashed hstep hp
        refine ⟨hbefore, fun path hmem => ?_⟩
        obtain hfirst | hmem := List.mem_cons.1 hmem
        · exact absurd (congrArg Prod.fst hfirst) hne
        · exact hrest path hmem
      · rename_i hout
        refine ⟨hstep, fun path hmem => ?_⟩
        obtain rfl | hmem := List.mem_cons.1 hmem
        · rwa [Text.startsWith_iff] at hout
        · exact hrest path hmem
  rw [getById_deleteFolder] at h
  obtain ⟨hbefore, hout⟩ := hall d.getAll d h
  exact ⟨hbefore, hout p (Directory.mem_getAll.2 hbefore)⟩

theorem trash_of_free (h : d.getById id = some p) (hp : isTrashPath p = false) (hfree : trashDir ++ p ∉ d.paths) :
    (trash d id).1.getById id = some (trashDir ++ p) := by
  have htarget : trashPathFor p d.paths = trashDir ++ p := uniquePath_of_free hfree
  unfold trash
  rw [h]
  simp only [hp, Bool.false_eq_true, ↓reduceIte, htarget]
  rw [Directory.getById_rename h, if_pos rfl]

theorem restore_of_free {r : Directory × Text} (h : d.getById id = some (trashDir ++ p)) (hfree : p ∉ d.paths)
    (hr : restoreFromTrash d id = .ok r) : r.1.getById id = some p ∧ r.2 = p := by
  obtain ⟨-, hpath, hout⟩ | ⟨path, hpath, -, htarget, hr1⟩ := restoreFromTrash_cases hr
  · rw [h] at hpath
    rw [← Option.some.inj hpath, isTrashPath_append] at hout
    cases hout
  · rw [h] at hpath
    have hback : r.2 = p := by
      rw [htarget, ← Option.some.inj hpath, restorePathFor, originalPathOf_trash]
      exact uniquePath_of_free hfree
    rw [hr1, hback, Directory.getById_rename h, if_pos rfl]
    exact ⟨rfl, rfl⟩

end
end Savoire.VaultClient
