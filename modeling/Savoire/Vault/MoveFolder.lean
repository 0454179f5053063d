import Savoire.Links.Target
import Savoire.Vault.FolderTree

/-! A folder that moves: when every document of it ends at its new path, and when nothing changes. -/
namespace Savoire.FolderOps
open VaultClient
open VaultIndex (isTrashPath nameOf beforeLast afterLast)
open Links (fileExtensionOf withNoteExtension)

section Definitions
variable (host : Links.Host) (resolveDoc : Directory → Text → Option DocId) (start target : Text) (d d' : Directory)

/-- Every document of the folder is at its new path, the others where they were, and the folder has
left no entry behind. -/
structure Placed : Prop where
  documents : ∀ id, d'.getById id = (d.getById id).map (rebasePath · start target)
  distinct : d'.Distinct
  recreated : ∀ e ∈ d.getFolders, start <+: e → (∀ path ∈ d.paths, ¬ e <+: path) →
    rebasePath e start target ∈ d'.getFolders
  removed : ∀ e ∈ d'.getFolders, ¬ start <+: e

/-- A document has one of the new paths. -/
def Taken : Prop := ∃ path ∈ d.paths, start <+: path ∧ rebasePath path start target ∈ d.paths

/-- Either nothing has changed, for one of the two reasons, or everything is in its place. -/
def Kept : Directory × Except Text (List Move) → Prop
  | (d', .error _) => d' = d ∧ (isInside target start = true ∨ Taken start target d)
  | (d', .ok _) => Placed start target d d'

def AllOrNothing : Prop :=
  ∃ fuel outcome, moveFolder host resolveDoc start target fuel d = some outcome ∧ Kept start target d outcome

/-- What the folder must be for its move to end: its entries are folders, its documents have an
extension, no lookup finds a document for their new path, the lookup of their own path finds them,
and neither they nor the empty folders move into the old folder. -/
structure Movable : Prop where
  entries : ∀ e ∈ d.getFolders, start <+: e → isFolder e = true
  extension : ∀ path ∈ d.paths, start <+: path → fileExtensionOf path ≠ []
  free : ∀ path ∈ d.paths, start <+: path →
    resolveDocumentId host resolveDoc d (rebasePath path start target) = none
  itself : ∀ path ∈ d.paths, start <+: path → (lookup d path).map Prod.snd = some path
  away : ∀ path ∈ d.paths, start <+: path → ¬ start <+: rebasePath path start target
  emptyAway : ∀ e ∈ d.getFolders, start <+: e → (∀ path ∈ d.paths, ¬ e <+: path) →
    ¬ start <+: rebasePath e start target

def Clear : Prop :=
  if start = target then ∀ e ∈ d.getFolders, ¬ start <+: e
  else isInside target start = true ∨
    Proper d start ∧ (Taken start target d ∨ Movable host resolveDoc start target d)

/-- The directory when the files of `done` have moved. -/
def movedTo (done : List Text) : Directory :=
  { d with map := d.map.map fun _ path => if path ∈ done then rebasePath path start target else path }

def move (file : Text) : Move := ⟨file, rebasePath file start target⟩

end Definitions

section Find
variable {α : Type*} {l : List α} {p : α → Bool} {g : α → α} {a b : α}

theorem find?_map_of (h : l.find? p = some a) (ha : p (g a) = true) (hall : ∀ x ∈ l, p (g x) = true → p x = true) :
    (l.map g).find? p = some (g a) := by
  induction l with
  | nil => cases h
  | cons x l ih =>
    rw [List.find?_cons] at h
    rw [List.map_cons, List.find?_cons]
    cases hx : p x with
    | true =>
      rw [hx] at h
      cases h
      rw [ha]
    | false =>
      have hgx : p (g x) = false := by
        rw [← Bool.not_eq_true]
        intro hgx
        rw [hall x List.mem_cons_self hgx] at hx
        cases hx
      rw [hx] at h
      rw [hgx]
      exact ih h fun y hy => hall y (List.mem_cons_of_mem x hy)

theorem find?_eq_of_map (h : l.find? p = some a) (hb : (l.map g).find? p = some b) (ha : p (g a) = true)
    (hall : ∀ x ∈ l, g x = b → p x = true) : b = g a := by
  induction l with
  | nil => cases h
  | cons x l ih =>
    rw [List.find?_cons] at h
    rw [List.map_cons, List.find?_cons] at hb
    cases hx : p x with
    | true =>
      rw [hx] at h
      cases h
      rw [ha] at hb
      exact (Option.some.inj hb).symm
    | false =>
      rw [hx] at h
      cases hgx : p (g x) with
      | true =>
        rw [hgx] at hb
        rw [hall x List.mem_cons_self (Option.some.inj hb)] at hx
        cases hx
      | false =>
        rw [hgx] at hb
        exact ih h hb fun y hy => hall y (List.mem_cons_of_mem x hy)

end Find

section Paths
variable {start target path q rest dir : Text}

theorem rebasePath_append (start target rest : Text) : rebasePath (start ++ rest) start target = target ++ rest := by
  rw [rebasePath, if_pos (by simp), List.drop_left]

theorem rebasePath_of_not (h : ¬ start <+: path) : rebasePath path start target = path := by
  rw [rebasePath, if_neg (by simpa using h)]

theorem rebasePath_injective (hp : start <+: path) (hq : start <+: q)
    (h : rebasePath path start target = rebasePath q start target) : path = q := by
  obtain ⟨u, rfl⟩ := hp
  obtain ⟨v, rfl⟩ := hq
  rw [rebasePath_append, rebasePath_append] at h
  rw [List.append_cancel_left h]

theorem rebasePath_self (start path : Text) : rebasePath path start start = path := by
  by_cases h : start <+: path
  · obtain ⟨u, rfl⟩ := h
    exact rebasePath_append start start u
  · exact rebasePath_of_not h

theorem ne_rebasePath (hne : start ≠ target) (hp : start <+: path) : path ≠ rebasePath path start target := by
  obtain ⟨u, rfl⟩ := hp
  rw [rebasePath_append]
  exact fun h => hne (List.append_cancel_right h)

theorem nameOf_append (hdir : isFolder dir = true) (rest : Text) : nameOf (dir ++ rest) = nameOf rest := by
  obtain ⟨u, rfl⟩ := isFolder_iff.1 hdir
  rw [List.append_assoc]
  exact afterLast_append '/' u rest

theorem fileExtensionOf_append (hdir : isFolder dir = true) (rest : Text) :
    fileExtensionOf (dir ++ rest) = fileExtensionOf rest := by
  rw [fileExtensionOf, fileExtensionOf, nameOf_append hdir]

theorem fileExtensionOf_rebasePath (hstart : isFolder start = true) (htarget : isFolder target = true)
    (hp : start <+: path) : fileExtensionOf (rebasePath path start target) = fileExtensionOf path := by
  obtain ⟨u, rfl⟩ := hp
  rw [rebasePath_append, fileExtensionOf_append htarget, fileExtensionOf_append hstart]

theorem nameOf_ne_nil (h : isFolder path = false) (hne : path ≠ []) : nameOf path ≠ [] := by
  intro hnil
  have hlast := List.rtakeWhile_eq_nil_iff.1 hnil hne
  have hslash : path.getLast hne = '/' := by simpa using hlast
  have hfolder : isFolder path = true :=
    isFolder_iff.2 ⟨path.dropLast, by rw [← hslash, List.dropLast_append_getLast]⟩
  rw [h] at hfolder
  cases hfolder

theorem fileExtensionOf_withNoteExtension (h : nameOf path ≠ []) : fileExtensionOf (withNoteExtension path) ≠ [] := by
  unfold withNoteExtension
  split
  · assumption
  · -- the name is now `Nom.md`
    have hname : nameOf (path ++ Links.noteExt) = nameOf path ++ '.' :: "md".toList :=
      afterLast_append_of_notMem path (by decide)
    have hbefore : beforeLast '.' (nameOf (path ++ Links.noteExt)) = some (nameOf path) := by
      rw [hname]
      exact beforeLast_append _ (by decide)
    have hafter : afterLast '.' (nameOf (path ++ Links.noteExt)) = "md".toList := by
      rw [hname, afterLast_append]
      decide
    cases hn : nameOf path with
    | nil => exact absurd hn h
    | cons c rest =>
      rw [fileExtensionOf, hbefore, hn]
      dsimp only
      rw [hafter]
      decide

theorem withNoteExtension_of_extension (h : fileExtensionOf path ≠ []) : withNoteExtension path = path := if_pos h

end Paths

section Folders
variable {d : Directory} {start target : Text} {e : Text}

theorem getFolders_trash (d : Directory) (id : DocId) : (trash d id).1.getFolders = d.getFolders := by
  obtain ⟨hsame, -⟩ | ⟨path, hpath, -, htrash⟩ := trash_cases d id
  · rw [hsame]
  · rw [htrash, Directory.rename]
    split
    · rfl
    · rfl

theorem getFolders_foldl_trashUnder (docs : List (DocId × Text)) (d : Directory) :
    (docs.foldl (trashUnder start) d).getFolders = d.getFolders := by
  induction docs generalizing d with
  | nil => rfl
  | cons doc docs ih =>
    rw [List.foldl_cons, ih, trashUnder]
    split
    · exact getFolders_trash d doc.1
    · rfl

theorem mem_getFolders : e ∈ d.getFolders ↔ d.folderMap.get e ≠ none := KeyedMap.mem_keys

theorem mem_getFolders_removeFolder (f : Text) : e ∈ (d.removeFolder f).getFolders ↔ e ≠ f ∧ e ∈ d.getFolders := by
  rw [mem_getFolders, mem_getFolders, Directory.removeFolder]
  rw [KeyedMap.get_delete]
  by_cases he : e = f
  · simp [he]
  · simp [he]

theorem mem_getFolders_addFolder (f : Text) : e ∈ (d.addFolder f).getFolders ↔ e = f ∨ e ∈ d.getFolders := by
  rw [mem_getFolders, mem_getFolders, Directory.addFolder]
  rw [KeyedMap.get_set]
  by_cases he : e = f
  · simp [he]
  · simp [he]

theorem mem_getFolders_deleteFolder (hstart : isFolder start = true) :
    e ∈ (deleteFolder d start).getFolders ↔ e ∈ d.getFolders ∧ ¬ start <+: e := by
  have hall : ∀ (fs : List Text) (d : Directory), e ∈ (fs.foldl (fun acc f =>
      if f = start ∨ f.startsWith start then acc.removeFolder f else acc) d).getFolders ↔
        e ∈ d.getFolders ∧ ¬ (e ∈ fs ∧ start <+: e) := by
    intro fs
    induction fs with
    | nil => simp
    | cons f fs ih =>
      intro d
      rw [List.foldl_cons, ih]
      by_cases hf : f = start ∨ f.startsWith start = true
      · have hpre : start <+: f := by
          obtain rfl | hf := hf
          · exact List.prefix_refl _
          · exact (Text.startsWith_iff f start).1 hf
        rw [if_pos hf, mem_getFolders_removeFolder, List.mem_cons]
        by_cases he : e = f
        · simp [he, hpre]
        · simp [he]
      · have hpre : ¬ start <+: f := fun h => hf (.inr ((Text.startsWith_iff f start).2 h))
        rw [if_neg hf, List.mem_cons]
        by_cases he : e = f
        · subst he
          simp [hpre]
        · simp [he]
  have htrashed := @getFolders_foldl_trashUnder start d.getAll d
  rw [deleteFolder, folderStart_of_folder hstart, hall, htrashed]
  constructor
  · rintro ⟨he, hnot⟩
    exact ⟨he, fun hpre => hnot ⟨he, hpre⟩⟩
  · rintro ⟨he, hnot⟩
    exact ⟨he, fun h => hnot h.2⟩

theorem createEmpty_map (content : FolderContent) (d : Directory) : (createEmpty start target content d).map = d.map := by
  obtain ⟨files, folders⟩ := content
  unfold createEmpty
  induction folders generalizing d with
  | nil => rfl
  | cons f folders ih =>
    rw [List.foldl_cons, ih]
    split
    · rfl
    · rfl

theorem mem_createEmpty (content : FolderContent) (d : Directory) :
    e ∈ (createEmpty start target content d).getFolders ↔ e ∈ d.getFolders ∨
      ∃ folder ∈ content.folders, content.files.any (·.startsWith folder) = false ∧
        folderStart (rebasePath folder start target) = e := by
  obtain ⟨files, folders⟩ := content
  unfold createEmpty
  induction folders generalizing d with
  | nil => simp
  | cons f folders ih =>
    rw [List.foldl_cons, ih]
    cases hany : files.any (·.startsWith f) with
    | true => simp only [↓reduceIte, List.mem_cons, exists_eq_or_imp, hany, Bool.true_eq_false, false_and, false_or]
    | false =>
      simp only [Bool.false_eq_true, ↓reduceIte, createFolder, mem_getFolders_addFolder, List.mem_cons,
        exists_eq_or_imp, hany, true_and]
      constructor
      · rintro ((rfl | he) | he)
        · exact .inr (.inl rfl)
        · exact .inl he
        · exact .inr (.inr he)
      · rintro (he | rfl | he)
        · exact .inl (.inr he)
        · exact .inl (.inl rfl)
        · exact .inr he

end Folders

section Rename
variable {host : Links.Host} {resolveDoc : Directory → Text → Option DocId} {start target : Text}
  {d d' : Directory} {files done : List Text} {moves : List Move} {id : DocId} {file p : Text}

theorem getById_movedTo : (movedTo start target d done).getById id =
    (d.getById id).map fun path => if path ∈ done then rebasePath path start target else path :=
  KeyedMap.get_map _

theorem movedTo_nil : movedTo start target d [] = d := by
  have hmap : d.map.map (fun _ path => if path ∈ ([] : List Text) then rebasePath path start target else path) = d.map := by
    simp [KeyedMap.map]
  rw [movedTo, hmap]

theorem renameDocument_movedTo (hd : d.Distinct) (hid : d.getById id = some file)
    (hext : withNoteExtension (rebasePath file start target) = rebasePath file start target) :
    renameDocument (movedTo start target d done) id (rebasePath file start target) =
      movedTo start target d (done ++ [file]) := by
  have hthere : (movedTo start target d done).map.get id ≠ none := by
    have hget := @getById_movedTo start target d done id
    rw [hid] at hget
    unfold Directory.getById at hget
    rw [hget]
    exact Option.some_ne_none _
  have hhas : (movedTo start target d done).map.has id = true := by
    obtain ⟨path, hpath⟩ := Option.ne_none_iff_exists'.1 hthere
    exact KeyedMap.has_iff.2 ⟨path, hpath⟩
  have hold : d.map.get id ≠ none := by
    have hid : d.map.get id = some file := hid
    rw [hid]
    exact Option.some_ne_none _
  rw [renameDocument, hext, Directory.rename, if_pos hhas]
  unfold movedTo
  rw [KeyedMap.set_map _ hold]
  congr 1
  refine KeyedMap.map_congr fun k x hx => ?_
  by_cases hk : k = id
  · subst hk
    have hxf : x = file := Option.some.inj (hx.symm.trans hid)
    simp [hxf]
  · have hxf : x ≠ file := by
      rintro rfl
      exact hk (hd k id x hx hid)
    simp [hk, hxf]

theorem renameAll_append (a b : List Text) (h : renameAll host resolveDoc start target a d moves = (d', .ok r)) :
    renameAll host resolveDoc start target (a ++ b) d moves = renameAll host resolveDoc start target b d' r := by
  induction a generalizing d moves with
  | nil =>
    cases h
    rfl
  | cons file a ih =>
    rw [List.cons_append, renameAll]
    rw [renameAll] at h
    split at h
    · cases h
    · exact ih h

theorem of_rename {j : DocId} {path : Text} (h : (renameDocument d j path).getById id = some p)
    (hne : d.getById id ≠ some p) : j = id ∧ withNoteExtension path = p := by
  cases hj : d.getById j with
  | none =>
    have hhas : ¬ d.map.has j = true := by
      rw [KeyedMap.has_iff]
      rintro ⟨q, hq⟩
      cases hj.symm.trans hq
    rw [renameDocument, Directory.rename, if_neg hhas] at h
    exact absurd h hne
  | some q =>
    rw [renameDocument, Directory.getById_rename hj] at h
    split at h
    · rename_i hij
      exact ⟨hij.symm, Option.some.inj h⟩
    · exact absurd h hne

theorem of_renameAll {r : List Move} (h : renameAll host resolveDoc start target files d moves = (d', .ok r))
    (hid : d'.getById id = some p) (hne : d.getById id ≠ some p) :
    ∃ a file b d1 r1, files = a ++ file :: b ∧ renameAll host resolveDoc start target a d moves = (d1, .ok r1) ∧
      resolveDocumentId host resolveDoc d1 file = some id ∧
      withNoteExtension (rebasePath file start target) = p := by
  induction files generalizing d moves with
  | nil =>
    cases h
    exact absurd hid hne
  | cons file files ih =>
    rw [renameAll] at h
    split at h
    · cases h
    · rename_i j hj
      by_cases hnext : (renameDocument d j (rebasePath file start target)).getById id = some p
      · obtain ⟨rfl, hp⟩ := of_rename hnext hne
        exact ⟨[], file, files, d, moves, rfl, rfl, hj, hp⟩
      · obtain ⟨a, g, b, d1, r1, rfl, ha, hg, hp⟩ := ih h hnext
        refine ⟨file :: a, g, b, d1, r1, rfl, ?_, hg, hp⟩
        rw [renameAll, hj]
        exact ha

theorem renameAll_movedTo (hd : d.Distinct) {files : List Text}
    (hext : ∀ f ∈ files, withNoteExtension (rebasePath f start target) = rebasePath f start target)
    (hown : ∀ a f b, files = a ++ f :: b →
      renameAll host resolveDoc start target a d [] = (movedTo start target d a, .ok (a.map (move start target))) →
        ∃ id, d.getById id = some f ∧ resolveDocumentId host resolveDoc (movedTo start target d a) f = some id)
    (a b : List Text) (hab : files = a ++ b) :
    renameAll host resolveDoc start target a d [] = (movedTo start target d a, .ok (a.map (move start target))) := by
  induction a using List.reverseRecOn generalizing b with
  | nil =>
    rw [movedTo_nil]
    rfl
  | append_singleton a f ih =>
    have hsplit : files = a ++ f :: b := by rw [hab, List.append_assoc]; rfl
    have ha := ih (f :: b) hsplit
    obtain ⟨id, hid, hresolve⟩ := hown a f b hsplit ha
    have hf : f ∈ files := by simp [hsplit]
    rw [renameAll_append a [f] ha, renameAll, hresolve]
    dsimp only
    rw [renameDocument_movedTo hd hid (hext f hf), renameAll, List.map_append]
    rfl

end Rename

section Lookup
variable {host : Links.Host} {resolveDoc : Directory → Text → Option DocId} {d : Directory} {path : Text}
  {doc : DocId × Text}

theorem resolve_of_lookup (h : lookup d path = some doc) : resolveDocumentId host resolveDoc d path = some doc.1 := by
  rw [resolveDocumentId, h]

theorem lookup_of_mem (h : path ∈ d.paths) : ∃ doc, lookup d path = some doc := by
  obtain ⟨id, hid⟩ := Directory.mem_paths.1 h
  rw [← Option.isSome_iff_exists, lookup, List.find?_isSome]
  exact ⟨(id, path), Directory.mem_getAll.2 hid, by simp⟩

theorem free_of_resolve (h : resolveDocumentId host resolveDoc d path = none) : path ∉ d.paths := by
  intro hpath
  obtain ⟨doc, hdoc⟩ := lookup_of_mem hpath
  rw [resolve_of_lookup hdoc] at h
  cases h

theorem of_lookup (h : lookup d path = some doc) :
    d.getById doc.1 = some doc.2 ∧ (doc.2 = path ∨ doc.2 = path ++ Links.noteExt) :=
  ⟨Directory.mem_getAll.1 (List.mem_of_find?_eq_some h), by simpa using List.find?_some h⟩

end Lookup

section Main
variable {host : Links.Host} {resolveDoc : Directory → Text → Option DocId} {start target : Text} {d : Directory}
  {renamed : Directory} {dirs : List Text} {fuel : ℕ} {f : Text} {id : DocId}

/-- The directory that a move leaves. -/
def placed (start target : Text) (d : Directory) (dirs : List Text) : Directory :=
  deleteFolder (createEmpty start target ⟨dirs.flatMap (filesOf d), dirs⟩
    (movedTo start target d (dirs.flatMap (filesOf d)))) start

theorem compareTexts_noteExt (f : Text) : compareTexts (f ++ Links.noteExt) f = .gt := by
  have hall : ∀ u v : List ℕ, v ≠ [] → compare (u ++ v) u = .gt := by
    intro u v hv
    induction u with
    | nil =>
      cases v with
      | nil => exact absurd rfl hv
      | cons n v => rfl
    | cons n u ih => rw [List.cons_append, List.compare_cons_cons, ih, Std.ReflOrd.compare_self]; rfl
  rw [compareTexts, compareOn, List.flatMap_append]
  exact hall _ _ (by decide)

theorem parentOf_append_noteExt (f : Text) : parentOf (f ++ Links.noteExt) = parentOf f := by
  have hname : nameOf (f ++ Links.noteExt) = nameOf f ++ Links.noteExt := afterLast_append_of_notMem f (by decide)
  have hwhole := parentOf_append_nameOf (f ++ Links.noteExt)
  rw [hname, ← List.append_assoc] at hwhole
  exact List.append_cancel_right ((List.append_cancel_right hwhole).trans (parentOf_append_nameOf f).symm)

def moveFiles (host : Links.Host) (resolveDoc : Directory → Text → Option DocId) (start target : Text) (d : Directory)
    (dirs : List Text) : Directory × Except Text (List Move) :=
  match conflict host resolveDoc start target d (dirs.flatMap (filesOf d)) with
  | some file => (d, .error (alreadyExists (rebasePath file start target)))
  | none =>
    match renameAll host resolveDoc start target (dirs.flatMap (filesOf d)) d [] with
    | (renamed, .error e) => (renamed, .error e)
    | (renamed, .ok moves) =>
      (deleteFolder (createEmpty start target ⟨dirs.flatMap (filesOf d), dirs⟩ renamed) start, .ok moves)

theorem moveFolder_eq (hne : start ≠ target) (hinside : isInside target start = false) :
    moveFolder host resolveDoc start target fuel d =
      (BreadthFirst.visit (subfolders d) fuel [start]).map (moveFiles host resolveDoc start target d) := by
  rw [moveFolder, if_neg hne, if_neg (by simp [hinside]), collectFolder_eq, Option.map_map]
  rfl

theorem moveFiles_of_conflict (h : conflict host resolveDoc start target d (dirs.flatMap (filesOf d)) = some f) :
    moveFiles host resolveDoc start target d dirs = (d, .error (alreadyExists (rebasePath f start target))) := by
  rw [moveFiles, h]

theorem moveFiles_of_renamed (h : conflict host resolveDoc start target d (dirs.flatMap (filesOf d)) = none)
    {moves : List Move}
    (hrename : renameAll host resolveDoc start target (dirs.flatMap (filesOf d)) d [] = (renamed, .ok moves)) :
    moveFiles host resolveDoc start target d dirs =
      (deleteFolder (createEmpty start target ⟨dirs.flatMap (filesOf d), dirs⟩ renamed) start, .ok moves) := by
  rw [moveFiles, h, hrename]

theorem moveFiles_of_lost (h : conflict host resolveDoc start target d (dirs.flatMap (filesOf d)) = none)
    {e : Text}
    (hrename : renameAll host resolveDoc start target (dirs.flatMap (filesOf d)) d [] = (renamed, .error e)) :
    moveFiles host resolveDoc start target d dirs = (renamed, .error e) := by
  rw [moveFiles, h, hrename]

section Walk
variable (hstart : isFolder start = true) (h : Walk d fuel start dirs)
include hstart h

theorem mem_files (hentries : ∀ e ∈ d.getFolders, start <+: e → isFolder e = true) :
    f ∈ dirs.flatMap (filesOf d) ↔ f ∈ d.paths ∧ start <+: f := by
  constructor
  · intro hf
    obtain ⟨hunder, hfile, hpath | hfolder⟩ := of_file hstart h hf
    · exact ⟨hpath, hunder⟩
    · rw [hentries f hfolder hunder] at hfile
      cases hfile
  · exact fun hf => document_found hstart h hf.1 hf.2

theorem nodup_files : (dirs.flatMap (filesOf d)).Nodup :=
  (files_ordered hstart h (fun _ => no_folder_document hstart h)).imp And.left

theorem own_of_movable (hm : Movable host resolveDoc start target d) {a b : List Text}
    (hsplit : dirs.flatMap (filesOf d) = a ++ f :: b) :
    ∃ id, d.getById id = some f ∧ resolveDocumentId host resolveDoc (movedTo start target d a) f = some id := by
  have hmem : ∀ g, g ∈ a ++ f :: b → g ∈ d.paths ∧ start <+: g := by
    intro g hg
    rw [← hsplit] at hg
    exact (mem_files hstart h hm.entries).1 hg
  obtain ⟨hpath, hunder⟩ := hmem f (by simp)
  have hnodup := nodup_files hstart h
  rw [hsplit] at hnodup
  have hfa : f ∉ a := fun hfa => (List.nodup_append.1 hnodup).2.2 f hfa f List.mem_cons_self rfl
  obtain ⟨⟨id, q⟩, hdoc, hq⟩ := Option.map_eq_some_iff.1 (hm.itself f hpath hunder)
  obtain rfl : q = f := hq
  refine ⟨id, (of_lookup hdoc).1, ?_⟩
  have hagain := find?_map_of (g := fun e : DocId × Text =>
    (e.1, if e.2 ∈ a then rebasePath e.2 start target else e.2)) hdoc (by simp [hfa]) ?_
  · rw [if_neg hfa] at hagain
    have hlookup : lookup (movedTo start target d a) q = some (id, q) := hagain
    exact resolve_of_lookup hlookup
  · -- nothing has moved to the path of a file that waits
    rintro ⟨j, x⟩ - hx
    by_cases hxa : x ∈ a
    · obtain ⟨hxpath, hxunder⟩ := hmem x (List.mem_append_left _ hxa)
      have haway := hm.away x hxpath hxunder
      rw [if_pos hxa] at hx
      refine absurd ?_ haway
      obtain hx | hx := of_decide_eq_true hx
      · have hx : rebasePath x start target = q := hx
        rw [hx]
        exact hunder
      · have hx : rebasePath x start target = q ++ Links.noteExt := hx
        rw [hx]
        exact hunder.trans (List.prefix_append _ _)
    · rwa [if_neg hxa] at hx

theorem renameAll_of_movable (hd : d.Distinct) (hm : Movable host resolveDoc start target d)
    (htarget : isFolder target = true) :
    renameAll host resolveDoc start target (dirs.flatMap (filesOf d)) d [] =
      (movedTo start target d (dirs.flatMap (filesOf d)), .ok ((dirs.flatMap (filesOf d)).map (move start target))) := by
  refine renameAll_movedTo hd ?_ (fun a f b hsplit _ => own_of_movable hstart h hm hsplit) _ [] (by simp)
  intro f hf
  obtain ⟨hpath, hunder⟩ := (mem_files hstart h hm.entries).1 hf
  refine withNoteExtension_of_extension ?_
  rw [fileExtensionOf_rebasePath hstart htarget hunder]
  exact hm.extension f hpath hunder

theorem getById_placed (hm : Movable host resolveDoc start target d) :
    (placed start target d dirs).getById id = (d.getById id).map (rebasePath · start target) := by
  have hcreated : ∀ j, (createEmpty start target ⟨dirs.flatMap (filesOf d), dirs⟩
      (movedTo start target d (dirs.flatMap (filesOf d)))).getById j = (d.getById j).map (rebasePath · start target) := by
    intro j
    have hmap := @createEmpty_map start target ⟨dirs.flatMap (filesOf d), dirs⟩
      (movedTo start target d (dirs.flatMap (filesOf d)))
    refine (congrArg (·.get j) hmap).trans (getById_movedTo.trans ?_)
    refine Option.map_congr fun path hpath => ?_
    by_cases hunder : start <+: path
    · rw [if_pos ((mem_files hstart h hm.entries).2 ⟨Directory.mem_paths.2 ⟨j, hpath⟩, hunder⟩)]
    · rw [if_neg fun hf => hunder ((mem_files hstart h hm.entries).1 hf).2, rebasePath_of_not hunder]
  rw [← hcreated]
  refine (moved_deleteFolder _ start).kept id ?_
  rintro ⟨p, hp, hpre⟩
  rw [hcreated] at hp
  rw [folderStart_of_folder hstart, Text.startsWith_iff] at hpre
  obtain ⟨path, hpath, rfl⟩ := Option.map_eq_some_iff.1 hp
  by_cases hunder : start <+: path
  · exact hm.away path (Directory.mem_paths.2 ⟨id, hpath⟩) hunder hpre
  · rw [rebasePath_of_not hunder] at hpre
    exact hunder hpre

theorem placed_of_movable (hd : d.Distinct) (hm : Movable host resolveDoc start target d)
    (htarget : isFolder target = true) : Placed start target d (placed start target d dirs) where
  documents id := getById_placed hstart h hm
  distinct i j p hi hj := by
    rw [getById_placed hstart h hm] at hi hj
    obtain ⟨x, hx, rfl⟩ := Option.map_eq_some_iff.1 hi
    obtain ⟨y, hy, hxy⟩ := Option.map_eq_some_iff.1 hj
    have hx' := Directory.mem_paths.2 ⟨i, hx⟩
    have hy' := Directory.mem_paths.2 ⟨j, hy⟩
    by_cases hxu : start <+: x
    · by_cases hyu : start <+: y
      · rw [rebasePath_injective hyu hxu hxy] at hy
        exact hd i j x hx hy
      · rw [rebasePath_of_not hyu] at hxy
        exact absurd (hxy ▸ hy') (free_of_resolve (hm.free x hx' hxu))
    · rw [rebasePath_of_not hxu] at hxy
      by_cases hyu : start <+: y
      · exact absurd (hxy ▸ hx') (free_of_resolve (hm.free y hy' hyu))
      · rw [rebasePath_of_not hyu] at hxy
        exact hd i j x hx (hxy ▸ hy)
  recreated e he hunder hempty := by
    have hfolder := hm.entries e he hunder
    have hrebased : isFolder (rebasePath e start target) = true := by
      obtain ⟨rest, rfl⟩ := hunder
      rw [rebasePath_append]
      by_cases hrest : rest = []
      · rw [hrest, List.append_nil]
        exact htarget
      · rw [isFolder_append_of_ne_nil hrest] at hfolder ⊢
        exact hfolder
    refine (mem_getFolders_deleteFolder hstart).2 ⟨?_, hm.emptyAway e he hunder hempty⟩
    refine (mem_createEmpty _ _).2 (.inr ⟨e, folder_found hstart h he hunder hfolder, ?_, ?_⟩)
    · rw [List.any_eq_false]
      intro f hf
      rw [Text.startsWith_iff]
      exact hempty f ((mem_files hstart h hm.entries).1 hf).1
    · exact folderStart_of_folder hrebased
  removed e he := ((mem_getFolders_deleteFolder hstart).1 he).2

theorem own_of_placed (htarget : isFolder target = true)
    (hout : isTrashPath target = false) (hne : start ≠ target)
    (hentries : ∀ e ∈ d.getFolders, start <+: e → isFolder e = true) {moves : List Move}
    (hrename : renameAll host resolveDoc start target (dirs.flatMap (filesOf d)) d [] = (renamed, .ok moves))
    (hplaced : Placed start target d (deleteFolder (createEmpty start target ⟨dirs.flatMap (filesOf d), dirs⟩ renamed) start))
    (hf : f ∈ dirs.flatMap (filesOf d)) (hid : d.getById id = some f) :
    fileExtensionOf f ≠ [] ∧ ¬ start <+: rebasePath f start target ∧
      ∃ a g b d1 r1, dirs.flatMap (filesOf d) = a ++ g :: b ∧
        renameAll host resolveDoc start target a d [] = (d1, .ok r1) ∧
        resolveDocumentId host resolveDoc d1 g = some id ∧
        withNoteExtension (rebasePath g start target) = rebasePath f start target := by
  have hunder := ((mem_files hstart h hentries).1 hf).2
  have hafter := hplaced.documents id
  rw [hid, Option.map_some] at hafter
  have huntrashed : isTrashPath (rebasePath f start target) = false := by
    rw [← Bool.not_eq_true]
    intro htrash
    obtain ⟨rest, rfl⟩ := hunder
    rw [rebasePath_append] at htrash
    rw [isTrashPath_of_under htarget (List.prefix_append _ _) htrash] at hout
    cases hout
  obtain ⟨hcreated, haway⟩ := of_deleteFolder_of_not_trashed hafter huntrashed
  rw [folderStart_of_folder hstart] at haway
  have hrenamed : renamed.getById id = some (rebasePath f start target) :=
    (congrArg (·.get id) (createEmpty_map _ renamed)).symm.trans hcreated
  have hmoved : d.getById id ≠ some (rebasePath f start target) := by
    rw [hid]
    exact fun heq => ne_rebasePath hne hunder (Option.some.inj heq)
  obtain ⟨a, g, b, d1, r1, hsplit, ha, hg, hp⟩ := of_renameAll hrename hrenamed hmoved
  refine ⟨?_, haway, a, g, b, d1, r1, hsplit, ha, hg, hp⟩
  have hgf : g ∈ dirs.flatMap (filesOf d) := by simp [hsplit]
  obtain ⟨⟨rest, rfl⟩, hfile, -⟩ := of_file hstart h hgf
  have hrest : rest ≠ [] := by
    rintro rfl
    rw [List.append_nil, hstart] at hfile
    cases hfile
  have hname : nameOf (rebasePath (start ++ rest) start target) ≠ [] := by
    rw [rebasePath_append, nameOf_append htarget]
    rw [isFolder_append_of_ne_nil hrest] at hfile
    exact nameOf_ne_nil hfile hrest
  rw [← fileExtensionOf_rebasePath hstart htarget hunder, ← hp]
  exact fileExtensionOf_withNoteExtension hname

theorem movable_of_placed (hd : d.Distinct) (htarget : isFolder target = true)
    (hout : isTrashPath target = false) (hne : start ≠ target)
    (hentries : ∀ e ∈ d.getFolders, start <+: e → isFolder e = true)
    (hconflict : conflict host resolveDoc start target d (dirs.flatMap (filesOf d)) = none) {moves : List Move}
    (hrename : renameAll host resolveDoc start target (dirs.flatMap (filesOf d)) d [] = (renamed, .ok moves))
    (hplaced : Placed start target d (deleteFolder (createEmpty start target ⟨dirs.flatMap (filesOf d), dirs⟩ renamed) start)) :
    Movable host resolveDoc start target d := by
  have hfiles : ∀ path ∈ d.paths, start <+: path → path ∈ dirs.flatMap (filesOf d) :=
    fun path hpath hunder => (mem_files hstart h hentries).2 ⟨hpath, hunder⟩
  have hown : ∀ f ∈ dirs.flatMap (filesOf d), ∀ id, d.getById id = some f → _ :=
    fun f hf id hid => own_of_placed hstart h htarget hout hne hentries hrename hplaced hf hid
  have hext : ∀ f ∈ dirs.flatMap (filesOf d), fileExtensionOf f ≠ [] := by
    intro f hf
    obtain ⟨id, hid⟩ := Directory.mem_paths.1 ((mem_files hstart h hentries).1 hf).1
    exact (hown f hf id hid).1
  have hkeep : ∀ f ∈ dirs.flatMap (filesOf d),
      withNoteExtension (rebasePath f start target) = rebasePath f start target := by
    intro f hf
    refine withNoteExtension_of_extension ?_
    rw [fileExtensionOf_rebasePath hstart htarget ((mem_files hstart h hentries).1 hf).2]
    exact hext f hf
  have hnodup := nodup_files hstart h
  -- the files were renamed one after the other, each its own document
  have hresolve : ∀ a f b, dirs.flatMap (filesOf d) = a ++ f :: b →
      renameAll host resolveDoc start target a d [] = (movedTo start target d a, .ok (a.map (move start target))) →
        ∃ id, d.getById id = some f ∧ resolveDocumentId host resolveDoc (movedTo start target d a) f = some id := by
    intro a f b hsplit ha
    have hf : f ∈ dirs.flatMap (filesOf d) := by simp [hsplit]
    obtain ⟨id, hid⟩ := Directory.mem_paths.1 ((mem_files hstart h hentries).1 hf).1
    obtain ⟨-, -, a', g, b', d1, r1, hsplit', ha', hg, hp⟩ := hown f hf id hid
    have hgf : g ∈ dirs.flatMap (filesOf d) := by simp [hsplit']
    rw [hkeep g hgf] at hp
    have hsame := rebasePath_injective ((mem_files hstart h hentries).1 hgf).2 ((mem_files hstart h hentries).1 hf).2 hp
    obtain rfl := hsame.symm
    have hfa : f ∉ a' ∧ f ∉ b' := by
      rw [hsplit'] at hnodup
      exact not_or.1 fun hmem => (List.nodup_middle.1 hnodup |> List.nodup_cons.1).1 (List.mem_append.2 hmem)
    obtain ⟨rfl, -, -⟩ := (List.append_cons_inj_of_notMem hfa.1 hfa.2).1 (hsplit'.symm.trans hsplit)
    rw [ha] at ha'
    cases ha'
    exact ⟨id, hid, hg⟩
  have hall : ∀ a b, dirs.flatMap (filesOf d) = a ++ b → _ :=
    fun a b hab => renameAll_movedTo hd hkeep hresolve a b hab
  refine ⟨hentries, ?_, ?_, ?_, ?_, ?_⟩
  · exact fun path hpath hunder => hext path (hfiles path hpath hunder)
  · intro path hpath hunder
    have hnone := List.find?_eq_none.1 hconflict path (hfiles path hpath hunder)
    rwa [Bool.not_eq_true, Option.isSome_eq_false_iff, Option.isNone_iff_eq_none] at hnone
  · intro f hpath hunder
    obtain ⟨a, b, hsplit⟩ := List.append_of_mem (hfiles f hpath hunder)
    obtain ⟨id, hid, hfound⟩ := hresolve a f b hsplit (hall a (f :: b) hsplit)
    have hordered := files_ordered hstart h (fun _ => no_folder_document hstart h)
    rw [hsplit] at hordered
    have hbefore := (List.pairwise_append.1 hordered).2.2
    have hfa : f ∉ a := fun hfa => (hbefore f hfa f List.mem_cons_self).1 rfl
    have hmoved : (movedTo start target d a).getById id = some f := by
      rw [getById_movedTo, hid, Option.map_some, if_neg hfa]
    obtain ⟨⟨k, y⟩, hk⟩ := lookup_of_mem (Directory.mem_paths.2 ⟨id, hmoved⟩)
    rw [resolve_of_lookup hk] at hfound
    obtain rfl : k = id := Option.some.inj hfound
    have hyf : y = f := Option.some.inj ((of_lookup hk).1.symm.trans hmoved)
    rw [hyf] at hk
    obtain ⟨⟨j, q⟩, hj⟩ := lookup_of_mem hpath
    rw [hj]
    obtain ⟨-, hq | hq⟩ := of_lookup hj
    · exact congrArg some hq
    · -- the other document of the lookup has not moved, and would be found again
      have hqa : f ++ Links.noteExt ∉ a := by
        intro hqa
        refine (hbefore _ hqa f List.mem_cons_self).2 (parentOf_append_noteExt f) (compareTexts_noteExt f)
      obtain rfl : q = f ++ Links.noteExt := hq
      have hsame : (k, f) = (j, if f ++ Links.noteExt ∈ a then rebasePath (f ++ Links.noteExt) start target
          else f ++ Links.noteExt) := find?_eq_of_map hj hk (by simp [hqa]) ?_
      · rw [if_neg hqa] at hsame
        have hlength := congrArg (fun doc : DocId × Text => doc.2.length) hsame
        simp [Links.noteExt] at hlength
      · rintro ⟨i, x⟩ hx heq
        have hik : i = k := congrArg Prod.fst heq
        rw [hik] at hx
        have hxf : x = f := Option.some.inj ((Directory.mem_getAll.1 hx).symm.trans hid)
        simp [hxf]
  · intro path hpath hunder
    obtain ⟨id, hid⟩ := Directory.mem_paths.1 hpath
    exact (hown path (hfiles path hpath hunder) id hid).2.1
  · intro e he hunder hempty
    exact hplaced.removed _ (hplaced.recreated e he hunder hempty)

theorem kept_moveFiles (hd : d.Distinct) (htarget : isFolder target = true)
    (hcase : Taken start target d ∨ Movable host resolveDoc start target d) :
    Kept start target d (moveFiles host resolveDoc start target d dirs) := by
  cases hconflict : conflict host resolveDoc start target d (dirs.flatMap (filesOf d)) with
  | some file =>
    rw [moveFiles_of_conflict hconflict]
    refine ⟨rfl, .inr (hcase.resolve_right fun hm => ?_)⟩
    obtain ⟨hpath, hunder⟩ := (mem_files hstart h hm.entries).1 (List.mem_of_find?_eq_some hconflict)
    have hfound := List.find?_some hconflict
    rw [hm.free file hpath hunder] at hfound
    cases hfound
  | none =>
    obtain ⟨path, hpath, hunder, htaken⟩ | hm := hcase
    · have hnone := List.find?_eq_none.1 hconflict path (document_found hstart h hpath hunder)
      rw [Bool.not_eq_true, Option.isSome_eq_false_iff, Option.isNone_iff_eq_none] at hnone
      exact absurd htaken (free_of_resolve hnone)
    · rw [moveFiles_of_renamed hconflict (renameAll_of_movable hstart h hd hm htarget)]
      exact placed_of_movable hstart h hd hm htarget

end Walk

theorem allOrNothing_of_clear (hd : d.Distinct) (hstart : isFolder start = true) (htarget : isFolder target = true)
    (hclear : Clear host resolveDoc start target d) : AllOrNothing host resolveDoc start target d := by
  unfold Clear at hclear
  split at hclear
  · -- nothing to move
    rename_i hsame
    subst hsame
    refine ⟨0, (d, .ok []), by rw [moveFolder, if_pos rfl], ?_, hd, fun e he hunder _ => ?_, hclear⟩
    · intro j
      have hself : (rebasePath · start start) = fun path => path := funext (rebasePath_self start)
      rw [hself, Option.map_id']
    · exact absurd hunder (hclear e he)
  · rename_i hne
    cases hinside : isInside target start with
    | true =>
      exact ⟨0, (d, .error insideItself), by rw [moveFolder, if_neg hne, if_pos hinside], rfl, .inl hinside⟩
    | false =>
      obtain ⟨hproper, hcase⟩ := hclear.resolve_left (by simp [hinside])
      obtain ⟨fuel, dirs, h⟩ := exists_walk hstart hproper
      refine ⟨fuel, moveFiles host resolveDoc start target d dirs, ?_, kept_moveFiles hstart h hd htarget hcase⟩
      rw [moveFolder_eq hne hinside, h, Option.map_some]

theorem clear_of_allOrNothing (hd : d.Distinct) (hstart : isFolder start = true) (htarget : isFolder target = true)
    (hout : isTrashPath target = false) (hentries : ∀ e ∈ d.getFolders, isFolder e = true)
    (hall : AllOrNothing host resolveDoc start target d) : Clear host resolveDoc start target d := by
  obtain ⟨fuel, outcome, hrun, hkept⟩ := hall
  unfold Clear
  split
  · rename_i hsame
    rw [moveFolder, if_pos hsame] at hrun
    cases hrun
    exact hkept.removed
  · rename_i hne
    cases hinside : isInside target start with
    | true => exact .inl rfl
    | false =>
      rw [moveFolder_eq hne hinside] at hrun
      obtain ⟨dirs, h, rfl⟩ := Option.map_eq_some_iff.1 hrun
      refine .inr ⟨fun _ hq hunder => no_folder_document hstart h hq hunder, ?_⟩
      have htaken : (isInside target start = true ∨ Taken start target d) → Taken start target d :=
        fun hreason => hreason.resolve_left (by simp [hinside])
      cases hconflict : conflict host resolveDoc start target d (dirs.flatMap (filesOf d)) with
      | some file =>
        rw [moveFiles_of_conflict hconflict] at hkept
        exact .inl (htaken hkept.2)
      | none =>
        cases hrename : renameAll host resolveDoc start target (dirs.flatMap (filesOf d)) d [] with
        | mk renamed r =>
          cases r with
          | error e =>
            rw [moveFiles_of_lost hconflict hrename] at hkept
            exact .inl (htaken hkept.2)
          | ok moves =>
            rw [moveFiles_of_renamed hconflict hrename] at hkept
            refine .inr (movable_of_placed hstart h hd htarget hout hne ?_ hconflict hrename hkept)
            exact fun e he _ => hentries e he

/-- A move of a folder changes nothing or puts everything in its place, whenever the folder is as
`Clear` says; outside the trash, only then. -/
theorem moveFolder_all_or_nothing (hd : d.Distinct) (hstart : isFolder start = true) (htarget : isFolder target = true) :
    (Clear host resolveDoc start target d → AllOrNothing host resolveDoc start target d) ∧
      (isTrashPath target = false → (∀ e ∈ d.getFolders, isFolder e = true) →
        AllOrNothing host resolveDoc start target d → Clear host resolveDoc start target d) :=
  ⟨allOrNothing_of_clear hd hstart htarget, clear_of_allOrNothing hd hstart htarget⟩

end Main

/-- An app that knows no other document. -/
def noApp : Directory → Text → Option DocId := fun _ _ => none

def oneInFolder : Directory := ⟨KeyedMap.empty.set "a".toList "D/Note.md".toList, KeyedMap.empty⟩

theorem moveFolder_all_or_nothing_one : AllOrNothing Links.asciiHost noApp "D/".toList "E/".toList oneInFolder := by
  have hpaths : oneInFolder.paths = ["D/Note.md".toList] := rfl
  have hmovable : Movable Links.asciiHost noApp "D/".toList "E/".toList oneInFolder := by
    refine ⟨by decide, ?_, ?_, ?_, ?_, by decide⟩
    all_goals
      intro path hpath _
      rw [hpaths, List.mem_singleton] at hpath
      subst hpath
      decide +kernel
  have hproper : Proper oneInFolder "D/".toList := by
    intro path hpath _
    rw [hpaths, List.mem_singleton] at hpath
    rw [hpath]
    decide
  refine (moveFolder_all_or_nothing (Directory.distinct_single _) (by decide) (by decide)).1 ?_
  exact .inr ⟨hproper, .inr hmovable⟩

/-- A folder inside another, moved out of it: its own note is found under the new path by the end
of its path, and taken for another document. -/
def nested : Directory := ⟨KeyedMap.empty.set "a".toList "P/A/Note.md".toList, KeyedMap.empty⟩

theorem moved_out_refused : ¬ ∀ (host : Links.Host) (resolveDoc : Directory → Text → Option DocId) (start target : Text)
    (d : Directory), d.Distinct → isFolder start = true → isFolder target = true →
      AllOrNothing host resolveDoc start target d := by
  intro h
  have hnested := h Links.asciiHost noApp "P/A/".toList "A/".toList nested (Directory.distinct_single _) (by decide)
    (by decide)
  have hclear := clear_of_allOrNothing (Directory.distinct_single _) (by decide) (by decide) (by decide) (by decide) hnested
  obtain ⟨-, htaken | hmovable⟩ := hclear.resolve_left (by decide)
  · have hnone : ∀ path ∈ nested.paths, rebasePath path "P/A/".toList "A/".toList ∉ nested.paths := by decide
    obtain ⟨path, hpath, -, htaken⟩ := htaken
    exact hnone path hpath htaken
  · have hfree := hmovable.free "P/A/Note.md".toList (by decide) (by decide)
    have hfound : resolveDocumentId Links.asciiHost noApp nested
        (rebasePath "P/A/Note.md".toList "P/A/".toList "A/".toList) = some "a".toList := by decide +kernel
    cases hfree.symm.trans hfound

end Savoire.FolderOps
