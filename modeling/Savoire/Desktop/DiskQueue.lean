import Savoire.Desktop.Disk
import Savoire.Library.Transition
import Mathlib.Logic.Function.Basic

/-! The changes of the directory of a folder session, realised on the disk by a queue of operations. The
documents are closed: nothing else writes their files. -/
namespace Savoire.FolderQueue
open Transition
open VaultIndex (folderOf)
variable {ι : Type*} [DecidableEq ι]

inductive Change (ι : Type*)
  | add (id : ι) (path : Text)
  | rename (id : ι) (newPath : Text)
  | remove (id : ι)

/-- An operation on the disk carries the paths known when it was queued. -/
inductive DiskOp (ι : Type*)
  | add (id : ι) (path : Text)
  | rename (id : ι) (src dst : Text)
  | remove (id : ι) (path : Text)

def DiskOp.id : DiskOp ι → ι
  | .add id _ | .rename id _ _ | .remove id _ => id

/-- Of `.savoire`, the detached files and the texts of the states, both by document. The operation that runs has
already looked for the path that it will take. -/
structure Session (ι : Type*) where
  directory : KeyedMap ι Text
  ids : KeyedMap ι Text
  disk : Disk
  detached : KeyedMap ι Bytes
  states : KeyedMap ι Bytes
  running : Option (DiskOp ι × Text)
  queue : List (DiskOp ι)

structure Setting where
  isText : Text → Bool
  explicitFolders : List Text

inductive Event (ι : Type*)
  | change (c : Change ι)
  | begin
  | finish

namespace Session
variable (c : Setting) (s : Session ι)

def localOp (op : DiskOp ι) : Session ι := { s with queue := s.queue ++ [op] }

/-- `onDocsChanged` for one key that was set. -/
def setPath (id : ι) (path : Text) : Session ι :=
  let s' := { s with directory := s.directory.set id path }
  match s.directory.get id with
  | none => s'.localOp (.add id path)
  | some old => if old = path then s' else s'.localOp (.rename id old path)

def change : Change ι → Session ι
  | .add id path => s.setPath id path
  | .rename id newPath => if s.directory.has id then s.setPath id newPath else s
  | .remove id =>
      match s.directory.get id with
      | none => s
      | some old => { s with directory := s.directory.delete id }.localOp (.remove id old)

def projectFromState (id : ι) : Option (Session ι) :=
  match s.states.get id, s.directory.get id with
  | some text, some path =>
      if text ≠ [] ∧ s.disk.files.get path = some [] then
        (s.disk.write path text).map fun disk => { s with disk := disk }
      else some s
  | _, _ => some s

/-- The file of an added document: what it had without a path, or an empty file. -/
def createFile (id : ι) (path : Text) : Option (Session ι) :=
  if s.disk.isThere path then some s
  else match s.detached.get id with
    | some content => (s.disk.write path content).map fun disk =>
        { s with disk := disk, detached := s.detached.delete id }
    | none => (s.disk.write path []).map fun disk => { s with disk := disk }

def diskAdd (id : ι) (path : Text) : Option (Session ι) :=
  let created := { s with ids := s.ids.set id path }.createFile id path
  if c.isText path then created.bind fun s => s.projectFromState id else created

/-- Where the file goes: never over another one. -/
def target (src dst : Text) : Text :=
  if s.disk.isThere src && s.disk.isThere dst then freePath s.disk (s.directory.entries.map Prod.snd) dst else dst

def diskRename (id : ι) (src dst target : Text) : Option (Session ι) :=
  if src = dst then some s
  else if s.disk.isThere src then
    let s := if s.disk.isThere dst then { s with directory := s.directory.set id target } else s
    let s := { s with ids := s.ids.set id target }
    ((s.disk.rename src target).bind (Disk.removeEmptyParents c.explicitFolders src.length (folderOf src))).map
      fun disk => { s with disk := disk }
  else some { s with ids := s.ids.set id target }

def diskRemove (id : ι) (path : Text) : Option (Session ι) :=
  let s := { s with ids := s.ids.delete id, detached := s.detached.delete id, states := s.states.delete id }
  if s.disk.isThere path then
    ((s.disk.remove path).bind (Disk.removeEmptyParents c.explicitFolders path.length (folderOf path))).map
      fun disk => { s with disk := disk }
  else some s

def perform : DiskOp ι × Text → Option (Session ι)
  | (.add id path, _) => s.diskAdd c id path
  | (.rename id src dst, target) => s.diskRename c id src dst target
  | (.remove id path, _) => s.diskRemove c id path

/-- One operation runs at a time; changes of the directory come before, between and after. -/
def step : Event ι → Option (Session ι)
  | .change change => some (s.change change)
  | .begin =>
      match s.running, s.queue with
      | none, op :: queue =>
          let target := match op with
            | .rename _ src dst => s.target src dst
            | .add _ path | .remove _ path => path
          some { s with running := some (op, target), queue := queue }
      | _, _ => none
  | .finish =>
      match s.running with
      | none => none
      | some op => { s with running := none }.perform c op

end Session

/-- What a document is, wherever its file is: its content if it is in the directory, and what it has without
a path. -/
structure Document where
  content : Option Bytes
  detached : Option Bytes
  state : Option Bytes

def Document.gone : Document := ⟨none, none, none⟩

/-- What an added document shows. -/
def Document.shown (isText : Text → Bool) (path : Text) (d : Document) : Bytes :=
  let content := d.detached.getD []
  if isText path ∧ content = [] then d.state.getD [] else content

def Document.added (isText : Text → Bool) (path : Text) (d : Document) : Document :=
  ⟨some (d.shown isText path), none, d.state⟩

def changeDocuments (isText : Text → Bool) (docs : ι → Document) : Change ι → ι → Document
  | .add id path => if (docs id).content.isSome then docs else Function.update docs id ((docs id).added isText path)
  | .rename _ _ => docs
  | .remove id => if (docs id).content.isSome then Function.update docs id .gone else docs

def step (c : Setting) (s : Session ι × (ι → Document)) (e : Event ι) : Option (Session ι × (ι → Document)) :=
  (s.1.step c e).map fun s' => (s', match e with
    | .change change => changeDocuments c.isText s.2 change
    | .begin | .finish => s.2)

structure Realised (start s : Session ι) (docs : ι → Document) : Prop where
  ids : ∀ id, s.directory.get id = s.ids.get id
  inj : ∀ id id' path, s.directory.get id = some path → s.directory.get id' = some path → id = id'
  file : ∀ id, (s.directory.get id).bind s.disk.files.get = (docs id).content
  there : ∀ id path, s.directory.get id = some path → (s.disk.files.get path).isSome
  others : ∀ path, (∀ id, start.ids.get id ≠ some path) → ∀ content, start.disk.files.get path = some content →
    s.disk.files.get path = some content ∧ ∀ id, s.ids.get id ≠ some path

def Session.Idle (s : Session ι) : Prop := s.running = none ∧ s.queue = []

def Session.documents (s : Session ι) (id : ι) : Document :=
  ⟨(s.ids.get id).bind s.disk.files.get, s.detached.get id, s.states.get id⟩

/-- The path of an operation is free, or no other operation on its document waits: an added document finds
nothing at its path and is still there when its text is shown, one whose file is diverted is not changed again
before. -/
def Session.Clear (c : Setting) (s : Session ι) : Event ι → Prop
  | .finish => match s.running with
      | some (.add id path, _) => s.disk.isThere path = false ∧
          (c.isText path → ∀ text, s.states.get id = some text → text ≠ [] → s.directory.get id = some path ∨
            (∃ old, .remove id old ∈ s.queue) ∧
              ∀ now, s.directory.get id = some now → s.disk.files.get now ≠ some [])
      | some (.rename id _ dst, _) => s.disk.isThere dst = true → ∀ op ∈ s.queue, op.id ≠ id
      | _ => True
  | _ => True

/-- The paths of the documents after an operation, if its path is free. -/
def DiskOp.paths (op : DiskOp ι) (paths : ι → Option Text) : ι → Option Text :=
  match op with
  | .add id path => Function.update paths id (some path)
  | .rename id _ dst => Function.update paths id (some dst)
  | .remove id _ => Function.update paths id none

def DiskOp.documents (isText : Text → Bool) (op : DiskOp ι) (docs : ι → Document) : ι → Document :=
  match op with
  | .add id path => Function.update docs id ((docs id).added isText path)
  | .rename _ _ _ => docs
  | .remove id _ => Function.update docs id .gone

def pathsAfter (ops : List (DiskOp ι)) (paths : ι → Option Text) : ι → Option Text :=
  ops.foldl (fun paths op => op.paths paths) paths

def documentsAfter (isText : Text → Bool) (ops : List (DiskOp ι)) (docs : ι → Document) : ι → Document :=
  ops.foldl (fun docs op => op.documents isText docs) docs

/-- The operation carries the path that its document has. -/
def DiskOp.Fits (op : DiskOp ι) (paths : ι → Option Text) : Prop :=
  match op with
  | .add id _ => paths id = none
  | .rename id src dst => paths id = some src ∧ src ≠ dst
  | .remove id path => paths id = some path

def Chained : List (DiskOp ι) → (ι → Option Text) → Prop
  | [], _ => True
  | op :: ops, paths => op.Fits paths ∧ Chained ops (op.paths paths)

section Ops
variable {op : DiskOp ι} {ops : List (DiskOp ι)} {paths paths' : ι → Option Text} {docs docs' : ι → Document}
  {isText : Text → Bool} {i id : ι}

theorem DiskOp.paths_congr (h : paths i = paths' i) : op.paths paths i = op.paths paths' i := by
  cases op <;> simp only [DiskOp.paths, Function.update_apply, h]

theorem DiskOp.paths_of_ne (h : op.id ≠ i) : op.paths paths i = paths i := by
  cases op <;> exact Function.update_of_ne (fun heq => h heq.symm) _ _

theorem DiskOp.documents_congr (h : docs i = docs' i) : op.documents isText docs i = op.documents isText docs' i := by
  cases op with
  | add id path =>
    by_cases hid : i = id
    · subst hid
      simp only [DiskOp.documents, Function.update_self, h]
    · simp only [DiskOp.documents, Function.update_of_ne hid, h]
  | rename => exact h
  | remove id path => simp only [DiskOp.documents, Function.update_apply, h]

omit [DecidableEq ι] in
theorem DiskOp.Fits.congr (hfits : op.Fits paths) (h : paths op.id = paths' op.id) : op.Fits paths' := by
  cases op with
  | add => exact h.symm.trans hfits
  | rename => exact ⟨h.symm.trans hfits.1, hfits.2⟩
  | remove => exact h.symm.trans hfits

theorem pathsAfter_congr (h : paths i = paths' i) : pathsAfter ops paths i = pathsAfter ops paths' i := by
  induction ops generalizing paths paths' with
  | nil => exact h
  | cons op ops ih => exact ih (op.paths_congr h)

theorem pathsAfter_of_none (h : ∀ op ∈ ops, op.id ≠ i) : pathsAfter ops paths i = paths i := by
  induction ops generalizing paths with
  | nil => rfl
  | cons op ops ih =>
    have hrest : pathsAfter ops (op.paths paths) i = op.paths paths i :=
      ih fun op' hop' => h op' (List.mem_cons_of_mem op hop')
    exact hrest.trans (op.paths_of_ne (h op List.mem_cons_self))

theorem documentsAfter_congr (h : docs i = docs' i) :
    documentsAfter isText ops docs i = documentsAfter isText ops docs' i := by
  induction ops generalizing docs docs' with
  | nil => exact h
  | cons op ops ih => exact ih (op.documents_congr h)

theorem documentsAfter_of_remove {old : Text} (h : .remove i old ∈ ops) :
    documentsAfter isText ops docs i = documentsAfter isText ops docs' i := by
  induction ops generalizing docs docs' with
  | nil => cases h
  | cons op ops ih =>
    obtain rfl | h := List.mem_cons.mp h
    · have hgone : (DiskOp.remove i old).documents isText docs i = (DiskOp.remove i old).documents isText docs' i := by
        simp only [DiskOp.documents, Function.update_self]
      have hrest : documentsAfter isText ops ((DiskOp.remove i old).documents isText docs) i =
          documentsAfter isText ops ((DiskOp.remove i old).documents isText docs') i := documentsAfter_congr hgone
      exact hrest
    · exact ih h

theorem Chained.congr (hchained : Chained ops paths) (h : ∀ op ∈ ops, paths op.id = paths' op.id) :
    Chained ops paths' := by
  induction ops generalizing paths paths' with
  | nil => trivial
  | cons op ops ih =>
    obtain ⟨hfits, hrest⟩ := hchained
    refine ⟨hfits.congr (h op List.mem_cons_self), ih hrest fun op' hop' => ?_⟩
    exact op.paths_congr (h op' (List.mem_cons_of_mem op hop'))

theorem Chained.snoc (hchained : Chained ops paths) (hfits : op.Fits (pathsAfter ops paths)) :
    Chained (ops ++ [op]) paths := by
  induction ops generalizing paths with
  | nil => exact ⟨hfits, trivial⟩
  | cons op' ops ih => exact ⟨hchained.1, ih hchained.2 hfits⟩

theorem pathsAfter_snoc : pathsAfter (ops ++ [op]) paths = op.paths (pathsAfter ops paths) := by
  rw [pathsAfter, List.foldl_append]
  rfl

theorem documentsAfter_snoc :
    documentsAfter isText (ops ++ [op]) docs = op.documents isText (documentsAfter isText ops docs) := by
  rw [documentsAfter, List.foldl_append]
  rfl

theorem content_after (hchained : Chained ops paths) (h : ∀ i, (docs i).content.isSome = (paths i).isSome) (i : ι) :
    (documentsAfter isText ops docs i).content.isSome = (pathsAfter ops paths i).isSome := by
  induction ops generalizing docs paths with
  | nil => exact h i
  | cons op ops ih =>
    obtain ⟨hfits, hrest⟩ := hchained
    refine ih hrest fun j => ?_
    cases op with
    | add id path =>
      by_cases hj : j = id
      · subst hj
        simp [DiskOp.documents, DiskOp.paths, Document.added]
      · simpa [DiskOp.documents, DiskOp.paths, hj] using h j
    | rename id src dst =>
      by_cases hj : j = id
      · subst hj
        have hpath := h j
        rw [hfits.1] at hpath
        simpa [DiskOp.documents, DiskOp.paths] using hpath
      · simpa [DiskOp.documents, DiskOp.paths, hj] using h j
    | remove id path =>
      by_cases hj : j = id
      · subst hj
        simp [DiskOp.documents, DiskOp.paths, Document.gone]
      · simpa [DiskOp.documents, DiskOp.paths, hj] using h j

end Ops

section Specs
variable {c : Setting} {s s' : Session ι} {id : ι} {path src dst target : Text} {content : Bytes}

namespace Session

theorem createFile_spec (hfree : s.disk.isThere path = false) (h : s.createFile id path = some s') :
    s' = { s with disk := s'.disk, detached := s'.detached } ∧
    (∀ i, s'.detached.get i = if i = id then none else s.detached.get i) ∧
    s'.disk.files = s.disk.files.set path ((s.detached.get id).getD []) := by
  rw [createFile, hfree, if_neg Bool.false_ne_true] at h
  cases hdetached : s.detached.get id with
  | some content =>
    simp only [hdetached] at h
    obtain ⟨disk, hdisk, rfl⟩ := Option.map_eq_some_iff.mp h
    exact ⟨rfl, fun i => KeyedMap.get_delete, Disk.files_write hdisk⟩
  | none =>
    simp only [hdetached] at h
    obtain ⟨disk, hdisk, rfl⟩ := Option.map_eq_some_iff.mp h
    refine ⟨rfl, fun i => ?_, Disk.files_write hdisk⟩
    split
    · rename_i hi
      rw [hi, hdetached]
    · rfl

theorem projectFromState_spec (h : s.projectFromState id = some s') :
    s' = { s with disk := s'.disk } ∧
    ((∃ text now, s.states.get id = some text ∧ text ≠ [] ∧ s.directory.get id = some now ∧
      s.disk.files.get now = some [] ∧ s'.disk.files = s.disk.files.set now text) ∨
    s'.disk.files = s.disk.files ∧ ∀ text now, s.states.get id = some text → text ≠ [] →
      s.directory.get id = some now → s.disk.files.get now ≠ some []) := by
  unfold projectFromState at h
  split at h
  · rename_i text now hstate hnow
    split at h
    · rename_i hempty
      obtain ⟨disk, hdisk, rfl⟩ := Option.map_eq_some_iff.mp h
      exact ⟨rfl, .inl ⟨text, now, hstate, hempty.1, hnow, hempty.2, Disk.files_write hdisk⟩⟩
    · rename_i hfull
      cases h
      refine ⟨rfl, .inr ⟨rfl, fun text' now' hstate' htext hnow' hempty => hfull ?_⟩⟩
      cases hstate.symm.trans hstate'
      cases hnow.symm.trans hnow'
      exact ⟨htext, hempty⟩
  · rename_i hnone
    cases h
    exact ⟨rfl, .inr ⟨rfl, fun text now hstate _ hnow _ => hnone text now hstate hnow⟩⟩

/-- The file of an added document, and of no other one, is there with what the document shows, unless the
document is about to be removed. -/
theorem diskAdd_spec (hclear : s.disk.isThere path = false ∧
      (c.isText path → ∀ text, s.states.get id = some text → text ≠ [] → s.directory.get id = some path ∨
        (∃ old, .remove id old ∈ s.queue) ∧
          ∀ now, s.directory.get id = some now → s.disk.files.get now ≠ some []))
    (h : s.diskAdd c id path = some s') :
    s' = { s with ids := s.ids.set id path, disk := s'.disk, detached := s'.detached } ∧
    (∀ i, s'.detached.get i = if i = id then none else s.detached.get i) ∧
    ∃ content, (∀ p, s'.disk.files.get p = if p = path then some content else s.disk.files.get p) ∧
      (content = (s.documents id).shown c.isText path ∨ ∃ old, .remove id old ∈ s.queue) := by
  obtain ⟨hfree, hproject⟩ := hclear
  unfold diskAdd at h
  split at h
  · rename_i htext
    obtain ⟨s1, hs1, hs'⟩ := Option.bind_eq_some_iff.mp h
    obtain ⟨heq1, hdetached, hfiles1⟩ := createFile_spec (s := { s with ids := s.ids.set id path }) hfree hs1
    obtain ⟨heq', hwritten⟩ := projectFromState_spec hs'
    have hstates : s1.states = s.states := by rw [heq1]
    have hdirectory : s1.directory = s.directory := by rw [heq1]
    have hdetached' : s'.detached = s1.detached := by rw [heq']
    rw [hstates, hdirectory, hfiles1] at hwritten
    refine ⟨by rw [heq', heq1], fun i => by rw [hdetached', hdetached i], ?_⟩
    have hproject := hproject htext
    have hshown : (s.documents id).shown c.isText path =
        if (s.detached.get id).getD [] = [] then (s.states.get id).getD [] else (s.detached.get id).getD [] := by
      simp only [Document.shown, documents, htext, true_and]
    obtain ⟨text, now, hstate, hne, hnow, hempty, hfiles⟩ | ⟨hfiles, hkept⟩ := hwritten
    · have hpath : now = path := by
        by_contra hother
        rw [KeyedMap.get_set_ne hother] at hempty
        obtain hdir | ⟨-, hfull⟩ := hproject text hstate hne
        · exact hother (Option.some.inj (hnow.symm.trans hdir))
        · exact hfull now hnow hempty
      subst hpath
      rw [KeyedMap.get_set_self] at hempty
      refine ⟨text, fun p => ?_, .inl ?_⟩
      · rw [hfiles, KeyedMap.get_set, KeyedMap.get_set]
        split
        · rfl
        · rfl
      · rw [hshown, if_pos (Option.some.inj hempty), hstate]
        rfl
    · refine ⟨_, fun p => by rw [hfiles, KeyedMap.get_set], ?_⟩
      cases hstate : s.states.get id with
      | none =>
        left
        rw [hshown, hstate]
        split
        · rename_i hnil
          exact hnil
        · rfl
      | some text =>
        by_cases hnil : text = []
        · left
          rw [hshown, hstate, hnil]
          split
          · rename_i hdetachedNil
            exact hdetachedNil
          · rfl
        · obtain hdir | ⟨hremoved, -⟩ := hproject text hstate hnil
          · left
            have hfull := hkept text path hstate hnil hdir
            rw [KeyedMap.get_set_self] at hfull
            rw [hshown, if_neg fun hempty => hfull (congrArg some hempty)]
          · exact .inr hremoved
  · rename_i htext
    obtain ⟨heq, hdetached, hfiles⟩ := createFile_spec (s := { s with ids := s.ids.set id path }) hfree h
    refine ⟨heq, hdetached, _, fun p => by rw [hfiles, KeyedMap.get_set], .inl ?_⟩
    simp only [Document.shown, htext, Bool.false_eq_true, false_and, if_false]
    rfl

theorem diskRename_spec (hne : src ≠ dst) (hsrc : s.disk.files.get src = some content) (htarget : src ≠ target)
    (h : s.diskRename c id src dst target = some s') :
    s' = { s with directory := if s.disk.isThere dst then s.directory.set id target else s.directory,
                  ids := s.ids.set id target, disk := s'.disk } ∧
    ∀ p, s'.disk.files.get p =
      if p = target then some content else if p = src then none else s.disk.files.get p := by
  rw [diskRename, if_neg hne, if_pos (Disk.isThere_of_get hsrc)] at h
  obtain ⟨disk, hdisk, rfl⟩ := Option.map_eq_some_iff.mp h
  obtain ⟨disk1, hdisk1, hdisk⟩ := Option.bind_eq_some_iff.mp hdisk
  constructor
  · split
    · rfl
    · rfl
  · intro p
    have hfiles : disk1.files = (s.disk.files.delete src).set target content := by
      split at hdisk1
      · exact Disk.files_rename htarget hsrc hdisk1
      · exact Disk.files_rename htarget hsrc hdisk1
    rw [Disk.get_removeEmptyParents hdisk, hfiles, KeyedMap.get_set, KeyedMap.get_delete]

theorem diskRemove_spec (hpath : s.disk.files.get path = some content) (h : s.diskRemove c id path = some s') :
    s' = { s with ids := s.ids.delete id, detached := s.detached.delete id, states := s.states.delete id,
                  disk := s'.disk } ∧
    ∀ p, s'.disk.files.get p = if p = path then none else s.disk.files.get p := by
  unfold diskRemove at h
  rw [if_pos (Disk.isThere_of_get hpath)] at h
  obtain ⟨disk, hdisk, rfl⟩ := Option.map_eq_some_iff.mp h
  obtain ⟨disk1, hdisk1, hdisk⟩ := Option.bind_eq_some_iff.mp hdisk
  refine ⟨rfl, fun p => ?_⟩
  rw [Disk.get_removeEmptyParents hdisk, Disk.files_remove hpath hdisk1, KeyedMap.get_delete]

end Session
end Specs

/-- The operations that are not done yet. -/
def Session.ops (s : Session ι) : List (DiskOp ι) := (s.running.map Prod.fst).toList ++ s.queue

structure Inv (c : Setting) (start s : Session ι) (docs : ι → Document) : Prop where
  own : ∀ id path, s.ids.get id = some path → (s.disk.files.get path).isSome
  inj : ∀ id id' path, s.ids.get id = some path → s.ids.get id' = some path → id = id'
  chained : Chained s.ops s.ids.get
  directory : ∀ id, s.directory.get id = pathsAfter s.ops s.ids.get id
  documents : documentsAfter c.isText s.ops s.documents = docs
  target : ∀ id src dst target, s.running = some (.rename id src dst, target) →
    if s.disk.isThere dst then s.disk.isThere target = false else target = dst
  others : ∀ path, (∀ id, start.ids.get id ≠ some path) → ∀ content, start.disk.files.get path = some content →
    s.disk.files.get path = some content ∧ ∀ id, s.ids.get id ≠ some path

section Inv
variable {c : Setting} {start s s' : Session ι} {docs : ι → Document} {id : ι} {path src dst target : Text}

theorem get_set_update {β : Type*} (m : KeyedMap ι β) (id : ι) (value : β) :
    (m.set id value).get = Function.update m.get id (some value) := by
  funext i
  rw [KeyedMap.get_set, Function.update_apply]

theorem get_delete_update {β : Type*} (m : KeyedMap ι β) (id : ι) :
    (m.delete id).get = Function.update m.get id none := by
  funext i
  rw [KeyedMap.get_delete, Function.update_apply]

section
variable (h : Inv c start s docs)
include h

theorem Inv.content_isSome (id : ι) :
    (docs id).content.isSome = (s.directory.get id).isSome := by
  rw [← h.documents, h.directory]
  refine content_after h.chained (fun i => ?_) id
  cases hi : s.ids.get i with
  | none => simp [Session.documents, hi]
  | some path => simpa [Session.documents, hi] using h.own i path hi

theorem Inv.localOp {op : DiskOp ι} {directory : KeyedMap ι Text}
    (hfits : op.Fits s.directory.get) (hdirectory : directory.get = op.paths s.directory.get) :
    Inv c start ({ s with directory := directory }.localOp op) (op.documents c.isText docs) := by
  have hops : ({ s with directory := directory }.localOp op).ops = s.ops ++ [op] := by
    simp only [Session.ops, Session.localOp, List.append_assoc]
  have hafter : pathsAfter s.ops s.ids.get = s.directory.get := (funext h.directory).symm
  constructor
  case own => exact h.own
  case inj => exact h.inj
  case chained =>
    rw [hops]
    exact h.chained.snoc (hafter ▸ hfits)
  case directory =>
    intro id
    rw [hops, pathsAfter_snoc]
    exact congrFun (hdirectory.trans (hafter ▸ rfl)) id
  case documents =>
    rw [hops, documentsAfter_snoc]
    exact congrArg (op.documents c.isText) h.documents
  case target => exact h.target
  case others => exact h.others

theorem Inv.setPath (id : ι) (path : Text) : Inv c start (s.setPath id path)
    (if (docs id).content.isSome then docs else Function.update docs id ((docs id).added c.isText path)) := by
  rw [h.content_isSome]
  unfold Session.setPath
  cases hold : s.directory.get id with
  | none => exact h.localOp hold (get_set_update s.directory id path)
  | some old =>
    dsimp only
    split
    · rename_i heq
      have hsame : (s.directory.set id path).get = s.directory.get := by
        rw [get_set_update, ← heq, ← hold, Function.update_eq_self]
      refine ⟨h.own, h.inj, h.chained, fun i => ?_, h.documents, h.target, h.others⟩
      exact (congrFun hsame i).trans (h.directory i)
    · rename_i hne
      exact h.localOp ⟨hold, hne⟩ (get_set_update s.directory id path)

theorem Inv.change (change : Change ι) :
    Inv c start (s.change change) (changeDocuments c.isText docs change) := by
  cases change with
  | add id path => exact h.setPath id path
  | rename id newPath =>
    have hset := h.setPath id newPath
    rw [h.content_isSome] at hset
    dsimp only [Session.change, changeDocuments]
    split
    · rename_i hhas
      have hsome : (s.directory.get id).isSome = true := hhas
      rw [if_pos hsome] at hset
      exact hset
    · exact h
  | remove id =>
    dsimp only [Session.change, changeDocuments]
    rw [h.content_isSome]
    cases hold : s.directory.get id with
    | none => exact h
    | some old => exact h.localOp hold (get_delete_update s.directory id)

theorem Inv.begin {op : DiskOp ι} {queue : List (DiskOp ι)} (hrunning : s.running = none)
    (hqueue : s.queue = op :: queue) (htarget : ∀ id src dst, op = .rename id src dst →
      if s.disk.isThere dst then s.disk.isThere target = false else target = dst) :
    Inv c start { s with running := some (op, target), queue := queue } docs := by
  have hops : ({ s with running := some (op, target), queue := queue } : Session ι).ops = s.ops := by
    simp [Session.ops, hrunning, hqueue]
  refine ⟨h.own, h.inj, hops ▸ h.chained, hops ▸ h.directory, hops ▸ h.documents, ?_, h.others⟩
  intro id src dst target' heq
  cases heq
  exact htarget id src dst rfl

end

omit [DecidableEq ι] in
theorem isThere_target (hsrc : (s.disk.files.get src).isSome) :
    if s.disk.isThere dst then s.disk.isThere (s.target src dst) = false else s.target src dst = dst := by
  obtain ⟨content, hcontent⟩ := Option.isSome_iff_exists.mp hsrc
  rw [Session.target, Disk.isThere_of_get hcontent, Bool.true_and]
  split
  · have hfree := freePath_free s.disk (s.directory.entries.map Prod.snd) dst
    rw [isTaken, Bool.or_eq_false_iff] at hfree
    exact hfree.1
  · rfl

end Inv

section Finish
variable {c : Setting} {start s s' : Session ι} {docs : ι → Document} {id : ι} {path src dst target : Text}

theorem inj_set (hown : ∀ id path, s.ids.get id = some path → (s.disk.files.get path).isSome)
    (hinj : ∀ id id' path, s.ids.get id = some path → s.ids.get id' = some path → id = id')
    (hfree : s.disk.files.get target = none) :
    ∀ id₁ id₂ path, (s.ids.set id target).get id₁ = some path → (s.ids.set id target).get id₂ = some path →
      id₁ = id₂ := by
  have hother : ∀ id' path, s.ids.get id' = some path → path ≠ target := by
    rintro id' path hid rfl
    simpa [hfree] using hown id' path hid
  intro id₁ id₂ p h₁ h₂
  rw [KeyedMap.get_set] at h₁ h₂
  split at h₁
  · split at h₂
    · rename_i heq₁ heq₂
      exact heq₁.trans heq₂.symm
    · cases h₁
      exact absurd rfl (hother id₂ _ h₂)
  · split at h₂
    · cases h₂
      exact absurd rfl (hother id₁ _ h₁)
    · exact hinj id₁ id₂ p h₁ h₂

theorem Inv.diskAdd (h : Inv c start s docs) (hrunning : s.running = some (.add id path, target))
    (hclear : s.Clear c .finish) (hs : { s with running := none }.diskAdd c id path = some s') :
    Inv c start s' docs := by
  rw [Session.Clear, hrunning] at hclear
  obtain ⟨heq, hdetached, content, hfiles, hcontent⟩ :=
    Session.diskAdd_spec (s := { s with running := none }) hclear hs
  have hops : s.ops = .add id path :: s.queue := by
    rw [Session.ops, hrunning]
    rfl
  have hfree := Disk.get_of_not_isThere hclear.1
  have hchain := h.chained
  rw [hops] at hchain
  obtain ⟨-, hchained⟩ := hchain
  have hids : s'.ids = s.ids.set id path := by rw [heq]
  have hops' : s'.ops = s.queue := by
    rw [heq]
    rfl
  have hpath : ∀ i p, s.ids.get i = some p → p ≠ path := by
    rintro i p hi rfl
    simpa [hfree] using h.own i p hi
  constructor
  case own =>
    intro i p hi
    rw [hids, KeyedMap.get_set] at hi
    rw [hfiles]
    split at hi
    · cases hi
      rw [if_pos rfl]
      rfl
    · rw [if_neg (hpath i p hi)]
      exact h.own i p hi
  case inj =>
    rw [hids]
    exact inj_set h.own h.inj hfree
  case chained =>
    rw [hops', hids, get_set_update]
    exact hchained
  case directory =>
    intro i
    rw [hops', hids, get_set_update, heq]
    exact (h.directory i).trans (hops ▸ rfl)
  case documents =>
    rw [hops', ← h.documents, hops]
    funext i
    by_cases hi : i = id
    · subst hi
      obtain hshown | ⟨old, hold⟩ := hcontent
      · refine documentsAfter_congr ?_
        have hstates : s'.states = s.states := by rw [heq]
        simp only [DiskOp.documents, Function.update_self, Session.documents, hids, KeyedMap.get_set_self, hdetached,
          hstates, Option.bind_some, hfiles, if_true, Document.added, hshown]
      · exact documentsAfter_of_remove hold
    · refine documentsAfter_congr ?_
      have hstates : s'.states = s.states := by rw [heq]
      simp only [DiskOp.documents, Function.update_of_ne hi, Session.documents, hids, KeyedMap.get_set_ne hi,
        hdetached, if_neg hi, hstates]
      cases hp : s.ids.get i with
      | none => rfl
      | some p => simp only [Option.bind_some, hfiles, if_neg (hpath i p hp)]
  case target =>
    intro i src dst target' hrun
    rw [heq] at hrun
    cases hrun
  case others =>
    intro p hstart content' hget
    obtain ⟨hkept, hnone⟩ := h.others p hstart content' hget
    have hne : p ≠ path := by
      rintro rfl
      rw [hfree] at hkept
      cases hkept
    refine ⟨by rw [hfiles, if_neg hne]; exact hkept, fun i hi => ?_⟩
    rw [hids, KeyedMap.get_set] at hi
    split at hi
    · exact hne (Option.some.inj hi).symm
    · exact hnone i hi

theorem Inv.diskRename (h : Inv c start s docs) (hrunning : s.running = some (.rename id src dst, target))
    (hclear : s.Clear c .finish) (hs : { s with running := none }.diskRename c id src dst target = some s') :
    Inv c start s' docs := by
  rw [Session.Clear, hrunning] at hclear
  have hops : s.ops = .rename id src dst :: s.queue := by
    rw [Session.ops, hrunning]
    rfl
  have hchain := h.chained
  rw [hops] at hchain
  obtain ⟨⟨hsrc, hne⟩, hchained⟩ := hchain
  obtain ⟨content, hcontent⟩ := Option.isSome_iff_exists.mp (h.own id src hsrc)
  have htarget := h.target id src dst target hrunning
  -- The target is free, and only a diverted one is another path than the one asked for.
  have hfree : s.disk.isThere target = false ∧ (s.disk.isThere dst = false → target = dst) := by
    split at htarget
    · rename_i hdst
      exact ⟨htarget, fun hnot => by rw [hnot] at hdst; cases hdst⟩
    · rename_i hdst
      exact ⟨htarget ▸ Bool.eq_false_of_not_eq_true hdst, fun _ => htarget⟩
  have hnone := Disk.get_of_not_isThere hfree.1
  have hmoved : src ≠ target := by
    rintro rfl
    rw [hcontent] at hnone
    cases hnone
  obtain ⟨heq, hfiles⟩ :=
    Session.diskRename_spec (s := { s with running := none }) hne hcontent hmoved hs
  have hids : s'.ids = s.ids.set id target := by rw [heq]
  have hops' : s'.ops = s.queue := by
    rw [heq]
    rfl
  have hother : ∀ i p, i ≠ id → s.ids.get i = some p → s'.disk.files.get p = s.disk.files.get p := by
    intro i p hi hp
    rw [hfiles, if_neg, if_neg]
    · rintro rfl
      exact hi (h.inj i id p hp hsrc)
    · rintro rfl
      simpa [hnone] using h.own i p hp
  constructor
  case own =>
    intro i p hi
    rw [hids, KeyedMap.get_set] at hi
    split at hi
    · cases hi
      rw [hfiles, if_pos rfl]
      rfl
    · rename_i hid
      rw [hother i p hid hi]
      exact h.own i p hi
  case inj =>
    rw [hids]
    exact inj_set h.own h.inj hnone
  case chained =>
    rw [hops', hids, get_set_update]
    refine hchained.congr fun op hop => ?_
    cases hdst : s.disk.isThere dst with
    | false => rw [hfree.2 hdst]; rfl
    | true => rw [DiskOp.paths, Function.update_of_ne (hclear hdst op hop), Function.update_of_ne (hclear hdst op hop)]
  case directory =>
    intro i
    have hold : s.directory.get i = pathsAfter s.queue (Function.update s.ids.get id (some dst)) i :=
      (h.directory i).trans (hops ▸ rfl)
    rw [hops', hids, get_set_update, heq]
    cases hdst : s.disk.isThere dst with
    | false =>
      rw [if_neg Bool.false_ne_true, hfree.2 hdst]
      exact hold
    | true =>
      rw [if_pos rfl, KeyedMap.get_set]
      split
      · rename_i hid
        rw [hid, pathsAfter_of_none (hclear hdst), Function.update_self]
      · rename_i hid
        rw [hold]
        exact pathsAfter_congr (by rw [Function.update_of_ne hid, Function.update_of_ne hid])
  case documents =>
    rw [hops', ← h.documents, hops]
    funext i
    refine documentsAfter_congr ?_
    have hdetached : s'.detached = s.detached := by rw [heq]
    have hstates : s'.states = s.states := by rw [heq]
    simp only [DiskOp.documents, Session.documents, hdetached, hstates, hids, Document.mk.injEq, and_true]
    by_cases hi : i = id
    · subst hi
      rw [KeyedMap.get_set_self, hsrc, Option.bind_some, Option.bind_some, hfiles, if_pos rfl, hcontent]
    · rw [KeyedMap.get_set_ne hi]
      cases hp : s.ids.get i with
      | none => rfl
      | some p => exact hother i p hi hp
  case target =>
    intro i src dst target' hrun
    rw [heq] at hrun
    cases hrun
  case others =>
    intro p hstart content' hget
    obtain ⟨hkept, hfree'⟩ := h.others p hstart content' hget
    have hp : p ≠ target := by
      rintro rfl
      rw [hnone] at hkept
      cases hkept
    refine ⟨?_, fun i hi => ?_⟩
    · rw [hfiles, if_neg hp, if_neg]
      · exact hkept
      · rintro rfl
        exact hfree' id hsrc
    · rw [hids, KeyedMap.get_set] at hi
      split at hi
      · exact hp (Option.some.inj hi).symm
      · exact hfree' i hi

theorem Inv.diskRemove (h : Inv c start s docs) (hrunning : s.running = some (.remove id path, target))
    (hs : { s with running := none }.diskRemove c id path = some s') : Inv c start s' docs := by
  have hops : s.ops = .remove id path :: s.queue := by
    rw [Session.ops, hrunning]
    rfl
  have hchain := h.chained
  rw [hops] at hchain
  obtain ⟨hpath, hchained⟩ := hchain
  obtain ⟨content, hcontent⟩ := Option.isSome_iff_exists.mp (h.own id path hpath)
  obtain ⟨heq, hfiles⟩ := Session.diskRemove_spec (s := { s with running := none }) hcontent hs
  have hids : s'.ids = s.ids.delete id := by rw [heq]
  have hops' : s'.ops = s.queue := by
    rw [heq]
    rfl
  have hleft : ∀ i p, s'.ids.get i = some p → i ≠ id ∧ s.ids.get i = some p := by
    intro i p hi
    rw [hids, KeyedMap.get_delete] at hi
    split at hi
    · cases hi
    · rename_i hid
      exact ⟨hid, hi⟩
  have hother : ∀ i p, i ≠ id → s.ids.get i = some p → s'.disk.files.get p = s.disk.files.get p := by
    intro i p hi hp
    rw [hfiles, if_neg]
    rintro rfl
    exact hi (h.inj i id p hp hpath)
  constructor
  case own =>
    intro i p hi
    obtain ⟨hid, hp⟩ := hleft i p hi
    rw [hother i p hid hp]
    exact h.own i p hp
  case inj =>
    intro i i' p hi hi'
    exact h.inj i i' p (hleft i p hi).2 (hleft i' p hi').2
  case chained =>
    rw [hops', hids, get_delete_update]
    exact hchained
  case directory =>
    intro i
    rw [hops', hids, get_delete_update, heq]
    exact (h.directory i).trans (hops ▸ rfl)
  case documents =>
    rw [hops', ← h.documents, hops]
    funext i
    refine documentsAfter_congr ?_
    have hdetached : s'.detached = s.detached.delete id := by rw [heq]
    have hstates : s'.states = s.states.delete id := by rw [heq]
    by_cases hi : i = id
    · subst hi
      simp only [DiskOp.documents, Function.update_self, Session.documents, hids, hdetached, hstates,
        KeyedMap.get_delete, if_true, Option.bind_none, Document.gone]
    · simp only [DiskOp.documents, Function.update_of_ne hi, Session.documents, hids, hdetached, hstates,
        KeyedMap.get_delete, if_neg hi]
      cases hp : s.ids.get i with
      | none => rfl
      | some p => simp only [Option.bind_some, hother i p hi hp]
  case target =>
    intro i src dst target' hrun
    rw [heq] at hrun
    cases hrun
  case others =>
    intro p hstart content' hget
    obtain ⟨hkept, hfree⟩ := h.others p hstart content' hget
    refine ⟨?_, fun i hi => hfree i (hleft i p hi).2⟩
    rw [hfiles, if_neg]
    · exact hkept
    · rintro rfl
      exact hfree id hpath

theorem Inv.step (h : Inv c start s docs) {e : Event ι} (hclear : s.Clear c e) {next : Session ι × (ι → Document)}
    (hs : step c (s, docs) e = some next) : Inv c start next.1 next.2 := by
  obtain ⟨s', hs', rfl⟩ := Option.map_eq_some_iff.mp hs
  cases e with
  | change change =>
    obtain rfl := Option.some.inj hs'
    exact h.change change
  | begin =>
    dsimp only [Session.step] at hs'
    split at hs'
    · rename_i op queue hrunning hqueue
      obtain rfl := Option.some.inj hs'
      refine h.begin hrunning hqueue fun id src dst hop => ?_
      subst hop
      have hchain := h.chained
      rw [Session.ops, hrunning, hqueue] at hchain
      exact isThere_target (h.own id src hchain.1.1)
    · cases hs'
  | finish =>
    dsimp only [Session.step] at hs'
    cases hrunning : s.running with
    | none => simp [hrunning] at hs'
    | some op =>
      obtain ⟨op, target⟩ := op
      simp only [hrunning] at hs'
      cases op with
      | add id path => exact h.diskAdd hrunning hclear hs'
      | rename id src dst => exact h.diskRename hrunning hclear hs'
      | remove id path => exact h.diskRemove hrunning hs'

end Finish

/-- A session that has read its folder: each document has its file, at its own path, and nothing waits. -/
structure Session.Settled (s : Session ι) : Prop where
  idle : s.Idle
  ids : ∀ id, s.directory.get id = s.ids.get id
  inj : ∀ id id' path, s.ids.get id = some path → s.ids.get id' = some path → id = id'
  there : ∀ id path, s.ids.get id = some path → (s.disk.files.get path).isSome

section Runs
variable {c : Setting} {start s : Session ι} {docs : ι → Document}

omit [DecidableEq ι] in
theorem Session.ops_idle (h : s.Idle) : s.ops = [] := by
  rw [Session.ops, h.1, h.2]
  rfl

theorem Session.Settled.inv (h : start.Settled) : Inv c start start start.documents := by
  have hops := Session.ops_idle h.idle
  refine ⟨h.there, h.inj, hops ▸ trivial, fun id => ?_, ?_, fun id src dst target hrun => ?_,
    fun path hstart content hget => ⟨hget, hstart⟩⟩
  · rw [hops]
    exact h.ids id
  · rw [hops]
    rfl
  · rw [h.idle.1] at hrun
    cases hrun

theorem Inv.realised (h : Inv c start s docs) (hidle : s.Idle) : Realised start s docs := by
  have hops := Session.ops_idle hidle
  have hids : ∀ id, s.directory.get id = s.ids.get id := by
    intro id
    rw [h.directory, hops]
    rfl
  refine ⟨hids, fun id id' path hid hid' => ?_, fun id => ?_, fun id path hid => ?_, h.others⟩
  · exact h.inj id id' path (hids id ▸ hid) (hids id' ▸ hid')
  · rw [hids, ← h.documents, hops]
    rfl
  · exact h.own id path (hids id ▸ hid)

/-- While the path of every operation is free when it is done, or nothing else waits for its document, the
changes of the directory are what is on the disk once nothing waits. -/
theorem changes_realised (c : Setting) (hstart : start.Settled)
    (hrun : Run (step c) (fun s e => s.1.Clear c e) (start, start.documents) (s, docs)) (hidle : s.Idle) :
    Realised start s docs :=
  (hrun.invariant (fun s => Inv c start s.1 s.2) hstart.inv
    fun _ _ _ h hclear hs => h.step hclear hs).realised hidle

end Runs

/-! Two documents, and a third path. -/

def plainSetting : Setting := ⟨fun _ => false, []⟩

def twoNotes : Session Nat where
  directory := (KeyedMap.empty.set 0 ['a']).set 1 ['b']
  ids := (KeyedMap.empty.set 0 ['a']).set 1 ['b']
  disk := ⟨(KeyedMap.empty.set ['a'] [1]).set ['b'] [2], []⟩
  detached := .empty
  states := .empty
  running := none
  queue := []

theorem twoNotes_settled : twoNotes.Settled := by
  have hids : ∀ id path, twoNotes.ids.get id = some path → (id, path) = (0, ['a']) ∨ (id, path) = (1, ['b']) := by
    intro id path h
    have hmem : (id, path) ∈ [(0, ['a']), (1, ['b'])] := KeyedMap.mem_iff.mpr h
    simpa using hmem
  refine ⟨⟨rfl, rfl⟩, fun _ => rfl, fun id id' path hid hid' => ?_, fun id path hid => ?_⟩
  · obtain h | h := hids id path hid <;> obtain h' | h' := hids id' path hid' <;> cases h <;> cases h' <;> rfl
  · obtain h | h := hids id path hid <;> cases h <;> rfl

/-- The first note goes to the place of the second one, and a third note is added. -/
def oneRename : List (Event Nat) :=
  [.change (.rename 0 ['b']), .begin, .change (.add 2 ['c']), .finish, .begin, .finish]

theorem changes_realised_oneRename : ∃ s docs,
    exec (step plainSetting) (fun _ _ => True) (twoNotes, twoNotes.documents) oneRename = some (s, docs) ∧
    s.directory.get 0 = some "b 1".toList ∧ Realised twoNotes s docs := by
  refine ⟨_, _, rfl, rfl, changes_realised plainSetting twoNotes_settled ?_ ⟨rfl, rfl⟩⟩
  refine .tail Event.finish (.tail Event.begin (.tail Event.finish (.tail (Event.change (.add 2 ['c']))
    (.tail Event.begin (.tail (Event.change (.rename 0 ['b'])) .refl ?_ rfl) ?_ rfl) ?_ rfl) ?_ rfl) ?_ rfl) ?_ rfl
  · trivial
  · trivial
  · trivial
  · intro _ op hop
    obtain rfl := List.mem_singleton.mp hop
    decide
  · trivial
  · exact ⟨rfl, fun h => by cases h⟩

/-- The first note goes to the place of the second one, then to a third one, before the disk has followed. -/
def twoRenames : List (Event Nat) :=
  [.change (.rename 0 ['b']), .change (.rename 0 ['c']), .begin, .finish, .begin, .finish]

/-- The second operation still starts from the place of the second note, and moves that note's file. -/
theorem other_file_moved : ¬ ∀ (c : Setting) (start s : Session Nat) (docs : Nat → Document), start.Settled →
    Run (step c) (fun _ _ => True) (start, start.documents) (s, docs) → s.Idle → Realised start s docs := by
  intro hall
  have hexec : (exec (step plainSetting) (fun _ _ => True) (twoNotes, twoNotes.documents) twoRenames).map (fun s =>
      (s.1.running.isNone, s.1.queue.length, s.1.directory.get 0, s.1.ids.get 0, s.1.disk.files.get ['c'])) =
      some (true, 0, some "b 1".toList, some ['c'], some [2]) := by rfl
  obtain ⟨⟨s, docs⟩, hs, heq⟩ := Option.map_eq_some_iff.mp hexec
  simp only [Prod.mk.injEq] at heq
  obtain ⟨hrunning, hqueue, hdirectory, hids, -⟩ := heq
  have hidle : s.Idle := ⟨Option.isNone_iff_eq_none.mp hrunning, List.length_eq_zero_iff.mp hqueue⟩
  have hrealised := hall plainSetting twoNotes s docs twoNotes_settled (run_of_exec _ _ _ hs) hidle
  have hsame := hrealised.ids 0
  rw [hdirectory, hids] at hsame
  exact absurd hsame (by decide)

end Savoire.FolderQueue
