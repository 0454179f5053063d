import Savoire.Library.Transition
import Savoire.Vault.Directory

/-! Calls of one client that run together: a new document gets its path before the session has
registered it and uploaded its file, and enters the directory after. -/
namespace Savoire.VaultClient
open Transition (Run exec run_of_exec)
open VaultIndex (isTrashPath)

inductive Call
  | creating (id : DocId) (normalizedPath : Text)
  | registering (id : DocId) (path : Text)
  | uploading (id : DocId) (path : Text)
  deriving DecidableEq

def Call.id : Call → DocId
  | .creating id _ | .registering id _ | .uploading id _ => id

structure State where
  directory : Directory
  calls : List Call

/-- The events that start a document carry the id that `crypto.randomUUID` gives. -/
inductive Event
  | createFile (path : Text) (id : DocId)
  | uploadAttachment (name : Text) (notePath : Option Text) (id : DocId)
  | registered (k : Nat) (ok : Bool)
  | uploaded (k : Nat) (ok : Bool)
  | deleteFile (documentId : DocId)
  | deleteFolder (path : Text)
  | restoreFromTrash (documentId : DocId)
  | deleteFilePermanently (documentId : DocId)
  deriving DecidableEq

section Definitions
variable (s : State)

def State.Fresh (id : DocId) : Prop := s.directory.getById id = none ∧ ∀ c ∈ s.calls, c.id ≠ id

instance (id : DocId) : Decidable (s.Fresh id) := inferInstanceAs (Decidable (_ ∧ _))

/-- `createFile`, up to its first wait. -/
def createFile (path : Text) (id : DocId) : State :=
  let normalizedPath := Links.withNoteExtension path
  if (findDocumentByPath s.directory path).isSome ∨ (findDocumentByPath s.directory normalizedPath).isSome then s
  else { s with calls := s.calls ++ [.creating id normalizedPath] }

/-- `storeAttachment`, up to its first wait; without session the file does not enter the
directory. -/
def storeAttachment (session : Bool) (name : Text) (notePath : Option Text) (id : DocId) : State :=
  if session then
    let folder := attachmentFolderFor notePath attachmentLocation
    let path := uniqueAttachmentPath name s.directory.paths folder
    { s with calls := s.calls ++ [.registering id path] }
  else s

def addDocument (k : Nat) (id : DocId) (path : Text) : State :=
  ⟨s.directory.add id path, s.calls.eraseIdx k⟩

def registered (k : Nat) (ok : Bool) : Call → Option State
  | .creating id path => some (if ok then addDocument s k id path else { s with calls := s.calls.eraseIdx k })
  | .registering id path =>
    some { s with calls := if ok then s.calls.set k (.uploading id path) else s.calls.eraseIdx k }
  | .uploading .. => none

def uploaded (k : Nat) (ok : Bool) : Call → Option State
  | .uploading id path => some (if ok then addDocument s k id path else { s with calls := s.calls.eraseIdx k })
  | _ => none

def step (session : Bool) (s : State) : Event → Option State
  | .createFile path id => if s.Fresh id then some (createFile s path id) else none
  | .uploadAttachment name notePath id =>
    if s.Fresh id then some (storeAttachment s session name notePath id) else none
  | .registered k ok => s.calls[k]?.bind (registered s k ok)
  | .uploaded k ok => s.calls[k]?.bind (uploaded s k ok)
  | .deleteFile id => some { s with directory := deleteFile s.directory id }
  | .deleteFolder path => some { s with directory := deleteFolder s.directory path }
  | .restoreFromTrash id =>
    match restoreFromTrash s.directory id with
    | .ok r => some { s with directory := r.1 }
    | .error _ => some s
  | .deleteFilePermanently id =>
    match deleteFilePermanently s.directory id with
    | .ok d => some { s with directory := d }
    | .error _ => some s

/-- The document that an event puts into the directory. -/
def added : Event → Option (DocId × Text)
  | .registered k true => match s.calls[k]? with
    | some (.creating id path) => some (id, path)
    | _ => none
  | .uploaded k true => match s.calls[k]? with
    | some (.uploading id path) => some (id, path)
    | _ => none
  | _ => none

/-- What a call adds has a path that is still free when its wait ends. -/
def Clear (e : Event) : Prop := ∀ doc ∈ added s e, doc.2 ∉ s.directory.paths

instance (e : Event) : Decidable (Clear s e) := by
  unfold Clear
  infer_instance

end Definitions

def movers (d : Directory) : Event → DocId → Prop
  | .deleteFile id, j | .restoreFromTrash id, j => j = id
  | .deleteFolder dir, j => ∃ path, d.getById j = some path ∧ path.startsWith (folderStart dir) = true
  | _, _ => False

structure Inv (d : Directory) (calls : List Call) : Prop where
  fresh : ∀ c ∈ calls, d.getById c.id = none
  ids : (calls.map Call.id).Nodup

section
variable {session : Bool} {s s' : State} {d : Directory} {calls : List Call} {c : Call} {e : Event} {id : DocId}
  {path : Text} {k : Nat} {ok : Bool}

theorem Inv.start (h : Inv d calls) (hd : d.getById id = none) (hc : ∀ c ∈ calls, c.id ≠ id) (hnew : c.id = id) :
    Inv d (calls ++ [c]) where
  fresh a ha := by
    obtain hold | hlast := List.mem_append.1 ha
    · exact h.fresh a hold
    · rw [List.mem_singleton.1 hlast, hnew]
      exact hd
  ids := by
    rw [List.map_append]
    refine List.nodup_append.2 ⟨h.ids, List.nodup_singleton _, ?_⟩
    intro a ha b hb hab
    obtain ⟨x, hx, rfl⟩ := List.mem_map.1 ha
    rw [List.map_singleton, List.mem_singleton, hnew] at hb
    exact hc x hx (hab.trans hb)

theorem Inv.drop (h : Inv d calls) (k : Nat) : Inv d (calls.eraseIdx k) where
  fresh a ha := h.fresh a (List.mem_of_mem_eraseIdx ha)
  ids := h.ids.sublist ((List.eraseIdx_sublist calls k).map Call.id)

theorem Inv.upload (h : Inv d calls) (hk : calls[k]? = some (.registering id path)) :
    Inv d (calls.set k (.uploading id path)) where
  fresh a ha := by
    obtain hold | rfl := List.mem_or_eq_of_mem_set ha
    · exact h.fresh a hold
    · exact h.fresh (.registering id path) (List.mem_of_getElem? hk)
  ids := by
    have hid : (calls.map Call.id)[k]? = some id := by
      rw [List.getElem?_map, hk]
      rfl
    have hsame : (calls.set k (.uploading id path)).map Call.id = calls.map Call.id := by
      obtain ⟨hlt, hget⟩ := List.getElem?_eq_some_iff.1 hid
      rw [List.map_set]
      exact (congrArg _ hget.symm).trans (List.set_getElem_self hlt)
    rw [hsame]
    exact h.ids

theorem Inv.add (h : Inv d calls) (hk : calls[k]? = some c) : Inv (d.add c.id path) (calls.eraseIdx k) where
  fresh a ha := by
    have hne : a.id ≠ c.id := by
      intro heq
      obtain ⟨j, hjk, hj⟩ := List.mem_eraseIdx_iff_getElem?.1 ha
      have hlt : j < (calls.map Call.id).length := by
        rw [List.length_map]
        exact (List.getElem?_eq_some_iff.1 hj).1
      refine hjk ((List.getElem?_inj hlt h.ids).1 ?_)
      rw [List.getElem?_map, List.getElem?_map, hj, hk]
      exact congrArg some heq
    rw [Directory.getById_add, if_neg hne]
    exact h.fresh a (List.mem_of_mem_eraseIdx ha)
  ids := (h.drop k).ids

theorem Inv.directory {d' : Directory} (h : Inv d calls) (hd : ∀ id, d.getById id = none → d'.getById id = none) :
    Inv d' calls :=
  ⟨fun c hc => hd c.id (h.fresh c hc), h.ids⟩

inductive Effect (s : State) (e : Event) : State → Prop
  | add (k : Nat) (c : Call) (path : Text) (hc : s.calls[k]? = some c) (hadded : added s e = some (c.id, path)) :
      Effect s e (addDocument s k c.id path)
  | remove (id : DocId) (he : e = .deleteFilePermanently id) :
      Effect s e { s with directory := s.directory.remove id }
  | move (s' : State) (hadded : added s e = none) (hmoved : Moved (movers s.directory e) s.directory s'.directory)
      (hcalls : Inv s.directory s'.calls) : Effect s e s'

theorem effect_calls {calls : List Call} (hadded : added s e = none)
    (hcalls : Inv s.directory calls) : Effect s e { s with calls := calls } :=
  .move _ hadded (.refl _) hcalls

section
variable (h : Inv s.directory s.calls)
include h

theorem effect_createFile (hfresh : s.Fresh id) :
    Effect s (.createFile path id) (createFile s path id) := by
  unfold createFile
  dsimp only
  split
  · exact effect_calls rfl h
  · exact effect_calls rfl (h.start hfresh.1 hfresh.2 rfl)

theorem effect_storeAttachment (hfresh : s.Fresh id) (name : Text)
    (notePath : Option Text) :
    Effect s (.uploadAttachment name notePath id) (storeAttachment s session name notePath id) := by
  unfold storeAttachment
  split
  · exact effect_calls rfl (h.start hfresh.1 hfresh.2 rfl)
  · exact effect_calls rfl h

theorem effect_registered (hc : s.calls[k]? = some c)
    (hs : registered s k ok c = some s') : Effect s (.registered k ok) s' := by
  cases c with
  | creating id path =>
    cases ok with
    | true =>
      cases hs
      exact .add k (.creating id path) path hc (by simp [added, hc, Call.id])
    | false =>
      cases hs
      exact effect_calls rfl (h.drop k)
  | registering id path =>
    cases ok with
    | true =>
      cases hs
      exact effect_calls (by simp [added, hc]) (h.upload hc)
    | false =>
      cases hs
      exact effect_calls rfl (h.drop k)
  | uploading id path => cases hs

theorem effect_uploaded (hc : s.calls[k]? = some c)
    (hs : uploaded s k ok c = some s') : Effect s (.uploaded k ok) s' := by
  cases c with
  | uploading id path =>
    cases ok with
    | true =>
      cases hs
      exact .add k (.uploading id path) path hc (by simp [added, hc, Call.id])
    | false =>
      cases hs
      exact effect_calls rfl (h.drop k)
  | creating id path => cases hs
  | registering id path => cases hs

theorem effect_restore (hs : step session s (.restoreFromTrash id) = some s') :
    Effect s (.restoreFromTrash id) s' := by
  simp only [step] at hs
  split at hs
  · rename_i r hr
    cases hs
    exact .move _ rfl (moved_restore hr) h
  · cases hs
    exact .move _ rfl (.refl _) h

theorem effect_deleteFilePermanently
    (hs : step session s (.deleteFilePermanently id) = some s') : Effect s (.deleteFilePermanently id) s' := by
  simp only [step] at hs
  split at hs
  · rename_i d hd
    cases hs
    obtain ⟨rfl, -⟩ | ⟨path, -, -, rfl⟩ := deleteFilePermanently_cases hd
    · exact .move _ rfl (.refl _) h
    · exact .remove id rfl
  · cases hs
    exact .move _ rfl (.refl _) h

theorem step_effect (hs : step session s e = some s') : Effect s e s' := by
  cases e with
  | createFile path id =>
    simp only [step] at hs
    split at hs
    · cases hs
      exact effect_createFile h ‹_›
    · cases hs
  | uploadAttachment name notePath id =>
    simp only [step] at hs
    split at hs
    · cases hs
      exact effect_storeAttachment h ‹_› name notePath
    · cases hs
  | registered k ok =>
    obtain ⟨c, hc, hs⟩ := Option.bind_eq_some_iff.1 hs
    exact effect_registered h hc hs
  | uploaded k ok =>
    obtain ⟨c, hc, hs⟩ := Option.bind_eq_some_iff.1 hs
    exact effect_uploaded h hc hs
  | deleteFile id =>
    cases hs
    exact .move _ rfl (moved_trash _ id) h
  | deleteFolder path =>
    cases hs
    exact .move _ rfl (moved_deleteFolder _ path) h
  | restoreFromTrash id => exact effect_restore h hs
  | deleteFilePermanently id => exact effect_deleteFilePermanently h hs

theorem Effect.inv (he : Effect s e s') : Inv s'.directory s'.calls := by
  cases he with
  | add k c path hc hadded => exact h.add hc
  | remove id he =>
    refine h.directory fun j hj => ?_
    rw [Directory.getById_remove]
    split
    · rfl
    · exact hj
  | move s' hadded hmoved hcalls => exact hcalls.directory hmoved.new

end

theorem run_inv {ok : State → Event → Prop} {start : State} (hcalls : start.calls = [])
    (h : Run (step session) ok start s) : Inv s.directory s.calls := by
  refine h.invariant (fun s => Inv s.directory s.calls) ?_ fun s e s' hs _ hstep => (step_effect hs hstep).inv hs
  rw [hcalls]
  exact ⟨fun c hc => absurd hc List.not_mem_nil, List.nodup_nil⟩

theorem Effect.distinct_iff (h : Inv s.directory s.calls) (hd : s.directory.Distinct) (he : Effect s e s') :
    s'.directory.Distinct ↔ Clear s e := by
  cases he with
  | add k c path hc hadded =>
    have hclear : Clear s e ↔ path ∉ s.directory.paths := by simp [Clear, hadded]
    have hnew : s.directory.getById c.id = none := h.fresh c (List.mem_of_getElem? hc)
    rw [hclear]
    constructor
    · intro hd' hmem
      obtain ⟨i, hi⟩ := Directory.mem_paths.1 hmem
      have hne : i ≠ c.id := by
        rintro rfl
        rw [hnew] at hi
        cases hi
      have hold : (s.directory.add c.id path).getById i = some path := by
        rw [Directory.getById_add, if_neg hne]
        exact hi
      have hadd : (s.directory.add c.id path).getById c.id = some path := by
        rw [Directory.getById_add, if_pos rfl]
      exact hne (hd' i c.id path hold hadd)
    · exact fun hfree => hd.put hfree fun j => Directory.getById_add
  | remove id he =>
    have hclear : Clear s e := by simp [Clear, he, added]
    refine iff_of_true (fun i j p hi hj => ?_) hclear
    have hkeep : ∀ k, (s.directory.remove id).getById k = some p → s.directory.getById k = some p := by
      intro k hk
      rw [Directory.getById_remove] at hk
      split at hk
      · cases hk
      · exact hk
    exact hd i j p (hkeep i hi) (hkeep j hj)
  | move s' hadded hmoved hcalls =>
    have hclear : Clear s e := by simp [Clear, hadded]
    exact iff_of_true (hmoved.distinct hd) hclear

theorem Effect.gone (he : Effect s e s') (hid : s.directory.getById id ≠ none)
    (hgone : s'.directory.getById id = none) : e = .deleteFilePermanently id := by
  cases he with
  | add k c path hc hadded =>
    rw [addDocument, Directory.getById_add] at hgone
    split at hgone
    · cases hgone
    · exact absurd hgone hid
  | remove j he =>
    rw [Directory.getById_remove] at hgone
    split at hgone
    · rename_i hj
      rw [he, hj]
    · exact absurd hgone hid
  | move s' hadded hmoved hcalls => exact absurd hgone (hmoved.stays id hid)

theorem Effect.moved {p q : Text} (h : Inv s.directory s.calls) (he : Effect s e s')
    (hp : s.directory.getById id = some p) (hq : s'.directory.getById id = some q) (hne : q ≠ p) :
    movers s.directory e id := by
  cases he with
  | add k c path hc hadded =>
    have hold : id ≠ c.id := by
      rintro rfl
      rw [h.fresh c (List.mem_of_getElem? hc)] at hp
      cases hp
    rw [addDocument, Directory.getById_add, if_neg hold, hp] at hq
    exact absurd (Option.some.inj hq).symm hne
  | remove j he =>
    rw [Directory.getById_remove] at hq
    split at hq
    · cases hq
    · rw [hp] at hq
      exact absurd (Option.some.inj hq).symm hne
  | move s' hadded hmoved hcalls =>
    by_contra hnot
    rw [hmoved.kept id hnot, hp] at hq
    exact hne (Option.some.inj hq).symm

/-- Neither restores the document nor deletes it for good. -/
def Spares (id : DocId) (e : Event) : Prop := e ≠ .restoreFromTrash id ∧ e ≠ .deleteFilePermanently id

theorem step_of_trashed {p : Text} (h : Inv s.directory s.calls) (hs : step session s e = some s')
    (hp : s.directory.getById id = some p) (htrash : isTrashPath p = true) (hspare : Spares id e) :
    s'.directory.getById id = some p := by
  have heffect := step_effect h hs
  have hstays : movers s.directory e id → s'.directory.getById id = some p := by
    intro hmover
    cases e with
    | deleteFile j =>
      cases hs
      exact trash_of_trashed hp htrash
    | deleteFolder dir =>
      cases hs
      exact deleteFolder_of_trashed dir hp htrash
    | restoreFromTrash j => exact absurd (congrArg Event.restoreFromTrash hmover.symm) hspare.1
    | _ => exact hmover.elim
  cases hq : s'.directory.getById id with
  | none =>
    have hid : s.directory.getById id ≠ none := by
      rw [hp]
      exact Option.some_ne_none p
    exact absurd (heffect.gone hid hq) hspare.2
  | some q =>
    by_cases hqp : q = p
    · rw [hqp]
    · have hmover := heffect.moved h hp hq hqp
      rw [← hq]
      exact hstays hmover

theorem run_of_trashed {p : Text} {a b : State} (h : Inv a.directory a.calls)
    (hrun : Run (step session) (fun _ e => Spares id e) a b) (hp : a.directory.getById id = some p)
    (htrash : isTrashPath p = true) : b.directory.getById id = some p := by
  have hboth : Inv b.directory b.calls ∧ b.directory.getById id = some p := by
    refine hrun.invariant (fun s => Inv s.directory s.calls ∧ s.directory.getById id = some p) ⟨h, hp⟩ ?_
    rintro s e s' ⟨hs, hsp⟩ hspare hstep
    exact ⟨(step_effect hs hstep).inv hs, step_of_trashed hs hstep hsp htrash hspare⟩
  exact hboth.2

theorem restored {p : Text} {a b c : State} (h : Inv s.directory s.calls)
    (hp : s.directory.getById id = some p) (hout : isTrashPath p = false) (hfree : trashDir ++ p ∉ s.directory.paths)
    (htrash : step session s (.deleteFile id) = some a) (hrun : Run (step session) (fun _ e => Spares id e) a b)
    (hback : p ∉ b.directory.paths) (hrestore : step session b (.restoreFromTrash id) = some c) :
    c.directory.getById id = some p := by
  have ha : a.directory.getById id = some (trashDir ++ p) := by
    cases htrash
    exact trash_of_free hp hout hfree
  have hb := run_of_trashed ((step_effect h htrash).inv h) hrun ha (isTrashPath_append p)
  simp only [step] at hrestore
  split at hrestore
  · rename_i r hr
    cases hrestore
    exact (restore_of_free hb hback hr).1
  · -- the document is there, so it does not fail
    rename_i hfail
    simp [restoreFromTrash, hb, isTrashPath_append] at hfail

/-- In every run, a document disappears only by a deletion for good and moves only by a deletion or
a restoration, and one trashed and restored in free places is back at its path. Paths stay distinct
as long as every document that is added has a path that is still free, and no longer. -/
theorem paths_unique_while_free {start : State} (hstart : start.directory.Distinct) (hcalls : start.calls = [])
    (hrun : Run (step session) (fun _ _ => True) start s) :
    (Run (step session) Clear start s → s.directory.Distinct ∧
      ∀ e s', step session s e = some s' → (s'.directory.Distinct ↔ Clear s e)) ∧
    (∀ e s' id p, step session s e = some s' → s.directory.getById id = some p →
      (s'.directory.getById id = none → e = .deleteFilePermanently id) ∧
      ∀ q, s'.directory.getById id = some q → q ≠ p → movers s.directory e id) ∧
    ∀ a b c id p, s.directory.getById id = some p → isTrashPath p = false → trashDir ++ p ∉ s.directory.paths →
      step session s (.deleteFile id) = some a → Run (step session) (fun _ e => Spares id e) a b →
      p ∉ b.directory.paths → step session b (.restoreFromTrash id) = some c → c.directory.getById id = some p := by
  have hinv := run_inv hcalls hrun
  refine ⟨fun hclear => ?_, fun e s' id p hs hp => ⟨fun hgone => ?_, fun q hq hne => ?_⟩, ?_⟩
  · have hinv0 : Inv start.directory start.calls := run_inv hcalls (@Run.refl _ _ (step session) Clear start)
    have hboth : Inv s.directory s.calls ∧ s.directory.Distinct := by
      refine hclear.invariant (fun s => Inv s.directory s.calls ∧ s.directory.Distinct) ⟨hinv0, hstart⟩ ?_
      rintro a e a' ⟨ha, hd⟩ hok hstep
      have heffect := step_effect ha hstep
      exact ⟨heffect.inv ha, (heffect.distinct_iff ha hd).2 hok⟩
    exact ⟨hboth.2, fun e s' hs => (step_effect hinv hs).distinct_iff hinv hboth.2⟩
  · have hid : s.directory.getById id ≠ none := by
      rw [hp]
      exact Option.some_ne_none p
    exact (step_effect hinv hs).gone hid hgone
  · exact (step_effect hinv hs).moved hinv hp hq hne
  · intro a b c id p hp hout hfree htrash hspare hback hrestore
    exact restored hinv hp hout hfree htrash hspare hback hrestore

end

def emptyVault : State := ⟨⟨KeyedMap.empty, KeyedMap.empty⟩, []⟩

theorem emptyVault_distinct : emptyVault.directory.Distinct := by
  intro i j path hi
  cases hi

/-- The vault with one document. -/
def oneNote : State :=
  ⟨⟨KeyedMap.empty.set "a".toList "Note.md".toList, KeyedMap.empty⟩, []⟩

def createOne : List Event := [.createFile "Note".toList "a".toList, .registered 0 true]

theorem paths_unique_while_free_one : oneNote.directory.Distinct ∧
    ∀ b c, Run (step true) (fun _ e => Spares "a".toList e)
        { oneNote with directory := deleteFile oneNote.directory "a".toList } b →
      "Note.md".toList ∉ b.directory.paths → step true b (.restoreFromTrash "a".toList) = some c →
      c.directory.getById "a".toList = some "Note.md".toList := by
  have hclear : Run (step true) Clear emptyVault oneNote := run_of_exec createOne _ _ rfl
  have hall := paths_unique_while_free emptyVault_distinct rfl (hclear.weaken fun _ _ _ => trivial)
  refine ⟨(hall.1 hclear).1, fun b c hrun hback hrestore => ?_⟩
  exact hall.2.2 _ b c "a".toList "Note.md".toList rfl rfl (by decide +kernel) rfl hrun hback hrestore

def createTwo : List Event :=
  [.createFile "Note".toList "a".toList, .createFile "Note".toList "b".toList, .registered 0 true, .registered 0 true]

theorem two_documents_one_path : ¬ ∀ start : State, start.directory.Distinct → start.calls = [] →
    ∀ s, Run (step true) (fun _ _ => True) start s → s.directory.Distinct := by
  intro h
  have hrun : Run (step true) (fun _ _ => True) emptyVault _ := run_of_exec createTwo _ _ rfl
  have hsame : "a".toList = "b".toList := h emptyVault emptyVault_distinct rfl _ hrun _ _ "Note.md".toList rfl rfl
  exact absurd hsame (by decide)

end Savoire.VaultClient
