import Savoire.Index.Paths
import Savoire.Library.KeyedMap
import Savoire.Library.Transition
import Mathlib.Logic.Function.Basic

/-! The indexer of a vault on the disk: the files and the directory of the session, the passes that compare them
to the index, and the texts of the editor that go through the same queue. -/
namespace Savoire.DesktopVaultIndexer
open Transition VaultIndex

/-- What the sources and the options of the indexer give: which documents are texts, and what a version of a
source contains. -/
structure Host (C : Type*) where
  lower : Lower
  isText : Text → Bool
  text : Nat → C
  noteInputFromUpdates : Text → Nat → Option C
  batchSize : Nat

variable {C : Type*}

def noteExtensions : List Text :=
  ["md".toList, "outline".toList, "page".toList, "excalidraw".toList, "mindmap".toList]

section Host
variable (host : Host C)

def Host.indexable (path : Text) : Bool :=
  noteExtensions.contains (extOf host.lower path) && !isTrashPath path

/-- What is indexed of a version of the source of a document. -/
def Host.note (path : Text) (version : Nat) : Option C :=
  if host.isText path then some (host.text version) else host.noteInputFromUpdates path version

end Host

structure Sig where
  path : Text
  version : Option Nat
  deriving DecidableEq

structure Job where
  id : Text
  sig : Sig
  deriving DecidableEq

/-- What the watch of the disk tells: a file, or the CRDT state of a document. -/
inductive Change
  | file (path : Text)
  | state (id : Text)
  deriving DecidableEq

inductive Task (C : Type*)
  | flush
  | noteText (id path : Text) (content : C)

/-- Where the task in progress waits. In `reading`, `todo` are the jobs of the next batches, `chunk` those of the
batch that are not read yet. -/
inductive Stage (C : Type*)
  | listing
  | comparing (docs : List Job)
  | removing (jobs : List Job) (gone : List Text)
  | signing (docs : List (Text × Text)) (paths : List Change)
  | statting (docs : List (Text × Text)) (paths : List Change) (seen : List Text) (jobs : List Job)
  | reading (initial : Bool) (todo chunk : List Job) (reads : List (Job × Option C))
  | marking
  | noteText (id path : Text) (content : C)

/-- `files`, `states` are the versions on the disk, `unsaved` the states of open documents that are not on it yet.
`texts` records the last text of the editor that was indexed. -/
structure State (C : Type*) where
  files : Text → Option Nat
  states : Text → Nat
  unsaved : Text → Option Nat
  directory : KeyedMap Text Text
  watch : List Change
  directoryChanged : Bool
  index : KeyedMap Text (Text × C)
  stored : KeyedMap Text Sig
  built : Bool
  rebuildRequired : Bool
  first : Bool
  timer : Bool
  fullPending : Bool
  changed : List Change
  queue : List (Task C)
  running : Option (Stage C)
  texts : Text → Option C

section Indexer
variable (host : Host C) (s : State C)

def State.docs : List (Text × Text) := s.directory.entries.filter fun d => host.indexable d.2

def State.sigOf (id path : Text) : Sig :=
  ⟨path, if host.isText path then s.files path else some (s.states id)⟩

def State.schedule (full : Bool) : State C :=
  { s with fullPending := s.fullPending || full, timer := true }

/-- The next batch, or the end of `run`. -/
def State.nextBatch (initial : Bool) (jobs : List Job) : State C := { s with
  running :=
    if jobs.isEmpty then if initial then some .marking else none
    else some (.reading initial (jobs.drop host.batchSize) (jobs.take host.batchSize) []) }

/-- `reconcile`, once what has gone is removed. -/
def State.runFirst (jobs : List Job) : State C :=
  State.nextBatch host { s with first := false } (s.first && s.rebuildRequired) jobs

/-- `flush` -/
def State.flush : State C :=
  if s.fullPending then { s with fullPending := false, changed := [], running := some .listing }
  else if s.changed.isEmpty then s
  else { s with changed := [], running := some (.signing (s.docs host) s.changed) }

def docOf (docs : List (Text × Text)) : Change → Option (Text × Text)
  | .file path => (docs.reverse.find? fun d => d.2 = path).filter fun d => host.isText d.2
  | .state id => docs.find? fun d => d.1 = id && !host.isText d.2

/-- `update`: the signature of the next changed path; a folder that is not read gives none. -/
def State.stat (docs : List (Text × Text)) (path : Change) (seen : List Text) (jobs : List Job) (ok : Bool) :
    List Text × List Job :=
  match docOf host docs path with
  | none => (seen, jobs)
  | some d =>
    if d.1 ∈ seen then (seen, jobs)
    else
      let sig : Sig := if ok then s.sigOf host d.1 d.2 else ⟨d.2, none⟩
      (d.1 :: seen, if s.stored.get d.1 = some sig then jobs else jobs ++ [⟨d.1, sig⟩])

/-- `read`: what the source of a document contains; none where the file is missing. -/
def State.read (job : Job) : Option (Option C) :=
  if host.isText job.sig.path then (s.files job.sig.path).map fun v => some (host.text v)
  else some (host.noteInputFromUpdates job.sig.path ((s.unsaved job.id).getD (s.states job.id)))

/-- `applyDocs`, for the notes of a batch. -/
def applyInputs (index : KeyedMap Text (Text × C)) (reads : List (Job × Option C)) : KeyedMap Text (Text × C) :=
  reads.foldl (fun index r => match r.2 with
    | some content => index.set r.1.id (r.1.sig.path, content)
    | none => index) index

/-- The signatures of a batch. -/
def applySigs (stored : KeyedMap Text Sig) (reads : List (Job × Option C)) : KeyedMap Text Sig :=
  reads.foldl (fun stored r => stored.set r.1.id r.1.sig) stored

def State.onDisk (files : Text → Option Nat) (states : Text → Nat) (unsaved : Text → Option Nat)
    (changes : List Change) : State C :=
  { s with files, states, unsaved, watch := s.watch ++ changes }

end Indexer

inductive Event (C : Type*)
  | write (path : Text) (version : Nat)
  | remove (path : Text)
  | rename (source target : Text)
  | writeState (id : Text) (version : Nat)
  | edit (id : Text) (version : Nat)
  | project (id : Text)
  | directory (docs : KeyedMap Text Text)
  | deliver (k : Nat)
  | deliverDirectory
  | timer
  | noteText (id path : Text) (content : C)
  | start
  | listed (ok : Bool)
  | compared (ok : Bool)
  | removed (ok written : Bool)
  | signed (ok : Bool)
  | statted (ok : Bool)
  | read (k : Nat) (ok : Bool)
  | applied (ok written : Bool)
  | marked (ok : Bool)
  | noteApplied (ok : Bool)

def State.world (s : State C) : Event C → Option (State C)
  | .write path version => some (s.onDisk (Function.update s.files path (some version)) s.states s.unsaved [.file path])
  | .remove path => some (s.onDisk (Function.update s.files path none) s.states s.unsaved [.file path])
  | .rename source target =>
    if source = target then none
    else some (s.onDisk (Function.update (Function.update s.files target (s.files source)) source none) s.states
      s.unsaved [.file source, .file target])
  | .writeState id version =>
    some (s.onDisk s.files (Function.update s.states id version) s.unsaved [.state id])
  | .edit id version =>
    if version = s.states id then none
    else some { s with unsaved := Function.update s.unsaved id (some version) }
  | .project id => match s.unsaved id with
    | none => none
    | some version =>
      some (s.onDisk s.files (Function.update s.states id version) (Function.update s.unsaved id none) [.state id])
  | .directory docs => some { s with directory := docs, directoryChanged := true }
  | _ => none

/-- The tasks and the events of the indexer. What fails ends the task. -/
def step (host : Host C) (s : State C) : Event C → Option (State C)
  | .deliver k => match s.watch[k]? with
    | none => none
    | some c => some (State.schedule { s with watch := s.watch.eraseIdx k, changed := s.changed ++ [c] } false)
  | .deliverDirectory =>
    if s.directoryChanged then some (State.schedule { s with directoryChanged := false } true) else none
  | .timer => if s.timer then some { s with timer := false, queue := s.queue ++ [.flush] } else none
  | .noteText id path content =>
    if host.indexable path then some { s with queue := s.queue ++ [.noteText id path content] } else some s
  | .start => match s.running, s.queue with
    | none, .flush :: queue => some (State.flush host { s with queue := queue })
    | none, .noteText id path content :: queue =>
      some { s with queue := queue, running := some (.noteText id path content) }
    | _, _ => none
  | .listed ok => match s.running with
    | some .listing =>
      if ok then some { s with
        running := some (.comparing ((s.docs host).map fun d => ⟨d.1, s.sigOf host d.1 d.2⟩)) }
      else some { s with running := none }
    | _ => none
  | .compared ok => match s.running with
    | some (.comparing docs) =>
      if ok then
        let jobs := docs.filter fun job => s.stored.get job.id ≠ some job.sig
        let gone := (s.stored.entries.map Prod.fst ++ s.index.entries.map Prod.fst).filter fun id =>
          !(docs.map Job.id).contains id
        if gone.isEmpty then some (s.runFirst host jobs) else some { s with running := some (.removing jobs gone) }
      else some { s with running := none }
    | _ => none
  | .removed ok written => match s.running with
    | some (.removing jobs gone) =>
      let index := if ok || written then s.index.filter fun e => !gone.contains e.1 else s.index
      if ok then some (State.runFirst host { s with
        index := index, stored := s.stored.filter fun e => !gone.contains e.1 } jobs)
      else some { s with index := index, running := none }
    | _ => none
  | .signed ok => match s.running with
    | some (.signing docs paths) =>
      some { s with running := if ok then some (.statting docs paths [] []) else none }
    | _ => none
  | .statted ok => match s.running with
    | some (.statting docs (path :: paths) seen jobs) =>
      let found := s.stat host docs path seen jobs ok
      if paths.isEmpty then some (s.nextBatch host false found.2)
      else some { s with running := some (.statting docs paths found.1 found.2) }
    | _ => none
  | .read k ok => match s.running with
    | some (.reading initial todo chunk reads) => match chunk[k]? with
      | none => none
      | some job =>
        let result := if ok then s.read host job else none
        some { s with running := some (.reading initial todo (chunk.eraseIdx k)
          (match result with
            | some input => reads ++ [(job, input)]
            | none => reads)) }
    | _ => none
  | .applied ok written => match s.running with
    | some (.reading initial todo [] reads) =>
      let index := if ok || written then applyInputs s.index reads else s.index
      if ok then
        some (State.nextBatch host { s with index := index, stored := applySigs s.stored reads } initial todo)
      else some { s with index := index, running := none }
    | _ => none
  | .marked ok => match s.running with
    | some .marking => some { s with built := s.built || ok, running := none }
    | _ => none
  | .noteApplied ok => match s.running with
    | some (.noteText id path content) =>
      if ok then some { s with
        index := s.index.set id (path, content), texts := Function.update s.texts id (some content), running := none }
      else some { s with running := none }
    | _ => none
  | e => s.world e

/-- `start`, after the texts that were given before it. -/
def start (disk : Text → Option Nat) (states : Text → Nat) (directory : KeyedMap Text Text)
    (index : KeyedMap Text (Text × C)) (stored : KeyedMap Text Sig) (rebuildRequired : Bool)
    (notes : List (Text × Text × C)) : State C where
  files := disk
  states := states
  unsaved _ := none
  directory := directory
  watch := []
  directoryChanged := false
  index := index
  stored := stored
  built := false
  rebuildRequired := rebuildRequired
  first := true
  timer := false
  fullPending := true
  changed := []
  queue := notes.map (fun n => .noteText n.1 n.2.1 n.2.2) ++ [.flush]
  running := none
  texts _ := none

end Savoire.DesktopVaultIndexer
