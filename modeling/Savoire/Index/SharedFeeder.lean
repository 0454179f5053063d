import Savoire.Library.KeyedMap
import Savoire.Library.Transition
import Savoire.Text

/-! What feeds the local index of a client without the files of the vault: the metadata of all the notes, the
texts that this client has opened or read, and the signatures of what was indexed. -/
namespace Savoire.SharedIndexFeeder
open Transition

structure SharedNote (π : Type*) where
  id : Text
  path : Text
  title : Text
  props : π

/-- The notes of the directory, each once. -/
structure Notes (π : Type*) where
  notes : List (SharedNote π)
  nodup : (notes.map SharedNote.id).Nodup

/-- `metaSignature` is the hash of the path, title and properties. `readable`: `readText` is given. -/
structure Options (π : Type*) where
  metaSignature : SharedNote π → Text
  readable : Bool
  batchSize : Nat
  rebuildRequired : Bool

/-- What a document was last indexed from: its full text, received or read after `since` syncs had taken up the
metadata, or its metadata alone. -/
inductive Content (π : Type*)
  | full (path content : Text) (since : Nat)
  | record (note : SharedNote π)

/-- One call of the index that writes: the notes first, then their signatures. -/
structure Write (π : Type*) where
  removed : List Text
  inputs : KeyedMap Text (Content π)
  sigs : KeyedMap Text Text

/-- What a sync has still to write. -/
structure Work (π : Type*) where
  gone : List Text
  adopted : KeyedMap Text Text
  metaOnly : List (SharedNote π)
  reread : List (SharedNote π)

/-- Where the pump waits. `applied`: the notes of the write in progress are indexed, its signatures are not. -/
inductive Stage (π : Type*)
  | idle
  | batching
  | writing (w : Write π) (applied : Bool)
  | signing (notes : Notes π)
  | listing (present : List Text) (work : Work π)
  | syncing (work : Work π) (w : Write π) (applied : Bool)
  | reading (work : Work π) (note : SharedNote π)
  | marking

/-- `docs` and `sources` are the index and its signatures. Beside the feeder's own state: `told` are the signatures
of the metadata after each sync that took them up, `received` the last text of each document that was not found
changed elsewhere since, `recorded` every signature given to the index with what the document was indexed from. -/
structure State (π : Type*) where
  latest : Option (Notes π)
  texts : KeyedMap Text (Content π)
  stored : Option (KeyedMap Text Text)
  metaSigs : KeyedMap Text Text
  fresh : List Text
  firstSync : Bool
  disposed : Bool
  stage : Stage π
  docs : KeyedMap Text (Content π)
  sources : KeyedMap Text Text
  told : List (KeyedMap Text Text)
  received : KeyedMap Text (Content π)
  recorded : List (Text × Text × Option (Content π))

inductive Event (π : Type*)
  | setNotes (notes : Notes π)
  | noteText (id path content : Text)
  | dispose
  | signatures
  | paths
  | apply
  | sign
  | readText (content : Option Text)
  | readFails
  | marked
  /-- What the pump waits for fails; of the signatures of a write, the first are recorded. -/
  | fails (signed : Nat)

def META : Text := "m:".toList
def TEXT : Text := "t:".toList
def unknown : Text := "?".toList
def undefined : Text := "undefined".toList

/-- An index with what an earlier session left in it. -/
def start {π : Type*} (docs : KeyedMap Text (Content π)) (sources : KeyedMap Text Text) : State π :=
  ⟨none, .empty, none, .empty, [], true, false, .idle, docs, sources, [], .empty, []⟩

namespace State
variable {π : Type*} (o : Options π) (s : State π)

/-- The loop of `pump`. -/
def next : State π :=
  if s.disposed then { s with stage := .idle }
  else if s.texts.entries.isEmpty then
    match s.latest with
    | some notes => { s with latest := none, stage := .signing notes }
    | none => { s with stage := .idle }
  else { s with stage := .batching }

def pump : State π := match s.stage with
  | .idle => if s.disposed then s else s.next
  | _ => s

/-- The batch of `writeTexts`, its texts out of the queue. -/
def takeBatch : State π :=
  let batch := s.texts.entries.take o.batchSize
  let sigs := KeyedMap.ofList Prod.fst (fun e => TEXT ++ (s.metaSigs.get e.1).getD unknown) batch
  { s with
    texts := (batch.map Prod.fst).foldl KeyedMap.delete s.texts
    stage := .writing ⟨[], KeyedMap.ofList Prod.fst Prod.snd batch, sigs⟩ false }

/-- The end of `sync`. -/
def finish : State π := { s with firstSync := false }.next

/-- The next write of a sync. -/
def proceed (work : Work π) : State π :=
  if work.gone ≠ [] then
    { s with stage := .syncing { work with gone := [] } ⟨work.gone, .empty, .empty⟩ false }
  else if work.adopted.entries ≠ [] then
    { s with stage := .syncing { work with adopted := .empty } ⟨[], .empty, work.adopted⟩ false }
  else if s.disposed then s.finish
  else if work.metaOnly ≠ [] then
    let chunk := work.metaOnly.take o.batchSize
    let sigs := KeyedMap.ofList SharedNote.id (fun n => META ++ (s.metaSigs.get n.id).getD undefined) chunk
    { s with
      stage := .syncing { work with metaOnly := work.metaOnly.drop o.batchSize }
        ⟨[], KeyedMap.ofList SharedNote.id Content.record chunk, sigs⟩ false }
  else match work.reread with
    | note :: rest => { s with stage := .reading { work with reread := rest } note }
    | [] => if s.firstSync && o.rebuildRequired then { s with stage := .marking } else s.finish

/-- What a sync finds of one note: nothing to do, its text is what was just received, its text is to read again, or
its metadata are to write. -/
inductive Found
  | same
  | adopted
  | reread
  | metaOnly
  deriving DecidableEq

def find (stored : KeyedMap Text Text) (note : SharedNote π) : Found :=
  let ms := o.metaSignature note
  let sig := stored.get note.id
  if sig = some (META ++ ms) ∨ sig = some (TEXT ++ ms) then .same
  else if sig.any (Text.startsWith · TEXT) then
    if s.fresh.contains note.id then .adopted else if o.readable then .reread else .metaOnly
  else .metaOnly

/-- The gone notes left out, then what there is to write. -/
def sweep (gone : List Text) (work : Work π) : State π :=
  { s with
    metaSigs := gone.foldl KeyedMap.delete s.metaSigs
    received := gone.foldl KeyedMap.delete s.received }.proceed o { work with gone := gone }

/-- The text indexed of a note is not expected any more when the note changed elsewhere: it is read again, or
cannot be. A text in the queue stays to be written. -/
def outdated (stored : KeyedMap Text Text) (note : SharedNote π) : Bool :=
  !s.texts.has note.id && (stored.get note.id).any (Text.startsWith · TEXT) &&
    (s.find o stored note == .reread || s.find o stored note == .metaOnly)

/-- `sync` with the signatures known. -/
def take (notes : Notes π) (stored : KeyedMap Text Text) : State π :=
  let found := s.find o stored
  let metaSigs := notes.notes.foldl (fun m n => m.set n.id (o.metaSignature n)) s.metaSigs
  let adopted := notes.notes.filter fun n => found n = .adopted
  let work : Work π :=
    { gone := []
      adopted := KeyedMap.ofList SharedNote.id (fun n => TEXT ++ o.metaSignature n) adopted
      metaOnly := notes.notes.filter fun n => found n = .metaOnly
      reread := notes.notes.filter fun n => found n = .reread }
  let present := notes.notes.map SharedNote.id
  let gone := (stored.entries.map Prod.fst).filter fun id => !present.contains id
  let s' : State π :=
    { s with
      stored := some stored, metaSigs := metaSigs, fresh := [], told := s.told ++ [metaSigs]
      received := ((notes.notes.filter (s.outdated o stored)).map SharedNote.id).foldl KeyedMap.delete s.received }
  if s.firstSync then { s' with stage := .listing present { work with gone := gone } } else s'.sweep o gone work

/-- The notes of a write indexed. -/
def applyDocs (w : Write π) : State π := { s with docs := (w.removed.foldl KeyedMap.delete s.docs).putAll w.inputs }

/-- Signatures recorded in the index. -/
def record (removed : List Text) (sigs : KeyedMap Text Text) : State π :=
  { s with
    sources := (removed.foldl KeyedMap.delete s.sources).putAll sigs
    recorded := s.recorded ++ sigs.entries.map fun e => (e.1, e.2, s.docs.get e.1) }

/-- The feeder's own signatures, once a write is done. -/
def note (w : Write π) : State π :=
  { s with stored := s.stored.map fun stored => (w.removed.foldl KeyedMap.delete stored).putAll w.sigs }

/-- The first signatures of a write that fails. -/
def recordSome (w : Write π) (applied : Bool) (n : Nat) : State π :=
  if applied then
    s.record (w.removed.take n) ⟨w.sigs.entries.take n, w.sigs.nodup.sublist ((List.take_sublist n _).map Prod.fst)⟩
  else s

/-- What `refresh` writes of a note read again. -/
def refreshed (note : SharedNote π) (content : Option Text) : Write π :=
  let ms := (s.metaSigs.get note.id).getD (o.metaSignature note)
  match content with
  | some content =>
    ⟨[], KeyedMap.empty.set note.id (.full note.path content s.told.length), KeyedMap.empty.set note.id (TEXT ++ ms)⟩
  | none => ⟨[], KeyedMap.empty.set note.id (.record note), KeyedMap.empty.set note.id (META ++ ms)⟩

end State

section
variable {π : Type*} (o : Options π)

def step (s : State π) : Event π → Option (State π)
  | .setNotes notes => some { s with latest := some notes }.pump
  | .noteText id path content =>
    let text := .full path content s.told.length
    some { s with texts := s.texts.set id text, received := s.received.set id text }.pump
  | .dispose => some { s with disposed := true, latest := none, texts := .empty }
  | .signatures =>
    let stored := s.stored.getD s.sources
    match s.stage with
    | .batching => some ({ s with stored := some stored }.takeBatch o)
    | .signing notes => some (s.take o notes stored)
    | _ => none
  | .paths => match s.stage with
    | .listing present work =>
      let extra := (s.docs.entries.map Prod.fst).filter fun id => !present.contains id && !work.gone.contains id
      some (s.sweep o (work.gone ++ extra) work)
    | _ => none
  | .apply => match s.stage with
    | .writing w false => some { s.applyDocs w with stage := .writing w true }
    | .syncing work w false => some { s.applyDocs w with stage := .syncing work w true }
    | _ => none
  | .sign => match s.stage with
    | .writing w true =>
      let s' := (s.record w.removed w.sigs).note w
      some { s' with fresh := s'.fresh ++ w.sigs.entries.map Prod.fst }.next
    | .syncing work w true => some (((s.record w.removed w.sigs).note w).proceed o work)
    | _ => none
  | .readText content => match s.stage with
    | .reading work note => some { s with stage := .syncing work (s.refreshed o note content) false }
    | _ => none
  | .readFails => match s.stage with
    | .reading work _ => some (s.proceed o work)
    | _ => none
  | .marked => match s.stage with
    | .marking => some s.finish
    | _ => none
  | .fails signed => match s.stage with
    | .batching => if s.stored.isNone then some { s with stage := .idle } else none
    | .signing _ => if s.stored.isNone then some { s with stage := .idle } else none
    | .writing w applied => some { s.recordSome w applied signed with stage := .idle }
    | .syncing _ w applied => some { s.recordSome w applied signed with stage := .idle }
    | .listing _ _ => some { s with stage := .idle }
    | .marking => some { s with stage := .idle }
    | _ => none

/-- What a signature stands for: a note known by its metadata alone, or a full text that came while the metadata
had this signature, or just before they were told. -/
def Stands (told : List (KeyedMap Text Text)) (id sig : Text) : Content π → Prop
  | .record note => sig = META ++ o.metaSignature note
  | .full _ _ since => ∃ ms, sig = TEXT ++ ms ∧
      (ms = unknown ∨ ∃ (k : Nat) (m : KeyedMap Text Text), (k + 1 = since ∨ k = since) ∧ told[k]? = some m ∧
        m.get id = some ms)

/-- At rest the index holds the texts received, and a signature was never given to a document indexed from
something else. -/
structure Faithful (s : State π) : Prop where
  kept : s.stage = .idle → s.disposed = false → ∀ id c, s.received.get id = some c → s.docs.get id = some c
  signed : ∀ e ∈ s.recorded, ∃ c, e.2.2 = some c ∧ Stands o s.told e.1 e.2.1 c

/-- The texts that `writeTexts` is writing. -/
def State.batch (s : State π) : KeyedMap Text (Content π) := match s.stage with
  | .writing w _ => w.inputs
  | _ => .empty

/-- The text that is indexed came after the metadata were last told. -/
def State.justReceived (s : State π) (id : Text) : Bool := match s.docs.get id with
  | some (.full _ _ since) => since == s.told.length
  | _ => false

/-- Nothing fails while a text received is not written, and the metadata that a sync takes for those of a text just
received are the first told since it came. -/
def Clear (s : State π) : Event π → Prop
  | .fails _ => s.disposed = true ∨ (s.texts.entries.isEmpty = true ∧ s.batch.entries.isEmpty = true)
  | .signatures => match s.stage with
    | .signing notes => ∀ n ∈ notes.notes, s.find o (s.stored.getD s.sources) n = .adopted → s.justReceived n.id = true
    | _ => True
  | _ => True

instance (s : State π) (event : Event π) : Decidable (Clear o s event) := match event with
  | .fails _ => inferInstanceAs (Decidable (_ ∨ _))
  | .signatures => match h : s.stage with
    | .signing notes => decidable_of_iff
        (∀ n ∈ notes.notes, s.find o (s.stored.getD s.sources) n = .adopted → s.justReceived n.id = true)
        (by simp [Clear, h])
    | .idle | .batching | .writing .. | .listing .. | .syncing .. | .reading .. | .marking =>
      .isTrue (by simp [Clear, h])
  | .setNotes _ | .noteText .. | .dispose | .paths | .apply | .sign | .readText _ | .readFails | .marked =>
    .isTrue trivial

end

end Savoire.SharedIndexFeeder
