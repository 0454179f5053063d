import Mathlib.Data.List.Basic

/-! The copy that a session keeps of an open snapshot document: the content, whether a write has made
the initial state obsolete, and whether the initial state has been read. -/
namespace Savoire

structure SharedSnapshotDocument (α : Type) where
  current : Option α := none
  touched : Bool := false
  ready : Bool := false

namespace SharedSnapshotDocument
variable {α : Type}

/-- `channel.initial` resolves. -/
def settle (doc : SharedSnapshotDocument α) (initial : Option α) : SharedSnapshotDocument α :=
  { doc with current := if doc.touched then doc.current else initial, ready := true }

/-- A write of another peer arrives. -/
def onRemote (doc : SharedSnapshotDocument α) (content : α) : SharedSnapshotDocument α :=
  { doc with touched := true, current := some content }

def write (doc : SharedSnapshotDocument α) (content : α) : SharedSnapshotDocument α :=
  { doc with touched := true, current := some content }

/-- What the document shows once the initial state is read, unless something else comes. -/
def content (doc : SharedSnapshotDocument α) (initial : Option α) : Option α :=
  if doc.touched ∨ doc.ready then doc.current else initial

variable {doc : SharedSnapshotDocument α} {initial : Option α} {x : α}

theorem content_settle (hready : doc.ready = false) : (doc.settle initial).content initial = doc.content initial := by
  cases ht : doc.touched <;> simp [settle, content, ht, hready]

@[simp] theorem content_onRemote : (doc.onRemote x).content initial = some x := by
  simp [onRemote, content]

theorem content_of_ready (hready : doc.ready = true) : doc.content initial = doc.current := by
  simp [content, hready]

theorem content_of_touched (htouched : doc.touched = true) : doc.content initial = doc.current := by
  simp [content, htouched]

theorem content_of_new (htouched : doc.touched = false) (hready : doc.ready = false) :
    doc.content initial = initial := by
  simp [content, htouched, hready]

end SharedSnapshotDocument
end Savoire
