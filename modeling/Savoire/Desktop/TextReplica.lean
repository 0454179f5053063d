import Savoire.Desktop.TextDiff
import Savoire.Library.Join

/-! A session's replica of a text document: its state, its update log, and what it remembers of the
visible file. States are those of the shared text library, ordered by what they contain. -/
set_option linter.unusedSectionVars false
namespace Savoire.TextFile
open Join TextDiff

/-- The states of the shared text: an update is the state that it adds. `transact` is the state after
one transaction of a client in a document that holds nothing else. -/
structure SharedText (U C V : Type*) [SemilatticeSup U] [OrderBot U] where
  text : U → Units
  encodeStateVector : U → V
  encodeStateAsUpdate : U → V → U
  transact : C → U → List TextEdit → U
  text_bot : text ⊥ = []
  text_transact : ∀ client state edits, Fits (text state).length edits →
    text (transact client state edits) = applyTextEdits (text state) edits
  le_transact : ∀ client state edits, state ≤ transact client state edits
  update_sup : ∀ state old, old ≤ state →
    encodeStateAsUpdate state (encodeStateVector old) ⊔ old = state

inductive Kind
  | seed | edit
  deriving DecidableEq

/-- With the digest of a text, and the client that it gives a change of the file. -/
structure Setting (U C V H : Type*) [SemilatticeSup U] [OrderBot U] extends SharedText U C V where
  contentHash : Units → H
  deterministicClientId : Kind → V → H → C

inductive Origin
  | disk | editor | file | seed
  deriving DecidableEq

structure Replica (U H : Type*) where
  doc : U
  /-- The numbers of the log files that were read or written. -/
  seen : List Nat
  pending : List U
  base : Option (Units × U)
  staleFile : Option Units
  projected : List H
  /-- The projection timer runs. -/
  scheduled : Bool

def projectionsKept : Nat := 8

/-- `rememberProjection` on one list of digests. -/
def remember {H : Type*} [DecidableEq H] (h : H) (hashes : List H) : List H :=
  let all := hashes.filter (fun x => x != h) ++ [h]
  all.drop (all.length - projectionsKept)

variable {U C V H : Type*} [SemilatticeSup U] [OrderBot U]

variable {kind : Kind} {state : U} {content : Units}

section
variable (c : Setting U C V H)

def Setting.merged (kind : Kind) (state : U) (content : Units) : U :=
  c.transact (c.deterministicClientId kind (c.encodeStateVector state) (c.contentHash content)) state
    (diffText (c.text state) content)

theorem Setting.text_merged (kind : Kind) (state : U) (content : Units) :
    c.text (c.merged kind state content) = content := by
  rw [merged, c.text_transact _ _ _ (fits_diffText _ _), applyTextEdits_diffText]

theorem Setting.le_merged (kind : Kind) (state : U) (content : Units) : state ≤ c.merged kind state content :=
  c.le_transact _ _ _

theorem Setting.sup_update {doc : U} (h : state ≤ doc) :
    doc ⊔ c.encodeStateAsUpdate (c.merged kind state content) (c.encodeStateVector state) =
      doc ⊔ c.merged kind state content := by
  have hsup := c.update_sup _ _ (c.le_merged kind state content)
  calc doc ⊔ c.encodeStateAsUpdate (c.merged kind state content) (c.encodeStateVector state)
      = doc ⊔ state ⊔ c.encodeStateAsUpdate (c.merged kind state content) (c.encodeStateVector state) := by
        rw [sup_eq_left.mpr h]
    _ = doc ⊔ c.merged kind state content := by rw [sup_assoc, sup_comm state, hsup]

end

variable [DecidableLE U] [DecidableEq H]

namespace Replica

def fresh : Replica U H := ⟨⊥, [], [], none, none, [], false⟩

def isEmpty (r : Replica U H) : Bool := r.seen.isEmpty && r.pending.isEmpty

/-- `applyUpdate` and `onReplicaUpdate`: an update that adds nothing raises no event. -/
def applyUpdate (r : Replica U H) (u : U) (origin : Origin) : Replica U H :=
  if u ≤ r.doc then r
  else { r with
    doc := r.doc ⊔ u
    pending := if origin = .disk then r.pending else r.pending ++ [u]
    scheduled := r.scheduled || decide (origin = .editor) }

def unread (r : Replica U H) (files : List U) : List (U × Nat) :=
  files.zipIdx.filter fun f => !(r.seen.contains f.2)

def pull (r : Replica U H) (files : List U) : Replica U H :=
  { (r.unread files).foldl (fun r f => r.applyUpdate f.1 .disk) r with
    seen := r.seen ++ (r.unread files).map Prod.snd }

/-- The updates that wait become one file. -/
def flush (r : Replica U H) (files : List U) : Replica U H × List U :=
  if r.pending = [] then (r, files)
  else ({ r with seen := r.seen ++ [files.length], pending := [] }, files ++ [joinAll r.pending])

end Replica

variable (c : Setting U C V H)

namespace Replica
variable (r : Replica U H)

/-- The state of the last agreement between the file and the text, else the current one. -/
def agreement : U := (r.base.map Prod.snd).getD r.doc

/-- `applyDeterministic` once the client id is computed, from the state that it was computed for. -/
def applyDeterministic (kind : Kind) (state : U) (content : Units) : Replica U H :=
  let temp := c.merged kind state content
  ({ r with base := some (content, temp), staleFile := none }).applyUpdate
    (c.encodeStateAsUpdate temp (c.encodeStateVector state)) (if kind = Kind.seed then .seed else .file)

def isProjection (hashes : List H) (content : Units) : Bool :=
  r.projected.contains (c.contentHash content) || hashes.contains (c.contentHash content)

/-- What `reconcileText` makes of the content before it asks for the projections. -/
inductive Reading
  | seed | empty | agreed | unchanged | stale | unknown
  deriving DecidableEq

def reading (content : Units) : Reading :=
  if r.isEmpty then if content = [] then .empty else .seed
  else if content = c.text r.doc then .agreed
  else if r.base.map Prod.fst = some content then .unchanged
  else if r.staleFile = some content then .stale
  else .unknown

def noteEmpty : Replica U H := { r with base := some ([], r.doc) }

def noteAgreed (content : Units) : Replica U H := { r with base := some (content, r.doc), staleFile := none }

def noteStale (content : Units) : Replica U H :=
  { r with base := none, staleFile := some content, scheduled := true }

def noteWritten (text : Units) (state : U) : Replica U H :=
  { r with base := some (text, state), staleFile := none }

def rememberProjection (text : Units) : Replica U H :=
  { r with projected := remember (c.contentHash text) r.projected }

end Replica

namespace Replica
variable {c} {r : Replica U H}

theorem reading_spec (c : Setting U C V H) (r : Replica U H) (content : Units) :
    match r.reading c content with
    | .seed => r.isEmpty = true ∧ content ≠ []
    | .empty => r.isEmpty = true ∧ content = []
    | .agreed => r.isEmpty = false ∧ content = c.text r.doc
    | .unchanged => r.isEmpty = false ∧ content ≠ c.text r.doc ∧ r.base.map Prod.fst = some content
    | .stale => r.isEmpty = false ∧ content ≠ c.text r.doc ∧ r.base.map Prod.fst ≠ some content ∧
        r.staleFile = some content
    | .unknown => r.isEmpty = false ∧ content ≠ c.text r.doc ∧ r.base.map Prod.fst ≠ some content ∧
        r.staleFile ≠ some content := by
  unfold reading
  by_cases hempty : r.isEmpty = true
  · by_cases hcontent : content = []
    · simp [hempty, hcontent]
    · simp [hempty, hcontent]
  · by_cases htext : content = c.text r.doc
    · simp [hempty, ← htext]
    · by_cases hbase : r.base.map Prod.fst = some content
      · simp [hempty, htext, hbase]
      · by_cases hstale : r.staleFile = some content
        · simp [hempty, htext, hbase, hstale]
        · simp [hempty, htext, hbase, hstale]

theorem doc_applyUpdate (u : U) (origin : Origin) : (r.applyUpdate u origin).doc = r.doc ⊔ u := by
  unfold applyUpdate
  split
  · rename_i h
    exact (sup_eq_left.mpr h).symm
  · rfl

theorem base_applyUpdate (u : U) (origin : Origin) : (r.applyUpdate u origin).base = r.base := by
  unfold applyUpdate
  split <;> rfl

theorem staleFile_applyUpdate (u : U) (origin : Origin) : (r.applyUpdate u origin).staleFile = r.staleFile := by
  unfold applyUpdate
  split <;> rfl

theorem projected_applyUpdate (u : U) (origin : Origin) : (r.applyUpdate u origin).projected = r.projected := by
  unfold applyUpdate
  split <;> rfl

theorem doc_applyDeterministic (kind : Kind) (content : Units) (h : state ≤ r.doc) :
    (r.applyDeterministic c kind state content).doc = r.doc ⊔ c.merged kind state content := by
  rw [applyDeterministic, doc_applyUpdate]
  exact c.sup_update h

theorem base_applyDeterministic :
    (r.applyDeterministic c kind state content).base = some (content, c.merged kind state content) := by
  rw [applyDeterministic, base_applyUpdate]

theorem staleFile_applyDeterministic :
    (r.applyDeterministic c kind state content).staleFile = none := by
  rw [applyDeterministic, staleFile_applyUpdate]

theorem projected_applyDeterministic :
    (r.applyDeterministic c kind state content).projected = r.projected := by
  rw [applyDeterministic, projected_applyUpdate]

end Replica

end Savoire.TextFile
