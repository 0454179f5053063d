import Savoire.Library.Transition
import Savoire.Vault.Directory

/-! The copy of a vault into another one: which document of the target each document goes to, and
what a copy that stops half way has written. -/
namespace Savoire.VaultTransfer
open VaultClient (DocId Directory)

inductive EntryKind
  | crdt
  | snapshot
  | file
  deriving DecidableEq

structure Plan where
  source : DocId × Text
  targetId : DocId
  targetPath : Text
  kind : EntryKind
  /-- The document is in the directory of the target. -/
  existing : Bool
  deriving DecidableEq

/-- What the plan adds to the report of the transfer. -/
structure Report where
  renamedIds : List (DocId × DocId)
  renamedPaths : List (Text × Text)
  errors : List (Text × Text)
  deriving DecidableEq

def registerBatch : ℕ := 200

/-- The ids of a batch that the target rejects, found by halves; `accepts` is how a registration
of a batch ends. -/
def visit (accepts : List DocId → Bool) : ℕ → List DocId → List DocId
  | 0, _ => []
  | fuel+1, batch =>
    if batch = [] then []
    else if accepts batch then []
    else if batch.length = 1 then batch
    else
      let half := (batch.length + 1) / 2
      visit accepts fuel (batch.take half) ++ visit accepts fuel (batch.drop half)

def batches : ℕ → List DocId → List (List DocId)
  | 0, _ => []
  | fuel+1, ids => if ids = [] then [] else ids.take registerBatch :: batches fuel (ids.drop registerBatch)

def registerFinding (accepts : List DocId → Bool) (ids : List DocId) : List DocId :=
  (batches ids.length ids).flatMap fun batch => visit accepts batch.length batch

/-- The suffixed path, from « Nom 1.ext » on. -/
def uniquePath (path : Text) (taken : List Text) : Text :=
  let parts := VaultClient.splitExtension path
  FirstFree.first taken fun n => VaultClient.candidate path parts.1 parts.2 (n + 1)

section Plan
variable (kindOf : Text → EntryKind)

def firstPlan (target : Directory) (doc : DocId × Text) : Plan :=
  let there := target.getById doc.1
  ⟨doc, doc.1, there.getD doc.2, kindOf doc.2, there.isSome⟩

/-- `byPath`: the documents of the target by their paths. -/
def byPath (target : Directory) : KeyedMap Text DocId := KeyedMap.ofList Prod.snd Prod.fst target.getAll

def claimed (plans : List Plan) (id : DocId) : Bool := plans.any fun p => p.existing && decide (p.targetId = id)

/-- The document of the target that a rejected one continues: it has the same path, and no other
plan has it. -/
def resumed (target : Directory) (plans : List Plan) (plan : Plan) : Option DocId :=
  match (byPath target).get plan.source.2 with
  | some id => if kindOf plan.source.2 = plan.kind ∧ ¬ claimed plans id then some id else none
  | none => none

/-- The rejected ids change, in the order of the plans; `uuid` is the new id that a document gets. -/
def relabel (target : Directory) (rejected : List DocId) (uuid : DocId → DocId) : List Plan → List Plan → List Plan
  | done, [] => done
  | done, plan :: rest =>
    if plan.existing ∨ plan.targetId ∉ rejected then relabel target rejected uuid (done ++ [plan]) rest
    else
      match resumed kindOf target (done ++ plan :: rest) plan with
      | some id => relabel target rejected uuid (done ++ [{ plan with targetId := id, existing := true }]) rest
      | none => relabel target rejected uuid (done ++ [{ plan with targetId := uuid plan.source.1 }]) rest

def renewed (plan : Plan) : Bool := !plan.existing && decide (plan.targetId ≠ plan.source.1)

/-- A new document does not take the place of another; `taken` are the paths in use. -/
def assign : List Text → List Plan → List Plan
  | _, [] => []
  | taken, plan :: rest =>
    if plan.existing then plan :: assign taken rest
    else
      let path := if plan.targetPath ∈ taken then uniquePath plan.targetPath taken else plan.targetPath
      { plan with targetPath := path } :: assign (path :: taken) rest

def registrationRefused : Text := "inscription du document refusee par la cible".toList

def planDocuments (docs : List (DocId × Text)) (target : Directory) (accepts acceptsNew : List DocId → Bool)
    (uuid : DocId → DocId) : List Plan × Report :=
  let plans := docs.map (firstPlan kindOf target)
  let rejected := registerFinding accepts ((plans.filter (!·.existing)).map (·.targetId))
  let relabeled := relabel kindOf target rejected uuid [] plans
  let stillRejected := registerFinding acceptsNew ((relabeled.filter renewed).map (·.targetId))
  let refused := fun plan => renewed plan && decide (plan.targetId ∈ stillRejected)
  let kept := relabeled.filter (!refused ·)
  let taken := target.paths ++ (kept.filter (·.existing)).map (·.targetPath)
  let assigned := assign taken kept
  (assigned,
    { renamedIds := (relabeled.filter fun plan => plan.targetId ≠ plan.source.1).map fun plan => (plan.source.1, plan.targetId)
      renamedPaths := (assigned.filter fun plan => !plan.existing && decide (plan.targetPath ≠ plan.source.2)).map
        fun plan => (plan.source.2, plan.targetPath)
      errors := (relabeled.filter refused).map fun plan => (plan.source.2, registrationRefused) })

def writeDocument (target : Directory) (plan : Plan) : Directory :=
  if ¬ plan.existing ∧ target.getById plan.targetId = none then target.add plan.targetId plan.targetPath else target

end Plan

structure Vault where
  docs : KeyedMap DocId Text
  folders : List Text

/-- One transfer, run to its end or not: how the registrations end, the new ids, how many of the
missing folders it adds, and the source documents whose copy ends well, in that order. -/
structure Event where
  accepts : List DocId → Bool
  acceptsNew : List DocId → Bool
  uuid : DocId → DocId
  folders : ℕ
  written : List DocId

/-- The target; and which of its documents each source document was copied to, by any transfer. -/
structure State where
  target : Directory
  copies : List (DocId × DocId)

section Step
variable (kindOf : Text → EntryKind) (source : Vault)

def plansOf (s : State) (e : Event) : List Plan :=
  (planDocuments kindOf source.docs.entries s.target e.accepts e.acceptsNew e.uuid).1

def writtenPlans (s : State) (e : Event) : List Plan :=
  e.written.filterMap fun id => (plansOf kindOf source s e).find? fun plan => plan.source.1 = id

/-- What `crypto.randomUUID` gives is new. -/
def FreshIds (s : State) (e : Event) : Prop :=
  (source.docs.entries.map fun doc => e.uuid doc.1).Nodup ∧
    ∀ doc ∈ source.docs.entries, source.docs.get (e.uuid doc.1) = none ∧ s.target.getById (e.uuid doc.1) = none

instance (s : State) (e : Event) : Decidable (FreshIds source s e) := inferInstanceAs (Decidable (_ ∧ _))

def transferVault (s : State) (e : Event) : State where
  target :=
    let missing := source.folders.filter (· ∉ s.target.getFolders)
    (writtenPlans kindOf source s e).foldl writeDocument ((missing.take e.folders).foldl (·.addFolder ·) s.target)
  copies := s.copies ++ (writtenPlans kindOf source s e).map fun plan => (plan.source.1, plan.targetId)

def step (s : State) (e : Event) : Option State :=
  if FreshIds source s e then some (transferVault kindOf source s e) else none

/-- Every document was copied. -/
def Complete (s : State) (e : Event) : Prop :=
  ∀ doc ∈ source.docs.entries, doc.1 ∈ e.written ∧ ∃ plan ∈ plansOf kindOf source s e, plan.source = doc

instance (s : State) (e : Event) : Decidable (Complete kindOf source s e) := by
  unfold Complete
  infer_instance

def Copy (s : State) (id copy : DocId) : Prop :=
  s.target.getById copy ≠ none ∧ (copy = id ∨ (id, copy) ∈ s.copies)

end Step
end Savoire.VaultTransfer
