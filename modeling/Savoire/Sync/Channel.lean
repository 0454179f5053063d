import Mathlib
import Savoire.Library.Join
import Savoire.Library.Transition

/-! The operation log of a document, of a vault directory or of an index channel on the server, and
the clients that join it, push to it and send snapshots of their replica. Reading the log,
subscribing and sending the initial state are three steps of a join; appending and broadcasting are
two steps of a push. `accepted` only records what happened. -/
set_option linter.unusedSectionVars false
namespace Savoire.Channel
open Join Transition

/-- Where a connection stands in its join; `reading` and `subscribed` hold what the server read. -/
inductive Stage (U : Type)
  | away
  | reading (ops : List U)
  | subscribed (ops : List U)
  | joined

inductive Message (U : Type)
  | init (ops : List U)
  | operation (op : U)

structure Client (U : Type) where
  stage : Stage U
  replica : U
  /-- Messages sent to the connection, not delivered yet. -/
  inbox : List (Message U)
  /-- Pushes invoked by the client, not processed yet. -/
  outbox : List U

structure State (κ U : Type) where
  log : List U
  accepted : List U
  /-- Pushes appended to the log, not broadcast yet. -/
  broadcasts : List (κ × U)
  /-- Snapshots sent, not stored yet. -/
  snapshots : List U
  clients : κ → Client U

inductive Event (κ U : Type)
  | edit (client : κ) (op : U)
  | append (client : κ) (push : Nat)
  | broadcast (push : Nat)
  | joinRead (client : κ)
  | joinSubscribe (client : κ)
  | joinSend (client : κ)
  | deliver (client : κ) (message : Nat)
  | snapshot (client : κ)
  | compact (snapshot : Nat)
  | disconnect (client : κ)

section
variable {κ U : Type} [DecidableEq κ] [SemilatticeSup U] [OrderBot U]

/-- `CompactAsync`: the snapshot replaces the whole log; without `force`, only a long one. -/
def compactAsync (log : List U) (snapshotBytes : U) (force : Bool) : List U :=
  if force = false ∧ log.length ≤ 50 then log else [snapshotBytes]

/-- The connection is in the broadcast group. -/
def Stage.inGroup : Stage U → Bool
  | .subscribed _ | .joined => true
  | .away | .reading _ => false

def Message.content : Message U → U
  | .init ops => joinAll ops
  | .operation op => op

/-- `OthersInGroup`: the message of a push goes to every subscribed connection but its sender's. -/
def relay (sender : κ) (op : U) (clients : κ → Client U) : κ → Client U := fun j =>
  if j ≠ sender ∧ (clients j).stage.inGroup then
    { clients j with inbox := (clients j).inbox ++ [.operation op] }
  else clients j

def State.setClient (s : State κ U) (i : κ) (c : Client U) : State κ U :=
  { s with clients := Function.update s.clients i c }

def step (s : State κ U) : Event κ U → Option (State κ U)
  | .edit i op =>
    let c := s.clients i
    some (s.setClient i { c with replica := c.replica ⊔ op, outbox := c.outbox ++ [op] })
  | .append i push =>
    let c := s.clients i
    match c.outbox[push]? with
    | none => none
    | some op => some
      { s.setClient i { c with outbox := c.outbox.eraseIdx push } with
        log := s.log ++ [op], accepted := s.accepted ++ [op]
        broadcasts := s.broadcasts ++ [(i, op)] }
  | .broadcast push => match s.broadcasts[push]? with
    | none => none
    | some (i, op) => some
      { s with broadcasts := s.broadcasts.eraseIdx push, clients := relay i op s.clients }
  | .joinRead i => match (s.clients i).stage with
    | .away => some (s.setClient i { s.clients i with stage := .reading s.log })
    | _ => none
  | .joinSubscribe i => match (s.clients i).stage with
    | .reading ops => some (s.setClient i { s.clients i with stage := .subscribed ops })
    | _ => none
  | .joinSend i => match (s.clients i).stage with
    | .subscribed ops => some (s.setClient i
        { s.clients i with stage := .joined, inbox := (s.clients i).inbox ++ [.init ops] })
    | _ => none
  | .deliver i message =>
    let c := s.clients i
    match c.inbox[message]? with
    | none => none
    | some m => some (s.setClient i
        { c with replica := c.replica ⊔ m.content, inbox := c.inbox.eraseIdx message })
  | .snapshot i => some { s with snapshots := s.snapshots ++ [(s.clients i).replica] }
  | .compact snapshot => match s.snapshots[snapshot]? with
    | none => none
    | some bytes => some
      { s with snapshots := s.snapshots.eraseIdx snapshot, log := compactAsync s.log bytes true }
  | .disconnect i => some (s.setClient i { s.clients i with stage := .away, inbox := [] })

def init : State κ U where
  log := []
  accepted := []
  broadcasts := []
  snapshots := []
  clients := fun _ => ⟨.away, ⊥, [], []⟩

def SnapshotContains (s : State κ U) : Event κ U → Prop
  | .compact snapshot => match s.snapshots[snapshot]? with
    | some bytes => ∀ op ∈ s.log, op ≤ bytes
    | none => True
  | _ => True

def NoGap (s : State κ U) : Event κ U → Prop
  | .broadcast push => match s.broadcasts[push]? with
    | some (i, op) => ∀ j, j ≠ i → match (s.clients j).stage with
      | .reading ops => op ≤ joinAll ops ⊔ (s.clients j).replica
      | _ => True
    | none => True
  | _ => True

instance [DecidableLE U] (s : State κ U) : (e : Event κ U) → Decidable (SnapshotContains s e)
  | .compact snapshot => by
    unfold SnapshotContains
    dsimp only
    split <;> infer_instance
  | .edit .. | .append .. | .broadcast _ | .joinRead _ | .joinSubscribe _ | .joinSend _
  | .deliver .. | .snapshot _ | .disconnect _ => isTrue trivial

instance [DecidableLE U] (st : Stage U) (op replica : U) :
    Decidable (match st with
      | .reading ops => op ≤ joinAll ops ⊔ replica
      | _ => True) := by
  cases st <;> infer_instance

instance [Fintype κ] [DecidableLE U] (s : State κ U) : (e : Event κ U) → Decidable (NoGap s e)
  | .broadcast push => by
    unfold NoGap
    dsimp only
    split <;> infer_instance
  | .edit .. | .append .. | .compact _ | .joinRead _ | .joinSubscribe _ | .joinSend _
  | .deliver .. | .snapshot _ | .disconnect _ => isTrue trivial

section
variable (s s' : State κ U) (e : Event κ U)

@[simp] theorem setClient_log (i : κ) (c : Client U) : (s.setClient i c).log = s.log := rfl
@[simp] theorem setClient_accepted (i : κ) (c : Client U) :
    (s.setClient i c).accepted = s.accepted := rfl
@[simp] theorem setClient_broadcasts (i : κ) (c : Client U) :
    (s.setClient i c).broadcasts = s.broadcasts := rfl

theorem step_log (h : step s e = some s') :
    (∃ ops, s'.log = s.log ++ ops ∧ s'.accepted = s.accepted ++ ops) ∨
    (∃ k bytes, e = .compact k ∧ s.snapshots[k]? = some bytes ∧ s'.log = [bytes] ∧
      s'.accepted = s.accepted) := by
  cases e with
  | append i push =>
    simp only [step] at h
    split at h
    · cases h
    · cases h
      exact .inl ⟨_, rfl, rfl⟩
  | compact k =>
    simp only [step] at h
    split at h
    · cases h
    · rename_i bytes hk
      cases h
      exact .inr ⟨k, bytes, rfl, hk, rfl, rfl⟩
  | broadcast push | joinRead i | joinSubscribe i | joinSend i =>
    left
    simp only [step] at h
    split at h <;> cases h
    exact ⟨[], by simp, by simp⟩
  | deliver i message =>
    left
    simp only [step] at h
    split at h <;> cases h
    exact ⟨[], by simp, by simp⟩
  | edit | snapshot | disconnect =>
    cases h
    exact .inl ⟨[], by simp, by simp⟩

def Complete (s : State κ U) : Prop := joinAll s.accepted ≤ joinAll s.log

theorem complete_step (hc : Complete s) (hok : SnapshotContains s e) (h : step s e = some s') :
    Complete s' := by
  unfold Complete at *
  rcases step_log s s' e h with ⟨ops, hlog, hacc⟩ | ⟨k, bytes, rfl, hk, hlog, hacc⟩
  · rw [hlog, hacc, joinAll_append, joinAll_append]
    exact sup_le_sup_right hc _
  · simp only [SnapshotContains, hk] at hok
    rw [hlog, hacc, joinAll_singleton]
    exact hc.trans ((joinAll_le_iff _ _).2 hok)

end

/-- As long as every snapshot stored contains the log that it replaces, the log contains every
push that the server has accepted. -/
theorem log_complete (s : State κ U) (h : Run step SnapshotContains init s) :
    joinAll s.accepted ≤ joinAll s.log :=
  h.invariant Complete le_rfl fun s e s' hc hok hs => complete_step s s' e hc hok hs

def pushDuringSnapshot : List (Event Bool Bool) :=
  [.joinRead true, .joinSubscribe true, .joinSend true, .snapshot true,
    .edit false true, .append false 0, .compact 0]

theorem push_lost_by_snapshot :
    ∃ s : State Bool Bool, Run step (fun _ _ => True) init s ∧
      ¬ joinAll s.accepted ≤ joinAll s.log := by
  have hrun : ∃ s : State Bool Bool, exec step (fun _ _ => True) init pushDuringSnapshot = some s ∧
      ¬ joinAll s.accepted ≤ joinAll s.log := ⟨_, rfl, by decide⟩
  obtain ⟨s, hs, hlost⟩ := hrun
  exact ⟨s, run_of_exec _ _ s hs, hlost⟩

def pushBeforeSnapshot : List (Event Bool Bool) :=
  [.joinRead true, .joinSubscribe true, .joinSend true, .edit false true, .append false 0,
    .broadcast 0, .deliver true 1, .snapshot true, .compact 0]

theorem log_complete_delivered :
    ∃ s : State Bool Bool, Run step SnapshotContains init s ∧ s.log = [true] ∧
      joinAll s.accepted ≤ joinAll s.log := by
  have hrun : ∃ s : State Bool Bool,
      exec step SnapshotContains init pushBeforeSnapshot = some s ∧ s.log = [true] :=
    ⟨_, rfl, by decide⟩
  obtain ⟨s, hs, hlog⟩ := hrun
  have h := run_of_exec _ _ s hs
  exact ⟨s, h, hlog, log_complete s h⟩

end
end Savoire.Channel
