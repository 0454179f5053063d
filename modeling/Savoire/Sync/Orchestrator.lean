import Mathlib.Data.List.Basic
import Savoire.Library.Transition

/-! An orchestrator over the transport of one document: local operations are signed, then pushed; those
made while the transport is not connected are kept, and resent when `InitDocument` comes. A run of
`pushOp` stands at its next `await`. Remote operations, presence and contents are left out. -/
set_option linter.unusedSectionVars false

namespace Savoire.Orchestrator
open Transition

inductive HubConnectionState
  | disconnected | connecting | connected | disconnecting | reconnecting
  deriving DecidableEq

inductive TransportState
  | connected | connecting | disconnected
  deriving DecidableEq

def getState : HubConnectionState → TransportState
  | .connected => .connected
  | .connecting | .reconnecting => .connecting
  | _ => .disconnected

/-- A run of `pushOp`: it waits for the signature, or for the end of the invocation. -/
inductive Push
  | signing (op : Nat)
  | invoking (op : Nat)
  deriving DecidableEq

def Push.op : Push → Nat
  | .signing op | .invoking op => op

/-- `transport.join`, which is called once: it starts the connection, then invokes `JoinDocument`. -/
inductive Join
  | idle | starting | invoking | returned | failed
  deriving DecidableEq

structure State where
  connection : HubConnectionState
  join : Join
  /-- The server has this connection in the group of the document. -/
  joined : Bool
  /-- The `InitDocument` messages on their way, each with its number of operations. -/
  inits : List Nat
  early : List Nat
  pushes : List Push
  /-- The invocations on their way, with the operations each one holds. -/
  sent : List (List Nat)
  /-- The local operations, numbered. -/
  made : Nat
  accepted : Nat → Bool
  reconnected : Bool

inductive Event
  | localOp
  | signed (k : Nat)
  | signFailed (k : Nat)
  | ended (k : Nat)
  | accept (k : Nat)
  | refuse (k : Nat)
  | join
  | startOk
  | startFailed
  | joinServed (ops : Nat)
  | joinReturned
  | joinFailed
  | initDocument
  | lost
  | reconnect
  | stop
  | closed

def compactThreshold : Nat := 100

def pushOp (s : State) (op : Nat) : State := { s with
  early := if getState s.connection ≠ .connected then s.early ++ [op] else s.early
  pushes := s.pushes ++ [.signing op] }

def pushSnapshot (s : State) : State :=
  if s.connection = .connected then { s with sent := s.sent ++ [List.range s.made] } else s

def onInit (s : State) (ops : Nat) : State :=
  let s := if ops > compactThreshold then pushSnapshot s else s
  s.early.foldl pushOp { s with early := [] }

/-- The connection is not up any more: what was on its way to the client is lost, and the calls of
`join` fail. -/
def disconnect (s : State) (connection : HubConnectionState) : State := { s with
  connection := connection, joined := false, inits := []
  join := if s.join = .starting ∨ s.join = .invoking then .failed else s.join }

def step (s : State) : Event → Option State
  | .localOp => some (pushOp { s with made := s.made + 1 } s.made)
  | .signed k => match s.pushes[k]? with
    | some (.signing op) => some (if s.connection = .connected then
        { s with pushes := s.pushes.set k (.invoking op), sent := s.sent ++ [[op]] }
      else { s with pushes := s.pushes.eraseIdx k })
    | _ => none
  | .signFailed k => match s.pushes[k]? with
    | some (.signing _) => some { s with pushes := s.pushes.eraseIdx k }
    | _ => none
  | .ended k => match s.pushes[k]? with
    | some (.invoking _) => some { s with pushes := s.pushes.eraseIdx k }
    | _ => none
  | .accept k => match s.sent[k]? with
    | some ops => some { s with
        sent := s.sent.eraseIdx k, accepted := fun op => s.accepted op || decide (op ∈ ops) }
    | none => none
  | .refuse k => match s.sent[k]? with
    | some _ => some { s with sent := s.sent.eraseIdx k }
    | none => none
  | .join =>
    if s.join = .idle ∧ s.connection = .disconnected then some { s with join := .starting, connection := .connecting }
    else none
  | .startOk =>
    if s.join = .starting ∧ s.connection = .connecting then
      some { s with join := .invoking, connection := .connected }
    else none
  | .startFailed =>
    if s.join = .starting ∧ s.connection = .connecting then
      some { s with join := .failed, connection := .disconnected }
    else none
  | .joinServed ops =>
    if s.join = .invoking ∧ s.connection = .connected ∧ s.joined = false then
      some { s with joined := true, inits := s.inits ++ [ops] }
    else none
  | .joinReturned => if s.join = .invoking ∧ s.joined then some { s with join := .returned } else none
  | .joinFailed => if s.join = .invoking then some { s with join := .failed } else none
  | .initDocument => match s.inits with
    | ops :: rest => some (onInit { s with inits := rest } ops)
    | [] => none
  | .lost => if s.connection = .connected then some (disconnect s .reconnecting) else none
  | .reconnect =>
    if s.connection = .reconnecting then some { s with connection := .connected, reconnected := true } else none
  | .stop => if s.connection = .disconnected then none else some (disconnect s .disconnecting)
  | .closed => if s.connection = .disconnected then none else some (disconnect s .disconnected)

def init : State where
  connection := .disconnected
  join := .idle
  joined := false
  inits := []
  early := []
  pushes := []
  sent := []
  made := 0
  accepted := fun _ => false
  reconnected := false

/-- The operation is in `early`, the server has it, or it is on its way there. -/
def State.holds (s : State) (op : Nat) : Bool :=
  decide (op ∈ s.early) || s.accepted op || s.sent.any fun ops => decide (op ∈ ops)

def State.pushing (s : State) (op : Nat) : Bool := s.pushes.any fun p => decide (p.op = op)

/-- A `pushOp` fails (it is not signed, the connection is down once it is, or its invocation comes to
nothing) only while the operation is held, accepted or pushed by another one; the connection is never
made again. -/
def Undropped (s : State) : Event → Prop
  | .signed k => s.connection = .connected ∨ ∀ p ∈ s.pushes[k]?,
      s.holds p.op ∨ (s.pushes.eraseIdx k).any fun p' => decide (p'.op = p.op)
  | .signFailed k | .ended k => ∀ p ∈ s.pushes[k]?,
      s.holds p.op ∨ (s.pushes.eraseIdx k).any fun p' => decide (p'.op = p.op)
  | .refuse k => ∀ ops ∈ s.sent[k]?, ∀ op ∈ ops,
      State.holds { s with sent := s.sent.eraseIdx k } op ∨ s.pushing op
  | .reconnect => False
  | _ => True

instance (s : State) (e : Event) : Decidable (Undropped s e) := by
  cases e <;> unfold Undropped <;> infer_instance

section
variable {s s' : State} {op k : Nat} {ops : List Nat} {e : Event}

theorem getState_eq_connected {connection : HubConnectionState} :
    getState connection = .connected ↔ connection = .connected := by
  cases connection <;> simp [getState]

theorem pushOp_eq : pushOp s op = { s with
    early := if s.connection = .connected then s.early else s.early ++ [op]
    pushes := s.pushes ++ [.signing op] } := by
  simp only [pushOp, ne_eq, getState_eq_connected, ite_not]

theorem foldl_pushOp (ops : List Nat) (s : State) : ops.foldl pushOp s = { s with
    early := if s.connection = .connected then s.early else s.early ++ ops
    pushes := s.pushes ++ ops.map .signing } := by
  induction ops generalizing s with
  | nil => simp
  | cons op ops ih =>
    rw [List.foldl_cons, ih, pushOp_eq]
    by_cases hc : s.connection = .connected <;> simp [hc]

theorem onInit_eq (s : State) (n : Nat) : onInit s n = { s with
    early := if s.connection = .connected then [] else s.early
    pushes := s.pushes ++ s.early.map .signing
    sent := if n > compactThreshold ∧ s.connection = .connected then s.sent ++ [List.range s.made] else s.sent } := by
  unfold onInit pushSnapshot
  by_cases hn : n > compactThreshold <;> by_cases hc : s.connection = .connected <;>
    simp [hn, hc, foldl_pushOp]

theorem pushing_iff : s.pushing op = true ↔ ∃ p ∈ s.pushes, p.op = op := by
  simp [State.pushing]

theorem holds_iff :
    s.holds op = true ↔ op ∈ s.early ∨ s.accepted op = true ∨ ∃ ops ∈ s.sent, op ∈ ops := by
  simp [State.holds, or_assoc]

/-- Every local operation is held, accepted or on its way; when the document is joined, what is held
will be resent. -/
structure Inv (s : State) : Prop where
  kept : ∀ op < s.made, s.holds op = true ∨ s.pushing op = true
  up : s.joined = true → s.connection = .connected
  returned : s.connection = .connected → s.join = .returned → s.joined = true
  resent : s.joined = true → s.early = [] ∨ s.inits ≠ []

theorem kept_eraseIdx (h : ∀ op < s.made, s.holds op = true ∨ s.pushing op = true)
    (hok : ∀ p ∈ s.pushes[k]?, s.holds p.op ∨ (s.pushes.eraseIdx k).any fun p' => decide (p'.op = p.op)) :
    ∀ op < s.made, s.holds op = true ∨ State.pushing { s with pushes := s.pushes.eraseIdx k } op = true := by
  intro op hop
  obtain hheld | hpush := h op hop
  · exact .inl hheld
  · obtain ⟨p, hp, rfl⟩ := pushing_iff.1 hpush
    obtain ⟨j, hj⟩ := List.mem_iff_getElem?.1 hp
    by_cases hjk : j = k
    · subst hjk
      exact hok p hj
    · exact .inr (pushing_iff.2 ⟨p, List.mem_eraseIdx_iff_getElem?.2 ⟨j, hjk, hj⟩, rfl⟩)

theorem Inv.ended (h : Inv s)
    (hok : ∀ p ∈ s.pushes[k]?, s.holds p.op ∨ (s.pushes.eraseIdx k).any fun p' => decide (p'.op = p.op)) :
    Inv { s with pushes := s.pushes.eraseIdx k } where
  kept := kept_eraseIdx h.kept hok
  __ := h

theorem Inv.localOp (h : Inv s) : Inv (pushOp { s with made := s.made + 1 } s.made) := by
  rw [pushOp_eq]
  refine ⟨?_, h.up, h.returned, ?_⟩
  · intro op hop
    by_cases heq : op = s.made
    · subst heq
      exact .inr (pushing_iff.2 ⟨.signing s.made, by simp, rfl⟩)
    · have hlt : op < s.made := by
        dsimp only at hop
        omega
      refine (h.kept op hlt).imp (fun hheld => ?_) fun hpush => ?_
      · rw [holds_iff] at hheld ⊢
        refine hheld.imp (fun he => ?_) id
        split
        · exact he
        · exact List.mem_append_left _ he
      · obtain ⟨p, hp, hpo⟩ := pushing_iff.1 hpush
        exact pushing_iff.2 ⟨p, List.mem_append_left _ hp, hpo⟩
  · intro hj
    rw [if_pos (h.up hj)]
    exact h.resent hj

theorem Inv.signed (h : Inv s) (hpush : s.pushes[k]? = some (.signing op)) :
    Inv { s with pushes := s.pushes.set k (.invoking op), sent := s.sent ++ [[op]] } := by
  refine ⟨?_, h.up, h.returned, h.resent⟩
  intro op' hop
  by_cases heq : op' = op
  · subst heq
    exact .inl (holds_iff.2 (.inr (.inr ⟨[op'], by simp, by simp⟩)))
  · refine (h.kept op' hop).imp (fun hheld => ?_) fun hp => ?_
    · rw [holds_iff] at hheld ⊢
      refine hheld.imp id (Or.imp id ?_)
      rintro ⟨ops, hops, hmem⟩
      exact ⟨ops, List.mem_append_left _ hops, hmem⟩
    · obtain ⟨p, hmem, rfl⟩ := pushing_iff.1 hp
      obtain ⟨j, hj⟩ := List.mem_iff_getElem?.1 hmem
      have hjk : k ≠ j := by
        rintro rfl
        obtain rfl := Option.some.inj (hj.symm.trans hpush)
        exact heq rfl
      exact pushing_iff.2 ⟨p, List.mem_of_getElem? ((List.getElem?_set_ne hjk).trans hj), rfl⟩

theorem Inv.accept (h : Inv s) (hsent : s.sent[k]? = some ops) :
    Inv { s with sent := s.sent.eraseIdx k, accepted := fun op => s.accepted op || decide (op ∈ ops) } := by
  refine ⟨?_, h.up, h.returned, h.resent⟩
  intro op hop
  refine (h.kept op hop).imp (fun hheld => ?_) id
  rw [holds_iff] at hheld ⊢
  rw [Bool.or_eq_true, decide_eq_true_eq]
  obtain he | ha | ⟨ops', hops', hmem⟩ := hheld
  · exact .inl he
  · exact .inr (.inl (.inl ha))
  · obtain ⟨j, hj⟩ := List.mem_iff_getElem?.1 hops'
    by_cases hjk : j = k
    · subst hjk
      obtain rfl := Option.some.inj (hj.symm.trans hsent)
      exact .inr (.inl (.inr hmem))
    · exact .inr (.inr ⟨ops', List.mem_eraseIdx_iff_getElem?.2 ⟨j, hjk, hj⟩, hmem⟩)

theorem Inv.refuse (h : Inv s) (hsent : s.sent[k]? = some ops)
    (hok : ∀ op ∈ ops, State.holds { s with sent := s.sent.eraseIdx k } op = true ∨ s.pushing op = true) :
    Inv { s with sent := s.sent.eraseIdx k } := by
  refine ⟨?_, h.up, h.returned, h.resent⟩
  intro op hop
  obtain hheld | hpush := h.kept op hop
  · obtain he | ha | ⟨ops', hops', hmem⟩ := holds_iff.1 hheld
    · exact .inl (holds_iff.2 (.inl he))
    · exact .inl (holds_iff.2 (.inr (.inl ha)))
    · obtain ⟨j, hj⟩ := List.mem_iff_getElem?.1 hops'
      by_cases hjk : j = k
      · subst hjk
        obtain rfl := Option.some.inj (hj.symm.trans hsent)
        exact hok op hmem
      · exact .inl (holds_iff.2 (.inr (.inr ⟨ops', List.mem_eraseIdx_iff_getElem?.2 ⟨j, hjk, hj⟩, hmem⟩)))
  · exact .inr hpush

theorem Inv.initDocument (h : Inv s) (rest : List Nat) (n : Nat) : Inv (onInit { s with inits := rest } n) := by
  rw [onInit_eq]
  refine ⟨?_, h.up, h.returned, ?_⟩
  · intro op hop
    obtain hheld | hpush := h.kept op hop
    · obtain he | ha | ⟨ops, hops, hmem⟩ := holds_iff.1 hheld
      · exact .inr (pushing_iff.2 ⟨.signing op, by simp [he], rfl⟩)
      · exact .inl (holds_iff.2 (.inr (.inl ha)))
      · refine .inl (holds_iff.2 (.inr (.inr ⟨ops, ?_, hmem⟩)))
        dsimp only
        split
        · exact List.mem_append_left _ hops
        · exact hops
    · obtain ⟨p, hp, hpo⟩ := pushing_iff.1 hpush
      exact .inr (pushing_iff.2 ⟨p, List.mem_append_left _ hp, hpo⟩)
  · intro hj
    rw [if_pos (h.up hj)]
    exact .inl rfl

theorem Inv.disconnect (h : Inv s) {connection : HubConnectionState} (hdown : connection ≠ .connected) :
    Inv (disconnect s connection) where
  kept := h.kept
  up := nofun
  returned := fun hc => absurd hc hdown
  resent := nofun

theorem inv_step (h : Inv s) (hok : Undropped s e) (hs : step s e = some s') : Inv s' := by
  cases e with
  | localOp =>
    obtain rfl := Option.some.inj hs
    exact h.localOp
  | signed k =>
    dsimp only [step] at hs
    split at hs
    · rename_i op hpush
      obtain rfl := Option.some.inj hs
      split
      · exact h.signed hpush
      · rename_i hdown
        exact h.ended (hok.resolve_left hdown)
    · cases hs
  | signFailed k | ended k =>
    dsimp only [step] at hs
    split at hs
    · obtain rfl := Option.some.inj hs
      exact h.ended hok
    · cases hs
  | accept k =>
    dsimp only [step] at hs
    split at hs
    · rename_i ops hsent
      obtain rfl := Option.some.inj hs
      exact h.accept hsent
    · cases hs
  | refuse k =>
    dsimp only [step] at hs
    split at hs
    · rename_i ops hsent
      obtain rfl := Option.some.inj hs
      exact h.refuse hsent (hok ops hsent)
    · cases hs
  | join =>
    dsimp only [step] at hs
    obtain ⟨hc, rfl⟩ := Option.ite_some_none_eq_some.1 hs
    have hj : s.joined ≠ true := fun hj => by simp [h.up hj] at hc
    exact ⟨h.kept, fun hj' => absurd hj' hj, nofun, fun hj' => absurd hj' hj⟩
  | startOk =>
    dsimp only [step] at hs
    obtain ⟨-, rfl⟩ := Option.ite_some_none_eq_some.1 hs
    exact ⟨h.kept, fun _ => rfl, nofun, h.resent⟩
  | startFailed =>
    dsimp only [step] at hs
    obtain ⟨hc, rfl⟩ := Option.ite_some_none_eq_some.1 hs
    have hj : s.joined ≠ true := fun hj => by simp [h.up hj] at hc
    exact ⟨h.kept, fun hj' => absurd hj' hj, nofun, fun hj' => absurd hj' hj⟩
  | joinServed n =>
    dsimp only [step] at hs
    obtain ⟨hc, rfl⟩ := Option.ite_some_none_eq_some.1 hs
    exact ⟨h.kept, fun _ => hc.2.1, fun _ _ => rfl, fun _ => .inr (by simp)⟩
  | joinReturned =>
    dsimp only [step] at hs
    obtain ⟨hc, rfl⟩ := Option.ite_some_none_eq_some.1 hs
    exact ⟨h.kept, h.up, fun _ _ => hc.2, h.resent⟩
  | joinFailed =>
    dsimp only [step] at hs
    obtain ⟨-, rfl⟩ := Option.ite_some_none_eq_some.1 hs
    exact ⟨h.kept, h.up, nofun, h.resent⟩
  | initDocument =>
    dsimp only [step] at hs
    split at hs
    · rename_i n rest _
      obtain rfl := Option.some.inj hs
      exact h.initDocument rest n
    · cases hs
  | lost =>
    dsimp only [step] at hs
    obtain ⟨-, rfl⟩ := Option.ite_some_none_eq_some.1 hs
    exact h.disconnect nofun
  | reconnect => exact hok.elim
  | stop | closed =>
    dsimp only [step] at hs
    split at hs
    · cases hs
    · obtain rfl := Option.some.inj hs
      exact h.disconnect nofun

theorem inv_init : Inv init := by
  constructor <;> simp [init]

/-- As long as no push fails for the last copy of an operation, and no reconnection, every local operation
is held, accepted or being sent; a joined transport is in the group of its document, and the
`InitDocument` on its way will resend what is held. -/
theorem edits_kept (h : Run step Undropped init s) :
    (∀ op < s.made, s.holds op = true ∨ s.pushing op = true) ∧
    (s.connection = .connected → s.join = .returned → s.joined = true) ∧
    (s.joined = true → ∀ op ∈ s.early, ∃ s', step s .initDocument = some s' ∧ s'.pushing op = true) := by
  have hinv := h.invariant Inv inv_init fun _ _ _ hs hok hstep => inv_step hs hok hstep
  refine ⟨hinv.kept, hinv.returned, fun hj op hop => ?_⟩
  cases hinits : s.inits with
  | nil =>
    obtain hearly | hne := hinv.resent hj
    · rw [hearly] at hop
      cases hop
    · exact absurd hinits hne
  | cons n rest =>
    refine ⟨onInit { s with inits := rest } n, by simp [step, hinits], ?_⟩
    rw [onInit_eq]
    exact pushing_iff.2 ⟨.signing op, by simp [hop], rfl⟩

end

/-- An operation made before the connection is kept although nothing is signed in time, and resent; one
made afterwards goes through. -/
theorem edits_kept_resent : ∃ s, Run step Undropped init s ∧ s.made = 2 ∧ s.pushes = [] ∧ s.sent = [] ∧
    s.holds 0 = true ∧ s.holds 1 = true := by
  have hrun : ∃ s, exec step Undropped init [.localOp, .signFailed 0, .join, .startOk, .joinServed 0, .initDocument,
      .joinReturned, .signed 0, .localOp, .signed 1, .accept 1, .accept 0, .ended 0, .ended 0] = some s ∧
      s.made = 2 ∧ s.pushes = [] ∧ s.sent = [] := ⟨_, rfl, rfl, rfl, rfl⟩
  obtain ⟨s, hs, hmade, hpushes, hsent⟩ := hrun
  have h := run_of_exec _ _ s hs
  have hkept := (edits_kept h).1
  have hnone : ∀ op, s.pushing op ≠ true := by simp [State.pushing, hpushes]
  exact ⟨s, h, hmade, hpushes, hsent, (hkept 0 (by omega)).resolve_right (hnone 0),
    (hkept 1 (by omega)).resolve_right (hnone 1)⟩

/-- The connection is lost while an operation is signed, and comes back: the operation is nowhere, and
the transport is connected without being joined. -/
theorem edit_dropped : ∃ s, Run step (fun _ _ => True) init s ∧ s.connection = .connected ∧ s.joined = false ∧
    0 < s.made ∧ s.holds 0 = false ∧ s.pushing 0 = false := by
  have hrun : ∃ s, exec step (fun _ _ => True) init [.join, .startOk, .joinServed 0, .initDocument, .joinReturned,
      .localOp, .lost, .signed 0, .reconnect] = some s ∧ s.connection = .connected ∧ s.joined = false ∧
      0 < s.made ∧ s.holds 0 = false ∧ s.pushing 0 = false := by
    decide
  obtain ⟨s, hs, hrest⟩ := hrun
  exact ⟨s, run_of_exec _ _ s hs, hrest⟩

end Savoire.Orchestrator
