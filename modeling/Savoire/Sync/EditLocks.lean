import Mathlib.Data.List.Nodup
import Savoire.Library.Entries
import Savoire.Library.Transition
import Savoire.Text

/-! The edit locks of the vault hub: the registry in memory, the methods that change it and then send
messages, and what each connection of a vault last heard of a document. -/
set_option linter.unusedSectionVars false
namespace Savoire.EditLocks
open Transition

structure VaultId where
  text : Text
  noSlash : '/' ∉ text
  deriving DecidableEq

structure LockHolder (γ : Type) where
  userId : Text
  displayName : Text
  connectionId : γ
  deriving DecidableEq

/-- The state of a lock as a client keeps it; none: the document is free. -/
structure LockState where
  userId : Text
  displayName : Text
  isHeldByCaller : Bool
  deriving DecidableEq

inductive Recipients (γ : Type)
  | othersInGroup (caller : γ)
  | group
  | caller (caller : γ)

/-- `LockChanged` or the answer of `AcquireLock`. -/
structure Send (γ : Type) where
  recipients : Recipients γ
  vaultId : Text
  docId : Text
  holder : Option LockState

structure Notice where
  vaultId : Text
  docId : Text
  holder : Option LockState

/-- `waiting` are the calls of `AcquireLock` whose access is being checked, `tasks` the messages that
the methods in progress have still to send. A connection id is used once. -/
structure State (γ : Type) where
  registry : List (Text × LockHolder γ)
  connected : γ → Bool
  groups : γ → Text → Bool
  waiting : List (LockHolder γ × VaultId × Text)
  tasks : List (List (Send γ))
  inbox : γ → List Notice
  view : γ → Text × Text → Option (Option LockState)

inductive Event (γ : Type)
  | joinVault (connection : γ) (vaultId : VaultId)
  | call (candidate : LockHolder γ) (vaultId : VaultId) (docId : Text)
  | refuse (call : Nat)
  | acquire (call : Nat)
  | release (connection : γ) (vaultId : VaultId) (docId : Text)
  | disconnect (connection : γ)
  | send (task : Nat)
  | deliver (connection : γ)

section
variable {γ : Type} [DecidableEq γ]

namespace DocumentLockRegistry

def key (vaultId : VaultId) (docId : Text) : Text := vaultId.text ++ '/' :: docId

/-- `GetOrAdd` -/
def tryAcquire (locks : List (Text × LockHolder γ)) (k : Text) (candidate : LockHolder γ) :
    List (Text × LockHolder γ) × LockHolder γ :=
  match locks.lookup k with
  | some holder => (locks, holder)
  | none => (locks ++ [(k, candidate)], candidate)

def release (locks : List (Text × LockHolder γ)) (k : Text) (connectionId : γ) :
    Option (List (Text × LockHolder γ)) :=
  match locks.lookup k with
  | none => none
  | some holder => if holder.connectionId ≠ connectionId then none else some (Entries.erase k locks)

/-- What is left, and the keys freed. -/
def releaseAllFor (locks : List (Text × LockHolder γ)) (connectionId : γ) :
    List (Text × LockHolder γ) × List Text :=
  (locks.filter fun e => e.2.connectionId ≠ connectionId,
    (locks.filter fun e => e.2.connectionId = connectionId).map (·.1))

end DocumentLockRegistry

def lockDto (holder : LockHolder γ) (connection : γ) : LockState :=
  ⟨holder.userId, holder.displayName, holder.connectionId == connection⟩

/-- `LockChanged` as a client reads it: a lock of somebody else. -/
def lockChanged (holder : LockHolder γ) : LockState := ⟨holder.userId, holder.displayName, false⟩

/-- The messages of `AcquireLock`. -/
def acquireSends (candidate holder : LockHolder γ) (vaultId : VaultId) (docId : Text) : List (Send γ) :=
  let answer : Send γ :=
    ⟨.caller candidate.connectionId, vaultId.text, docId, some (lockDto holder candidate.connectionId)⟩
  if holder.connectionId = candidate.connectionId then
    [⟨.othersInGroup candidate.connectionId, vaultId.text, docId, some (lockChanged holder)⟩, answer]
  else [answer]

/-- The messages of `OnDisconnectedAsync` for the keys freed. -/
def disconnectSends (freed : List Text) : List (Send γ) :=
  freed.filterMap fun k => match Text.splitAtMost '/' 1 k with
    | [vaultId, docId] => some ⟨.group, vaultId, docId, none⟩
    | _ => none

/-- Who gets a message that is sent now. -/
def State.receives (s : State γ) (m : Send γ) (c : γ) : Bool := match m.recipients with
  | .othersInGroup caller => c ≠ caller && s.groups c m.vaultId
  | .group => s.groups c m.vaultId
  | .caller caller => c = caller && s.connected c

def step (s : State γ) : Event γ → Option (State γ)
  | .joinVault c v =>
    if s.connected c then
      some { s with groups := Function.update s.groups c (Function.update (s.groups c) v.text true) }
    else none
  | .call candidate v d =>
    if s.connected candidate.connectionId then some { s with waiting := s.waiting ++ [(candidate, v, d)] } else none
  | .refuse k => some { s with waiting := s.waiting.eraseIdx k }
  | .acquire k => match s.waiting[k]? with
    | none => none
    | some (candidate, v, d) =>
      let (registry, holder) := DocumentLockRegistry.tryAcquire s.registry (DocumentLockRegistry.key v d) candidate
      some { s with
        waiting := s.waiting.eraseIdx k, registry := registry
        tasks := s.tasks ++ [acquireSends candidate holder v d] }
  | .release c v d => match DocumentLockRegistry.release s.registry (DocumentLockRegistry.key v d) c with
    | none => none
    | some registry => some { s with registry := registry, tasks := s.tasks ++ [[⟨.group, v.text, d, none⟩]] }
  | .disconnect c =>
    if s.connected c then
      let (registry, freed) := DocumentLockRegistry.releaseAllFor s.registry c
      some { s with
        registry := registry, tasks := s.tasks ++ [disconnectSends freed]
        connected := Function.update s.connected c false
        groups := Function.update s.groups c fun _ => false
        inbox := Function.update s.inbox c []
        view := Function.update s.view c fun _ => none }
    else none
  | .send k => match s.tasks[k]? with
    | some (m :: rest) => some { s with
        tasks := s.tasks.set k rest
        inbox := fun c => if s.receives m c then s.inbox c ++ [⟨m.vaultId, m.docId, m.holder⟩] else s.inbox c }
    | _ => none
  | .deliver c => match s.inbox c with
    | [] => none
    | n :: rest => some { s with
        inbox := Function.update s.inbox c rest
        view := Function.update s.view c (Function.update (s.view c) (n.vaultId, n.docId) (some n.holder)) }

def init : State γ where
  registry := []
  connected := fun _ => true
  groups := fun _ _ => false
  waiting := []
  tasks := []
  inbox := fun _ => []
  view := fun _ _ => none

/-- The messages about a document are sent in the order in which the methods went through the
registry, and a lock is taken only by a connection that is still there and in the vault. -/
def InOrder (s : State γ) : Event γ → Prop
  | .send k => match s.tasks[k]? with
    | some (m :: _) => ∀ t ∈ s.tasks.take k, ∀ m' ∈ t, ¬ (m'.vaultId = m.vaultId ∧ m'.docId = m.docId)
    | _ => True
  | .acquire k => match s.waiting[k]? with
    | some (candidate, v, _) => s.connected candidate.connectionId ∧ s.groups candidate.connectionId v.text
    | none => True
  | _ => True

instance (s : State γ) : (e : Event γ) → Decidable (InOrder s e)
  | .send k => by
    unfold InOrder
    dsimp only
    split <;> infer_instance
  | .acquire k => by
    unfold InOrder
    dsimp only
    split <;> infer_instance
  | .joinVault .. | .call .. | .refuse _ | .release .. | .disconnect _ | .deliver _ => isTrue trivial

theorem key_inj {v v' : VaultId} {d d' : Text}
    (h : DocumentLockRegistry.key v d = DocumentLockRegistry.key v' d') : v = v' ∧ d = d' := by
  have htake := congrArg (List.takeWhile (· ≠ '/')) h
  have hdrop := congrArg (List.dropWhile (· ≠ '/')) h
  rw [DocumentLockRegistry.key, DocumentLockRegistry.key, Text.takeWhile_sep _ _ _ v.noSlash,
    Text.takeWhile_sep _ _ _ v'.noSlash] at htake
  rw [DocumentLockRegistry.key, DocumentLockRegistry.key, Text.dropWhile_sep _ _ _ v.noSlash,
    Text.dropWhile_sep _ _ _ v'.noSlash] at hdrop
  refine ⟨?_, List.tail_eq_of_cons_eq hdrop⟩
  cases v
  cases v'
  simpa using htake

theorem split_key (v : VaultId) (d : Text) :
    Text.splitAtMost '/' 1 (DocumentLockRegistry.key v d) = [v.text, d] := by
  rw [DocumentLockRegistry.key, Text.splitAtMost_append _ _ _ _ v.noSlash]
  rfl

section Registry
variable {locks : List (Text × LockHolder γ)} {k : Text} {holder : LockHolder γ}

theorem lookup_of_mem (hnodup : (locks.map (·.1)).Nodup) (h : (k, holder) ∈ locks) :
    locks.lookup k = some holder := by
  induction locks with
  | nil => cases h
  | cons e rest ih =>
    obtain ⟨k', holder'⟩ := e
    rw [List.map_cons, List.nodup_cons] at hnodup
    rw [Entries.lookup_cons]
    obtain heq | hmem := List.mem_cons.1 h
    · obtain ⟨rfl, rfl⟩ := Prod.mk.inj heq
      simp
    · have hne : k ≠ k' := by
        intro hk
        subst hk
        exact hnodup.1 (List.mem_map.2 ⟨_, hmem, rfl⟩)
      simp [hne, ih hnodup.2 hmem]

theorem mem_of_lookup (h : locks.lookup k = some holder) : (k, holder) ∈ locks := by
  induction locks with
  | nil => cases h
  | cons e rest ih =>
    obtain ⟨k', holder'⟩ := e
    rw [Entries.lookup_cons] at h
    by_cases hk : k = k'
    · subst hk
      simp only [beq_self_eq_true, if_true, Option.some.injEq] at h
      rw [h]
      exact List.mem_cons_self
    · have hne : (k == k') = false := by simpa using hk
      rw [hne, if_neg (by simp)] at h
      exact List.mem_cons_of_mem _ (ih h)

theorem lookup_eq_none (h : ∀ holder, (k, holder) ∉ locks) : locks.lookup k = none := by
  cases hl : locks.lookup k with
  | none => rfl
  | some holder => exact absurd (mem_of_lookup hl) (h holder)

theorem lookup_releaseAllFor (hnodup : (locks.map (·.1)).Nodup) (c : γ) :
    (k ∈ (DocumentLockRegistry.releaseAllFor locks c).2 ∧
      (DocumentLockRegistry.releaseAllFor locks c).1.lookup k = none) ∨
    (k ∉ (DocumentLockRegistry.releaseAllFor locks c).2 ∧
      (DocumentLockRegistry.releaseAllFor locks c).1.lookup k = locks.lookup k) := by
  unfold DocumentLockRegistry.releaseAllFor
  by_cases hk : k ∈ (locks.filter fun e => e.2.connectionId = c).map (·.1)
  · refine .inl ⟨hk, lookup_eq_none fun holder hmem => ?_⟩
    obtain ⟨e, he, rfl⟩ := List.mem_map.1 hk
    simp only [List.mem_filter, decide_eq_true_eq] at he hmem
    have hsame := (lookup_of_mem hnodup he.1).symm.trans (lookup_of_mem hnodup hmem.1)
    exact hmem.2 (Option.some.inj hsame ▸ he.2)
  · refine .inr ⟨hk, ?_⟩
    have hsub : ((locks.filter fun e => e.2.connectionId ≠ c).map (·.1)).Nodup :=
      hnodup.sublist (List.filter_sublist.map _)
    cases hl : locks.lookup k with
    | some holder =>
      have hmem := mem_of_lookup hl
      refine lookup_of_mem hsub (List.mem_filter.2 ⟨hmem, ?_⟩)
      by_contra hc
      have heq : holder.connectionId = c := by simpa using hc
      exact hk (List.mem_map.2 ⟨_, List.mem_filter.2 ⟨hmem, by simpa using heq⟩, rfl⟩)
    | none =>
      refine lookup_eq_none fun holder hmem => ?_
      have := lookup_of_mem hnodup (List.mem_filter.1 hmem).1
      rw [hl] at this
      cases this

end Registry

def Send.about (m : Send γ) (v : VaultId) (d : Text) : Bool := m.vaultId = v.text ∧ m.docId = d

def Send.addressed (m : Send γ) (c : γ) : Bool := match m.recipients with
  | .othersInGroup caller => c ≠ caller
  | .group => true
  | .caller caller => c = caller

def told (c : γ) (v : VaultId) (d : Text) (sends : List (Send γ)) : List (Option LockState) :=
  (sends.filter fun m => m.about v d && m.addressed c).map (·.holder)

def State.inboxAbout (s : State γ) (c : γ) (v : VaultId) (d : Text) : List (Option LockState) :=
  ((s.inbox c).filter fun n => n.vaultId = v.text ∧ n.docId = d).map (·.holder)

/-- The states of a lock that a connection has, has been sent or is addressed, oldest first. -/
def State.known (s : State γ) (c : γ) (v : VaultId) (d : Text) : List (Option LockState) :=
  (s.view c (v.text, d)).toList ++ (s.inboxAbout c v d ++ told c v d s.tasks.flatten)

/-- The holder in the registry, as a connection should see it. -/
def State.current (s : State γ) (c : γ) (v : VaultId) (d : Text) : Option LockState :=
  (s.registry.lookup (DocumentLockRegistry.key v d)).map (lockDto · c)

def Agrees (states : List (Option LockState)) (state : Option LockState) : Prop :=
  ∀ x, states.getLast? = some x → x = state

section Agrees
variable {l a : List (Option LockState)} {x x' : Option LockState}

theorem Agrees.of_append (h : Agrees (a ++ l) x) : Agrees l x := by
  intro y hy
  refine h y ?_
  rw [List.getLast?_append, hy, Option.some_or]

theorem Agrees.append (h : Agrees l x) (ha : a = [] ∧ x' = x ∨ a.getLast? = some x') : Agrees (l ++ a) x' := by
  intro y hy
  obtain ⟨rfl, rfl⟩ | ha := ha
  · exact h y (by simpa using hy)
  · rw [List.getLast?_append, ha, Option.some_or] at hy
    exact (Option.some.inj hy).symm

theorem getLast?_of_forall (h : ∀ y ∈ a, y = x) (hne : a ≠ []) : a.getLast? = some x := by
  rw [List.getLast?_eq_some_getLast hne, h _ (List.getLast_mem hne)]

end Agrees

theorem told_append (c : γ) (v : VaultId) (d : Text) (m m' : List (Send γ)) :
    told c v d (m ++ m') = told c v d m ++ told c v d m' := by
  simp [told]

theorem told_cons (c : γ) (v : VaultId) (d : Text) (m : Send γ) (rest : List (Send γ)) :
    told c v d (m :: rest) = (if m.about v d && m.addressed c then [m.holder] else []) ++ told c v d rest := by
  by_cases h : m.about v d && m.addressed c <;> simp [told, h]

theorem told_acquire (c : γ) (v v' : VaultId) (d d' : Text) (candidate holder : LockHolder γ) :
    told c v' d' (acquireSends candidate holder v d) =
      if v = v' ∧ d = d' ∧ (holder.connectionId = candidate.connectionId ∨ c = candidate.connectionId) then
        [some (lockDto holder c)]
      else [] := by
  by_cases hvd : v = v' ∧ d = d'
  · obtain ⟨rfl, rfl⟩ := hvd
    by_cases hheld : holder.connectionId = candidate.connectionId
    · by_cases hc : c = candidate.connectionId
      · simp [told, acquireSends, hheld, hc, Send.about, Send.addressed]
      · have hne : ¬ candidate.connectionId = c := fun h => hc h.symm
        simp [told, acquireSends, hheld, hc, hne, Send.about, Send.addressed, lockDto, lockChanged]
    · by_cases hc : c = candidate.connectionId <;>
        simp [told, acquireSends, hheld, hc, Send.about, Send.addressed]
  · have hne : ∀ m ∈ acquireSends candidate holder v d, m.about v' d' = false := by
      intro m hm
      have hm' : m.vaultId = v.text ∧ m.docId = d := by
        unfold acquireSends at hm
        split at hm
        · obtain rfl | hm := List.mem_cons.1 hm
          · exact ⟨rfl, rfl⟩
          · rw [List.mem_singleton.1 hm]
            exact ⟨rfl, rfl⟩
        · rw [List.mem_singleton.1 hm]
          exact ⟨rfl, rfl⟩
      rw [Send.about, decide_eq_false_iff_not, hm'.1, hm'.2]
      rintro ⟨htext, hdoc⟩
      refine hvd ⟨?_, hdoc⟩
      cases v
      cases v'
      simpa using htext
    rw [if_neg fun h => hvd ⟨h.1, h.2.1⟩, told, List.map_eq_nil_iff, List.filter_eq_nil_iff]
    intro m hm
    simp [hne m hm]

theorem mem_disconnectSends {freed : List Text} (hformed : ∀ k ∈ freed, ∃ v d, k = DocumentLockRegistry.key v d)
    (m : Send γ) : m ∈ disconnectSends freed ↔
      ∃ v d, DocumentLockRegistry.key v d ∈ freed ∧ m = ⟨.group, v.text, d, none⟩ := by
  rw [disconnectSends, List.mem_filterMap]
  constructor
  · intro ⟨k, hk, hm⟩
    obtain ⟨v, d, rfl⟩ := hformed k hk
    rw [split_key] at hm
    exact ⟨v, d, hk, (Option.some.inj hm).symm⟩
  · intro ⟨v, d, hk, hm⟩
    exact ⟨_, hk, by rw [split_key, hm]⟩

theorem told_disconnect (c : γ) (v : VaultId) (d : Text) {freed : List Text}
    (hformed : ∀ k ∈ freed, ∃ v d, k = DocumentLockRegistry.key v d) :
    (DocumentLockRegistry.key v d ∈ freed → (told c v d (disconnectSends freed : List (Send γ))).getLast? = some none) ∧
    (DocumentLockRegistry.key v d ∉ freed → told c v d (disconnectSends freed : List (Send γ)) = []) := by
  constructor
  · intro hk
    refine getLast?_of_forall (fun y hy => ?_) fun hnil => ?_
    · obtain ⟨m, hm, rfl⟩ := List.mem_map.1 hy
      obtain ⟨v', d', -, rfl⟩ := (mem_disconnectSends hformed m).1 (List.mem_filter.1 hm).1
      rfl
    · have hm : (⟨.group, v.text, d, none⟩ : Send γ) ∈ disconnectSends freed :=
        (mem_disconnectSends hformed _).2 ⟨v, d, hk, rfl⟩
      rw [told, List.map_eq_nil_iff, List.filter_eq_nil_iff] at hnil
      exact hnil _ hm (by simp [Send.about, Send.addressed])
  · intro hk
    rw [told, List.map_eq_nil_iff, List.filter_eq_nil_iff]
    intro m hm habout
    obtain ⟨v', d', hk', rfl⟩ := (mem_disconnectSends hformed m).1 hm
    simp only [Send.about, Send.addressed, Bool.and_true, decide_eq_true_eq] at habout
    obtain ⟨htext, rfl⟩ := habout
    refine hk ?_
    rwa [DocumentLockRegistry.key, ← htext]

structure Inv (s : State γ) : Prop where
  keys : (s.registry.map (·.1)).Nodup
  formed : ∀ e ∈ s.registry, ∃ v d, e.1 = DocumentLockRegistry.key v d
  held : ∀ e ∈ s.registry, s.connected e.2.connectionId
  members : ∀ c v, s.groups c v → s.connected c
  outside : ∀ c v d, s.groups c v.text = false → s.view c (v.text, d) = none ∧ s.inboxAbout c v d = []
  answers : ∀ m ∈ s.tasks.flatten, ∀ c, m.recipients = .caller c → s.groups c m.vaultId ∨ s.connected c = false
  agree : ∀ c v d, Agrees (s.known c v d) (s.current c v d)

section Steps
variable {s s' : State γ}

theorem inv_init : Inv (init : State γ) where
  keys := List.nodup_nil
  formed := nofun
  held := nofun
  members := nofun
  outside := fun _ _ _ _ => ⟨rfl, rfl⟩
  answers := nofun
  agree := by
    intro c v d x hx
    simp [State.known, State.inboxAbout, told, init] at hx

theorem Inv.change (h : Inv s) (waiting : List (LockHolder γ × VaultId × Text)) (registry : List (Text × LockHolder γ))
    (task : List (Send γ)) (hkeys : (registry.map (·.1)).Nodup)
    (hentries : ∀ e ∈ registry, (∃ v d, e.1 = DocumentLockRegistry.key v d) ∧ s.connected e.2.connectionId)
    (hanswers : ∀ m ∈ task, ∀ c, m.recipients = .caller c → s.groups c m.vaultId ∨ s.connected c = false)
    (htask : ∀ c v d, (told c v d task = [] ∧ registry.lookup (DocumentLockRegistry.key v d) =
        s.registry.lookup (DocumentLockRegistry.key v d)) ∨
      (told c v d task).getLast? = some ((registry.lookup (DocumentLockRegistry.key v d)).map (lockDto · c))) :
    Inv { s with waiting := waiting, registry := registry, tasks := s.tasks ++ [task] } where
  keys := hkeys
  formed := fun e he => (hentries e he).1
  held := fun e he => (hentries e he).2
  members := h.members
  outside := h.outside
  answers := by
    intro m hm c hc
    rw [List.flatten_append, List.mem_append, List.flatten_singleton] at hm
    obtain hm | hm := hm
    · exact h.answers m hm c hc
    · exact hanswers m hm c hc
  agree := by
    intro c v d
    have hknown : State.known { s with waiting := waiting, registry := registry, tasks := s.tasks ++ [task] } c v d =
        s.known c v d ++ told c v d task := by
      simp [State.known, State.inboxAbout, told_append]
    rw [hknown]
    refine (h.agree c v d).append ((htask c v d).imp (fun htold => ⟨htold.1, ?_⟩) id)
    rw [State.current, State.current, htold.2]

theorem inv_acquire (h : Inv s) {waiting : List (LockHolder γ × VaultId × Text)} {candidate : LockHolder γ}
    {v : VaultId} {d : Text} (hconnected : s.connected candidate.connectionId)
    (hgroup : s.groups candidate.connectionId v.text) :
    Inv { s with
      waiting := waiting
      registry := (DocumentLockRegistry.tryAcquire s.registry (DocumentLockRegistry.key v d) candidate).1
      tasks := s.tasks ++ [acquireSends candidate
        (DocumentLockRegistry.tryAcquire s.registry (DocumentLockRegistry.key v d) candidate).2 v d] } := by
  have hanswers : ∀ holder : LockHolder γ, ∀ m ∈ acquireSends candidate holder v d, ∀ c, m.recipients = .caller c →
      s.groups c m.vaultId ∨ s.connected c = false := by
    intro holder m hm c hc
    have hanswer : m.recipients = .caller c → c = candidate.connectionId ∧ m.vaultId = v.text := by
      unfold acquireSends at hm
      split at hm
      · obtain rfl | hm := List.mem_cons.1 hm
        · exact nofun
        · rw [List.mem_singleton.1 hm]
          exact fun h => ⟨(Recipients.caller.inj h).symm, rfl⟩
      · rw [List.mem_singleton.1 hm]
        exact fun h => ⟨(Recipients.caller.inj h).symm, rfl⟩
    obtain ⟨rfl, hv⟩ := hanswer hc
    rw [hv]
    exact .inl hgroup
  unfold DocumentLockRegistry.tryAcquire
  cases hlookup : s.registry.lookup (DocumentLockRegistry.key v d) with
  | some holder =>
    refine h.change waiting _ _ h.keys (fun e he => ⟨h.formed e he, h.held e he⟩) (hanswers holder) fun c v' d' => ?_
    rw [told_acquire]
    dsimp only
    split
    · rename_i hcond
      obtain ⟨rfl, rfl, -⟩ := hcond
      right
      rw [hlookup]
      rfl
    · exact .inl ⟨rfl, rfl⟩
  | none =>
    refine h.change waiting _ _ ?_ (fun e he => ?_) (hanswers candidate) fun c v' d' => ?_
    · rw [List.map_append, List.nodup_append]
      refine ⟨h.keys, List.nodup_singleton _, ?_⟩
      intro k hk k' hk' heq
      subst heq
      obtain rfl := List.mem_singleton.1 hk'
      obtain ⟨e, he, hek⟩ := List.mem_map.1 hk
      have hkey : e.1 = DocumentLockRegistry.key v d := hek
      have hmem : (DocumentLockRegistry.key v d, e.2) ∈ s.registry := by
        rw [← hkey]
        exact he
      have hsome := lookup_of_mem h.keys hmem
      rw [hlookup] at hsome
      cases hsome
    · obtain he | he := List.mem_append.1 he
      · exact ⟨h.formed e he, h.held e he⟩
      · rw [List.mem_singleton.1 he]
        exact ⟨⟨v, d, rfl⟩, hconnected⟩
    · rw [told_acquire]
      dsimp only
      rw [List.lookup_append]
      split
      · rename_i hcond
        obtain ⟨rfl, rfl, -⟩ := hcond
        rw [hlookup]
        simp
      · rename_i hcond
        refine .inl ⟨rfl, ?_⟩
        have hne : DocumentLockRegistry.key v' d' ≠ DocumentLockRegistry.key v d := by
          intro hkey
          obtain ⟨rfl, rfl⟩ := key_inj hkey
          exact hcond ⟨rfl, rfl, .inl rfl⟩
        have hnew : ([(DocumentLockRegistry.key v d, candidate)] : List (Text × LockHolder γ)).lookup
            (DocumentLockRegistry.key v' d') = none := by
          simp [hne]
        rw [hnew, Option.or_none]

theorem inv_release (h : Inv s) {registry : List (Text × LockHolder γ)} {c : γ} {v : VaultId} {d : Text}
    (hr : DocumentLockRegistry.release s.registry (DocumentLockRegistry.key v d) c = some registry) :
    Inv { s with registry := registry, tasks := s.tasks ++ [[⟨.group, v.text, d, none⟩]] } := by
  have hregistry : registry = Entries.erase (DocumentLockRegistry.key v d) s.registry := by
    unfold DocumentLockRegistry.release at hr
    split at hr
    · cases hr
    · split at hr
      · cases hr
      · exact (Option.some.inj hr).symm
  rw [hregistry]
  refine h.change s.waiting _ _ ?_ (fun e he => ?_) (fun m hm c hc => ?_) fun c v' d' => ?_
  · exact h.keys.sublist (List.filter_sublist.map _)
  · have hmem := (List.mem_filter.1 he).1
    exact ⟨h.formed e hmem, h.held e hmem⟩
  · rw [List.mem_singleton.1 hm] at hc
    cases hc
  · rw [Entries.lookup_erase, told_cons]
    by_cases hkey : DocumentLockRegistry.key v' d' = DocumentLockRegistry.key v d
    · obtain ⟨rfl, rfl⟩ := key_inj hkey
      simp [told, Send.about, Send.addressed]
    · have hnot : ¬ (v.text = v'.text ∧ d = d') := by
        rintro ⟨htext, rfl⟩
        refine hkey ?_
        rw [DocumentLockRegistry.key, DocumentLockRegistry.key, htext]
      simp [told, Send.about, hnot, hkey]

theorem Inv.leave (h : Inv s) {c₀ : γ} (hfree : ∀ e ∈ s.registry, e.2.connectionId ≠ c₀) :
    Inv { s with
      connected := Function.update s.connected c₀ false
      groups := Function.update s.groups c₀ fun _ => false
      inbox := Function.update s.inbox c₀ []
      view := Function.update s.view c₀ fun _ => none } where
  keys := h.keys
  formed := h.formed
  held := by
    intro e he
    dsimp only
    rw [Function.update_of_ne (hfree e he)]
    exact h.held e he
  members := by
    intro c v hg
    by_cases hc : c = c₀
    · subst hc
      simp [Function.update_self] at hg
    · dsimp only at hg ⊢
      rw [Function.update_of_ne hc] at hg ⊢
      exact h.members c v hg
  outside := by
    intro c v d hg
    by_cases hc : c = c₀
    · subst hc
      simp [State.inboxAbout]
    · dsimp only at hg
      rw [Function.update_of_ne hc] at hg
      simpa [State.inboxAbout, Function.update_of_ne hc] using h.outside c v d hg
  answers := by
    intro m hm c hcaller
    by_cases hc : c = c₀
    · subst hc
      exact .inr (by simp)
    · simpa [Function.update_of_ne hc] using h.answers m hm c hcaller
  agree := by
    intro c v d
    by_cases hc : c = c₀
    · subst hc
      have hknown := h.agree c v d
      rw [State.known, ← List.append_assoc] at hknown
      simpa [State.known, State.inboxAbout, State.current] using hknown.of_append
    · simpa [State.known, State.inboxAbout, State.current, Function.update_of_ne hc] using h.agree c v d

theorem inv_disconnect (h : Inv s) (c : γ) :
    Inv { s with
      registry := (DocumentLockRegistry.releaseAllFor s.registry c).1
      tasks := s.tasks ++ [disconnectSends (DocumentLockRegistry.releaseAllFor s.registry c).2]
      connected := Function.update s.connected c false
      groups := Function.update s.groups c fun _ => false
      inbox := Function.update s.inbox c []
      view := Function.update s.view c fun _ => none } := by
  have hformed : ∀ k ∈ (DocumentLockRegistry.releaseAllFor s.registry c).2,
      ∃ v d, k = DocumentLockRegistry.key v d := by
    intro k hk
    obtain ⟨e, he, rfl⟩ := List.mem_map.1 hk
    exact h.formed e (List.mem_filter.1 he).1
  refine (h.change s.waiting (DocumentLockRegistry.releaseAllFor s.registry c).1
    (disconnectSends (DocumentLockRegistry.releaseAllFor s.registry c).2) ?_ (fun e he => ?_) (fun m hm c' hc' => ?_)
    fun c' v d => ?_).leave fun e he => ?_
  · exact h.keys.sublist (List.filter_sublist.map _)
  · have hmem := (List.mem_filter.1 he).1
    exact ⟨h.formed e hmem, h.held e hmem⟩
  · obtain ⟨v, d, -, rfl⟩ := (mem_disconnectSends hformed m).1 hm
    cases hc'
  · obtain ⟨hk, hnone⟩ | ⟨hk, hsame⟩ := lookup_releaseAllFor (k := DocumentLockRegistry.key v d) h.keys c
    · right
      rw [hnone]
      exact (told_disconnect c' v d hformed).1 hk
    · exact .inl ⟨(told_disconnect c' v d hformed).2 hk, hsame⟩
  · simpa using (List.mem_filter.1 he).2

theorem told_set {k : Nat} {m : Send γ} {rest : List (Send γ)} (htask : s.tasks[k]? = some (m :: rest))
    (hfirst : ∀ t ∈ s.tasks.take k, ∀ m' ∈ t, ¬ (m'.vaultId = m.vaultId ∧ m'.docId = m.docId)) (c : γ) (v : VaultId)
    (d : Text) : told c v d s.tasks.flatten =
      (if m.about v d && m.addressed c then [m.holder] else []) ++ told c v d (s.tasks.set k rest).flatten := by
  obtain ⟨hk, hget⟩ := List.getElem?_eq_some_iff.1 htask
  have hsplit : s.tasks = s.tasks.take k ++ (m :: rest) :: s.tasks.drop (k + 1) := by
    rw [← hget, ← List.drop_eq_getElem_cons, List.take_append_drop]
  have hset : s.tasks.set k rest = s.tasks.take k ++ rest :: s.tasks.drop (k + 1) := by
    rw [List.set_eq_take_append_cons_drop, if_pos hk]
  have hold : told c v d s.tasks.flatten = told c v d (s.tasks.take k).flatten ++
      ((if m.about v d && m.addressed c then [m.holder] else []) ++
        (told c v d rest ++ told c v d (s.tasks.drop (k + 1)).flatten)) := by
    conv_lhs => rw [hsplit]
    rw [List.flatten_append, List.flatten_cons, told_append, told_append, told_cons, List.append_assoc]
  rw [hold, hset, List.flatten_append, List.flatten_cons, told_append, told_append]
  by_cases habout : m.about v d = true
  · have hfront : told c v d (s.tasks.take k).flatten = [] := by
      rw [told, List.map_eq_nil_iff, List.filter_eq_nil_iff]
      intro m' hm' hcond
      obtain ⟨t, ht, hmt⟩ := List.mem_flatten.1 hm'
      simp only [Send.about, Bool.and_eq_true, decide_eq_true_eq] at hcond habout
      exact hfirst t ht m' hmt ⟨hcond.1.1.trans habout.1.symm, hcond.1.2.trans habout.2.symm⟩
    rw [hfront, List.nil_append, List.nil_append]
  · simp [habout]

theorem inv_send (h : Inv s) {k : Nat} {m : Send γ} {rest : List (Send γ)} (htask : s.tasks[k]? = some (m :: rest))
    (hfirst : ∀ t ∈ s.tasks.take k, ∀ m' ∈ t, ¬ (m'.vaultId = m.vaultId ∧ m'.docId = m.docId)) :
    Inv { s with
      tasks := s.tasks.set k rest
      inbox := fun c => if s.receives m c then s.inbox c ++ [⟨m.vaultId, m.docId, m.holder⟩] else s.inbox c } := by
  have hmem : m ∈ s.tasks.flatten :=
    List.mem_flatten.2 ⟨_, List.mem_of_getElem? htask, List.mem_cons_self⟩
  -- Whoever gets a message about a vault is in it.
  have hinside : ∀ c, s.receives m c = true → s.groups c m.vaultId = true ∧ m.addressed c = true := by
    intro c hc
    unfold State.receives at hc
    unfold Send.addressed
    cases hr : m.recipients with
    | othersInGroup caller =>
      rw [hr, Bool.and_eq_true] at hc
      exact ⟨hc.2, hc.1⟩
    | group =>
      rw [hr] at hc
      exact ⟨hc, rfl⟩
    | caller caller =>
      rw [hr, Bool.and_eq_true, decide_eq_true_eq] at hc
      obtain ⟨rfl, hconnected⟩ := hc
      have hnot : s.connected c ≠ false := by simp [hconnected]
      exact ⟨(h.answers m hmem c hr).resolve_right hnot, by simp⟩
  have hinbox : ∀ c v d, State.inboxAbout { s with
      tasks := s.tasks.set k rest
      inbox := fun c => if s.receives m c then s.inbox c ++ [⟨m.vaultId, m.docId, m.holder⟩] else s.inbox c } c v d =
      s.inboxAbout c v d ++ if m.about v d && s.receives m c then [m.holder] else [] := by
    intro c v d
    unfold State.inboxAbout
    dsimp only
    by_cases hc : s.receives m c = true
    · rw [if_pos hc, List.filter_append, List.map_append, hc, Bool.and_true]
      by_cases habout : m.about v d = true
      · have hcond : m.vaultId = v.text ∧ m.docId = d := by simpa [Send.about] using habout
        simp [habout, hcond]
      · have hcond : ¬ (m.vaultId = v.text ∧ m.docId = d) := by simpa [Send.about] using habout
        simp [habout, hcond]
    · simp [hc]
  constructor
  case keys => exact h.keys
  case formed => exact h.formed
  case held => exact h.held
  case members => exact h.members
  case outside =>
    intro c v d hg
    obtain ⟨hview, hnone⟩ := h.outside c v d hg
    refine ⟨hview, ?_⟩
    rw [hinbox, hnone, if_neg fun hcond => ?_, List.append_nil]
    rw [Bool.and_eq_true] at hcond
    have hv : m.vaultId = v.text := by
      have := hcond.1
      simp only [Send.about, decide_eq_true_eq] at this
      exact this.1
    have hin := (hinside c hcond.2).1
    rw [hv] at hin
    exact absurd (hin.symm.trans hg) (by decide)
  case answers =>
    intro m' hm' c hc
    refine h.answers m' ?_ c hc
    obtain ⟨t, ht, hmt⟩ := List.mem_flatten.1 hm'
    obtain ht | rfl := List.mem_or_eq_of_mem_set ht
    · exact List.mem_flatten.2 ⟨t, ht, hmt⟩
    · exact List.mem_flatten.2 ⟨_, List.mem_of_getElem? htask, List.mem_cons_of_mem _ hmt⟩
  case agree =>
    intro c v d
    have hagree := h.agree c v d
    rw [State.known, told_set htask hfirst] at hagree
    rw [State.known, hinbox]
    by_cases hc : s.receives m c = true
    · simp only [(hinside c hc).2, hc] at hagree ⊢
      simpa [List.append_assoc, State.current] using hagree
    · have hc' : s.receives m c = false := by simpa using hc
      rw [hc', Bool.and_false, if_neg (by simp), List.append_nil]
      by_cases haddressed : (m.about v d && m.addressed c) = true
      · rw [Bool.and_eq_true] at haddressed
        have hv : m.vaultId = v.text := by
          have := haddressed.1
          simp only [Send.about, decide_eq_true_eq] at this
          exact this.1
        -- The message is lost for a connection that is not in the vault, which knows nothing.
        have hg : s.groups c v.text = false := by
          rw [← hv]
          unfold State.receives at hc'
          have haddr := haddressed.2
          unfold Send.addressed at haddr
          cases hr : m.recipients with
          | othersInGroup caller =>
            rw [hr] at hc' haddr
            simpa [haddr] using hc'
          | group =>
            rw [hr] at hc'
            exact hc'
          | caller caller =>
            rw [hr] at hc' haddr
            have hdead : s.connected c = false := by simpa [haddr] using hc'
            by_contra hg
            have := h.members c m.vaultId (by simpa using hg)
            exact absurd (this.symm.trans hdead) (by decide)
        obtain ⟨hview, hnone⟩ := h.outside c v d hg
        rw [hview, hnone] at hagree ⊢
        exact hagree.of_append.of_append.of_append
      · rw [if_neg haddressed] at hagree
        exact hagree

theorem inv_deliver (h : Inv s) {c₀ : γ} {n : Notice} {rest : List Notice} (hinbox : s.inbox c₀ = n :: rest) :
    Inv { s with
      inbox := Function.update s.inbox c₀ rest
      view := Function.update s.view c₀ (Function.update (s.view c₀) (n.vaultId, n.docId) (some n.holder)) } := by
  have hold : ∀ v d, s.inboxAbout c₀ v d =
      (if n.vaultId = v.text ∧ n.docId = d then [n.holder] else []) ++
        (rest.filter fun n => n.vaultId = v.text ∧ n.docId = d).map (·.holder) := by
    intro v d
    unfold State.inboxAbout
    rw [hinbox]
    by_cases hn : n.vaultId = v.text ∧ n.docId = d <;> simp [hn]
  constructor
  case keys => exact h.keys
  case formed => exact h.formed
  case held => exact h.held
  case members => exact h.members
  case answers => exact h.answers
  case outside =>
    intro c v d hg
    obtain ⟨hview, hnone⟩ := h.outside c v d hg
    by_cases hc : c = c₀
    · subst hc
      rw [hold] at hnone
      obtain ⟨hhead, hrest⟩ := List.append_eq_nil_iff.1 hnone
      have hn : ¬ (n.vaultId = v.text ∧ n.docId = d) := fun hn => by simp [hn] at hhead
      have hne : (v.text, d) ≠ (n.vaultId, n.docId) := fun heq => by
        obtain ⟨hv, hd⟩ := Prod.mk.inj heq
        exact hn ⟨hv.symm, hd.symm⟩
      simp only [Function.update_self, Function.update_of_ne hne, State.inboxAbout]
      exact ⟨hview, hrest⟩
    · simpa [State.inboxAbout, Function.update_of_ne hc] using And.intro hview hnone
  case agree =>
    intro c v d
    have hagree := h.agree c v d
    by_cases hc : c = c₀
    · subst hc
      rw [State.known, hold] at hagree
      rw [State.known, State.inboxAbout]
      simp only [Function.update_self]
      by_cases hn : n.vaultId = v.text ∧ n.docId = d
      · obtain ⟨hv, rfl⟩ := hn
        rw [hv, Function.update_self]
        rw [if_pos ⟨hv, rfl⟩] at hagree
        exact hagree.of_append
      · have hne : (v.text, d) ≠ (n.vaultId, n.docId) := fun heq => by
          obtain ⟨hv, hd⟩ := Prod.mk.inj heq
          exact hn ⟨hv.symm, hd.symm⟩
        rw [Function.update_of_ne hne]
        rw [if_neg hn, List.nil_append] at hagree
        exact hagree
    · simpa [State.known, State.inboxAbout, State.current, Function.update_of_ne hc] using hagree

theorem inv_joinVault (h : Inv s) {c₀ : γ} (hconnected : s.connected c₀) (v₀ : VaultId) :
    Inv { s with groups := Function.update s.groups c₀ (Function.update (s.groups c₀) v₀.text true) } := by
  have hgrow : ∀ c t, s.groups c t = true →
      Function.update s.groups c₀ (Function.update (s.groups c₀) v₀.text true) c t = true := by
    intro c t hg
    by_cases hc : c = c₀
    · subst hc
      rw [Function.update_self]
      by_cases ht : t = v₀.text
      · subst ht
        rw [Function.update_self]
      · rw [Function.update_of_ne ht]
        exact hg
    · rw [Function.update_of_ne hc]
      exact hg
  constructor
  case keys => exact h.keys
  case formed => exact h.formed
  case held => exact h.held
  case members =>
    intro c t hg
    by_cases hc : c = c₀
    · rw [hc]
      exact hconnected
    · dsimp only at hg
      rw [Function.update_of_ne hc] at hg
      exact h.members c t hg
  case outside =>
    intro c v d hg
    refine h.outside c v d ?_
    by_contra hin
    exact absurd ((hgrow c v.text (by simpa using hin)).symm.trans hg) (by decide)
  case answers => exact fun m hm c hc => (h.answers m hm c hc).imp (hgrow c _) id
  case agree => exact h.agree

theorem inv_step (h : Inv s) (e : Event γ) (hok : InOrder s e) (hs : step s e = some s') : Inv s' := by
  cases e with
  | joinVault c v =>
    rw [step, Option.ite_none_right_eq_some] at hs
    obtain ⟨hc, hs⟩ := hs
    cases hs
    exact inv_joinVault h hc v
  | call candidate v d =>
    rw [step, Option.ite_none_right_eq_some] at hs
    obtain ⟨-, hs⟩ := hs
    cases hs
    exact { h with }
  | refuse k =>
    cases hs
    exact { h with }
  | acquire k =>
    rw [step] at hs
    rw [InOrder] at hok
    split at hs
    · cases hs
    · rename_i candidate v d hk
      rw [hk] at hok
      cases hs
      exact inv_acquire h hok.1 hok.2
  | release c v d =>
    rw [step] at hs
    split at hs
    · cases hs
    · rename_i registry hr
      cases hs
      exact inv_release h hr
  | disconnect c =>
    rw [step, Option.ite_none_right_eq_some] at hs
    obtain ⟨-, hs⟩ := hs
    cases hs
    exact inv_disconnect h c
  | send k =>
    rw [step] at hs
    rw [InOrder] at hok
    split at hs
    · rename_i m rest hk
      rw [hk] at hok
      cases hs
      exact inv_send h hk hok
    · cases hs
  | deliver c =>
    rw [step] at hs
    split at hs
    · cases hs
    · rename_i n rest hinbox
      cases hs
      exact inv_deliver h hinbox

end Steps

/-- As long as the messages about a document leave in the order of its changes, and only connections
that are there and in the vault take locks: a document has one holder, which is connected; and when
all messages are delivered, what a connection of the vault last heard of a document is its holder. -/
theorem locks_seen (s : State γ) (h : Run step InOrder init s) :
    (s.registry.map (·.1)).Nodup ∧ (∀ e ∈ s.registry, s.connected e.2.connectionId) ∧
    (s.tasks.flatten = [] → (∀ c, s.inbox c = []) → ∀ c v d state, s.groups c v.text →
      s.view c (v.text, d) = some state → state = s.current c v d) := by
  have hinv := h.invariant Inv inv_init fun _ e _ hs hok hstep => inv_step hs e hok hstep
  refine ⟨hinv.keys, hinv.held, fun htasks hinbox c v d state _ hview => ?_⟩
  refine hinv.agree c v d state ?_
  simp [State.known, State.inboxAbout, hview, hinbox, htasks, told]

def vaultV : VaultId := ⟨"v".toList, by decide⟩

def ada : LockHolder Bool := ⟨"ada".toList, "Ada".toList, false⟩
def bob : LockHolder Bool := ⟨"bob".toList, "Bob".toList, true⟩

/-- Ada takes the lock and gives it back, Bob takes it; all messages are sent and delivered. -/
def takenInTurn (release bobs : List (Event Bool)) : List (Event Bool) :=
  [.joinVault false vaultV, .joinVault true vaultV, .call ada vaultV "d".toList, .acquire 0, .send 0, .send 0,
    .deliver true, .deliver false, .release false vaultV "d".toList, .call bob vaultV "d".toList, .acquire 0] ++
    release ++ bobs ++ [.deliver false, .deliver false, .deliver true, .deliver true]

/-- The release is told before the acquisition. -/
theorem locks_seen_in_turn : ∃ s : State Bool, Run step InOrder init s ∧
    s.view false ("v".toList, "d".toList) = some (s.current false vaultV "d".toList) ∧ s.registry.length = 1 := by
  have hrun : ∃ s : State Bool, exec step InOrder init (takenInTurn [.send 1] [.send 2, .send 2]) = some s ∧
      s.tasks.flatten = [] ∧ (∀ c, s.inbox c = []) ∧ s.groups false vaultV.text ∧
      (∃ state, s.view false (vaultV.text, "d".toList) = some state) ∧ s.registry.length = 1 := by
    refine ⟨_, rfl, rfl, ?_, rfl, ⟨_, rfl⟩, rfl⟩
    intro c
    cases c <;> rfl
  obtain ⟨s, hs, htasks, hinbox, hgroup, ⟨state, hview⟩, hone⟩ := hrun
  have h := run_of_exec _ _ s hs
  have hseen := (locks_seen s h).2.2 htasks hinbox false vaultV "d".toList state hgroup hview
  exact ⟨s, h, hseen ▸ hview, hone⟩

/-- The release is told after the acquisition: everybody, Bob included, believes the document free. -/
theorem lock_seen_free : ∃ s : State Bool, Run step (fun _ _ => True) init s ∧ s.tasks.flatten = [] ∧
    (∀ c, s.inbox c = []) ∧ (∀ c, s.view c ("v".toList, "d".toList) = some none) ∧
    s.registry = [(DocumentLockRegistry.key vaultV "d".toList, bob)] := by
  have hrun : ∃ s : State Bool, exec step (fun _ _ => True) init (takenInTurn [] [.send 2, .send 2, .send 1]) = some s ∧
      s.tasks.flatten = [] ∧ (∀ c, s.inbox c = []) ∧ (∀ c, s.view c ("v".toList, "d".toList) = some none) ∧
      s.registry = [(DocumentLockRegistry.key vaultV "d".toList, bob)] := by
    refine ⟨_, rfl, rfl, ?_, ?_, rfl⟩
    · intro c
      cases c <;> rfl
    · intro c
      cases c <;> rfl
  obtain ⟨s, hs, hrest⟩ := hrun
  exact ⟨s, run_of_exec _ _ s hs, hrest⟩

/-- The connection `c` does not give up the lock `k`. -/
def Keeps (k : Text) (c : γ) (_ : State γ) : Event γ → Prop
  | .release c' v d => c' = c → DocumentLockRegistry.key v d ≠ k
  | .disconnect c' => c' ≠ c
  | _ => True

theorem lookup_filter {locks : List (Text × LockHolder γ)} {k : Text} {holder : LockHolder γ}
    (p : Text × LockHolder γ → Bool) (h : locks.lookup k = some holder) (hp : p (k, holder) = true) :
    (locks.filter p).lookup k = some holder := by
  induction locks with
  | nil => cases h
  | cons e locks ih =>
    obtain ⟨k', e⟩ := e
    rw [Entries.lookup_cons] at h
    by_cases hk : k = k'
    · subst hk
      obtain rfl : e = holder := by simpa using h
      rw [List.filter_cons_of_pos hp, Entries.lookup_cons, if_pos (beq_self_eq_true k)]
    · rw [List.filter_cons]
      split <;> simp_all [Entries.lookup_cons]

theorem lock_kept_step {s s' : State γ} {e : Event γ} {k : Text} {holder : LockHolder γ}
    (h : s.registry.lookup k = some holder) (hok : Keeps k holder.connectionId s e) (hs : step s e = some s') :
    s'.registry.lookup k = some holder := by
  cases e with
  | acquire call =>
    simp only [step] at hs
    split at hs <;> cases hs
    rename_i candidate v d _
    unfold DocumentLockRegistry.tryAcquire
    cases hl : s.registry.lookup (DocumentLockRegistry.key v d) with
    | some other => exact h
    | none => simp [List.lookup_append, h]
  | release c v d =>
    simp only [step, DocumentLockRegistry.release] at hs
    split at hs <;> cases hs
    rename_i registry hr
    split at hr
    · cases hr
    · rename_i other hl
      split at hr <;> cases hr
      rename_i hc
      rw [Entries.lookup_erase, if_neg, h]
      rintro hk
      obtain rfl := eq_of_beq hk
      obtain rfl : other = holder := Option.some.inj (hl.symm.trans h)
      exact hok (not_not.1 hc).symm rfl
  | disconnect c =>
    simp only [step] at hs
    split at hs <;> cases hs
    exact lookup_filter _ h (by simpa using hok.symm)
  | joinVault c v | call candidate v d | send task | deliver c =>
    simp only [step] at hs
    split at hs <;> cases hs
    exact h
  | refuse call =>
    cases hs
    exact h

/-- A lock stays with its holder, whatever all others do, until the connection that took it releases it or ends. -/
theorem lock_kept (s s' : State γ) (k : Text) (holder : LockHolder γ) (hheld : s.registry.lookup k = some holder)
    (h : Run step (Keeps k holder.connectionId) s s') : s'.registry.lookup k = some holder :=
  h.invariant (fun s => s.registry.lookup k = some holder) hheld fun _ _ _ hs hok hstep => lock_kept_step hs hok hstep

/-- Bob asks for the lock that Ada holds, then goes. -/
theorem lock_kept_ada : ∃ s' : State Bool, s'.connected true = false ∧
    s'.registry.lookup (DocumentLockRegistry.key vaultV "d".toList) = some ada := by
  have hrun : Run step (Keeps (DocumentLockRegistry.key vaultV "d".toList) false)
      { init with
        registry := [(DocumentLockRegistry.key vaultV "d".toList, ada)], waiting := [(bob, vaultV, "d".toList)] } _ :=
    .tail (.disconnect true) (.tail (.acquire 0) .refl trivial rfl) Bool.true_eq_false.mp rfl
  exact ⟨_, rfl, lock_kept _ _ _ ada rfl hrun⟩

end
end Savoire.EditLocks
