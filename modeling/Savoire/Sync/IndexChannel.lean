import Mathlib
import Savoire.Library.Join
import Savoire.Library.Transition

/-! The shared channel of an index on the server: its stored updates, the connections that join it,
push to it and compact it, and the replicas of the clients. A connection's requests are served one
after the other; what an old connection has sent may still be served after a reconnection.
`accepted` only records what happened. -/
set_option linter.unusedSectionVars false
namespace Savoire.IndexChannel
open Join Transition

/-- Who has asked for `JoinIndex`: the opening of the channel, or the return of the connection. -/
inductive Caller
  | openIndex
  | rejoinIndexes
  deriving DecidableEq

inductive Request (U : Type)
  | joinIndex (caller : Caller)
  | pushIndexUpdate (update : U)
  | snapshotIndex (state : U)

inductive Message (U : Type)
  | joined (caller : Caller) (ops : List U)
  | indexUpdateReceived (update : U)

/-- What the server is doing for a connection: `joining` holds what it has read, `pushed` what it has
stored and not broadcast yet. -/
inductive Work (U : Type)
  | idle
  | joining (caller : Caller) (read : List (Nat × U))
  | pushed (update : U)

structure Connection (U : Type) where
  requests : List (Request U)
  work : Work U
  /-- `Context.Items`: the ids of the operations returned to this connection. -/
  joined : List Nat
  inGroup : Bool
  inbox : List (Message U)

structure Client (U : Type) where
  replica : U
  /-- The connection in use is the last one; earlier ones are lost. -/
  epoch : Nat
  connected : Bool
  /-- The channel is opened: it has a callback for updates. -/
  opened : Bool
  /-- `openIndex` has called `joinIndex`. -/
  asked : Bool
  /-- The connection is back and `rejoinIndexes` has not run yet. -/
  back : Bool

structure State (κ U : Type) where
  ops : List (Nat × U)
  next : Nat
  accepted : List U
  clients : κ → Client U
  connections : κ × Nat → Connection U

inductive Event (κ U : Type)
  | edit (client : κ) (update : U)
  | flush (client : κ)
  | openIndex (client : κ)
  | joinIndex (client : κ)
  | rejoinIndex (client : κ)
  | drop (client : κ)
  | reconnect (client : κ)
  | serve (client : κ) (epoch : Nat)
  | finish (client : κ) (epoch : Nat)
  | deliver (client : κ) (message : Nat)

def indexCompactThreshold : Nat := 100

section
variable {κ U : Type} [DecidableEq κ] [SemilatticeSup U] [OrderBot U]

/-- `ReplaceAsync`: the operations of these ids give place to the snapshot, if there is still one. -/
def replaceAsync (ops : List (Nat × U)) (replacedOpIds : List Nat) (id : Nat) (snapshotBytes : U) :
    List (Nat × U) :=
  let kept := ops.filter fun o => o.1 ∉ replacedOpIds
  if kept.length < ops.length then kept ++ [(id, snapshotBytes)] else ops

def State.current (s : State κ U) (i : κ) : κ × Nat := (i, (s.clients i).epoch)

def State.setClient (s : State κ U) (i : κ) (c : Client U) : State κ U :=
  { s with clients := Function.update s.clients i c }

def State.setConnection (s : State κ U) (k : κ × Nat) (c : Connection U) : State κ U :=
  { s with connections := Function.update s.connections k c }

def State.invoke (s : State κ U) (i : κ) (request : Request U) : State κ U :=
  if (s.clients i).connected then
    let c := s.connections (s.current i)
    s.setConnection (s.current i) { c with requests := c.requests ++ [request] }
  else s

/-- `OthersInGroup` -/
def relay (sender : κ × Nat) (update : U) (connections : κ × Nat → Connection U) : κ × Nat → Connection U :=
  fun k =>
    if k ≠ sender ∧ (connections k).inGroup then
      { connections k with inbox := (connections k).inbox ++ [.indexUpdateReceived update] }
    else connections k

def serve (s : State κ U) (k : κ × Nat) : Option (State κ U) :=
  let c := s.connections k
  match c.work, c.requests with
  | .idle, .joinIndex caller :: rest =>
    some (s.setConnection k { c with requests := rest, work := .joining caller s.ops })
  | .idle, .pushIndexUpdate update :: rest => some
    { s.setConnection k { c with requests := rest, work := .pushed update } with
      ops := s.ops ++ [(s.next, update)], next := s.next + 1, accepted := s.accepted ++ [update] }
  | .idle, .snapshotIndex state :: rest =>
    if c.joined = [] then some (s.setConnection k { c with requests := rest })
    else some { s.setConnection k { c with requests := rest, joined := [] } with
      ops := replaceAsync s.ops c.joined s.next state, next := s.next + 1 }
  | _, _ => none

/-- The end of a request: the group, the recorded ids and the answer, or the broadcast. -/
def finish (s : State κ U) (k : κ × Nat) : Option (State κ U) :=
  let c := s.connections k
  match c.work with
  | .idle => none
  | .joining caller read => some (s.setConnection k { c with
      work := .idle, joined := read.map (·.1), inGroup := true
      inbox := c.inbox ++ [.joined caller (read.map (·.2))] })
  | .pushed update =>
    let s := s.setConnection k { c with work := .idle }
    some { s with connections := relay k update s.connections }

/-- What the client does with a message. The answer to `openIndex` is applied and, if it is long, the
whole state is sent to replace it. -/
def receive (s : State κ U) (i : κ) : Message U → State κ U
  | .joined .openIndex ops =>
    let c := s.clients i
    let replica := c.replica ⊔ joinAll ops
    let s := s.setClient i { c with replica := replica }
    if indexCompactThreshold < ops.length then s.invoke i (.snapshotIndex replica) else s
  | .joined .rejoinIndexes ops =>
    let c := s.clients i
    s.setClient i { c with replica := c.replica ⊔ joinAll ops }
  | .indexUpdateReceived update =>
    let c := s.clients i
    if c.opened then s.setClient i { c with replica := c.replica ⊔ update } else s

def step (s : State κ U) : Event κ U → Option (State κ U)
  | .edit i update =>
    let c := s.clients i
    if c.opened then
      some ((s.setClient i { c with replica := c.replica ⊔ update }).invoke i (.pushIndexUpdate update))
    else none
  | .flush i => some (s.invoke i (.pushIndexUpdate (s.clients i).replica))
  | .openIndex i =>
    let c := s.clients i
    if c.opened then none else some (s.setClient i { c with opened := true })
  | .joinIndex i =>
    let c := s.clients i
    if c.opened ∧ ¬ c.asked then
      some ((s.setClient i { c with asked := true }).invoke i (.joinIndex .openIndex))
    else none
  | .rejoinIndex i =>
    let c := s.clients i
    if c.connected ∧ c.back ∧ c.opened then
      some ((s.setClient i { c with back := false }).invoke i (.joinIndex .rejoinIndexes))
    else none
  | .drop i =>
    let c := s.clients i
    if c.connected then some (s.setClient i { c with connected := false, epoch := c.epoch + 1 }) else none
  | .reconnect i =>
    let c := s.clients i
    if c.connected then none else some (s.setClient i { c with connected := true, back := true })
  | .serve i epoch => serve s (i, epoch)
  | .finish i epoch => finish s (i, epoch)
  | .deliver i message =>
    let c := s.connections (s.current i)
    if (s.clients i).connected then
      match c.inbox[message]? with
      | none => none
      | some m => some (receive (s.setConnection (s.current i) { c with inbox := c.inbox.eraseIdx message }) i m)
    else none

def init : State κ U where
  ops := []
  next := 0
  accepted := []
  clients := fun _ => ⟨⊥, 0, true, false, false, false⟩
  connections := fun _ => ⟨[], .idle, [], false, []⟩

/-- The `JoinIndex` of `openIndex` is on its way, is being served or its answer is. -/
def Connection.Unanswered (c : Connection U) : Prop :=
  (∃ r ∈ c.requests, r = .joinIndex .openIndex) ∨ (∃ read, c.work = .joining .openIndex read) ∨
    ∃ ops, .joined .openIndex ops ∈ c.inbox

def Request.isOpening : Request U → Bool
  | .joinIndex .openIndex => true
  | _ => false

def Work.isOpening : Work U → Bool
  | .joining .openIndex _ => true
  | _ => false

def Message.isOpening : Message U → Bool
  | .joined .openIndex _ => true
  | _ => false

theorem unanswered_iff (c : Connection U) : (c.requests.any Request.isOpening || c.work.isOpening ||
    c.inbox.any Message.isOpening) = true ↔ c.Unanswered := by
  simp only [Bool.or_eq_true, List.any_eq_true, Connection.Unanswered, or_assoc]
  refine or_congr (exists_congr fun r => and_congr_right fun _ => ?_) (or_congr ?_ ?_)
  · unfold Request.isOpening
    split <;> simp_all
  · unfold Work.isOpening
    split <;> simp_all
  · constructor
    · intro ⟨m, hm, hopen⟩
      unfold Message.isOpening at hopen
      split at hopen
      · exact ⟨_, hm⟩
      · cases hopen
    · exact fun ⟨ops, hm⟩ => ⟨_, hm, rfl⟩

instance (c : Connection U) : Decidable c.Unanswered := decidable_of_iff _ (unanswered_iff c)

/-- A connection that is back is not joined again while the opening of the channel on it waits for
its answer. -/
def RejoinAfterAnswer (s : State κ U) : Event κ U → Prop
  | .rejoinIndex i => ¬ (s.connections (s.current i)).Unanswered
  | _ => True

instance (s : State κ U) : (e : Event κ U) → Decidable (RejoinAfterAnswer s e)
  | .rejoinIndex _ => inferInstanceAs (Decidable (¬ _))
  | .edit .. | .flush _ | .openIndex _ | .joinIndex _ | .drop _ | .reconnect _ | .serve .. | .finish ..
  | .deliver .. => isTrue trivial

def Request.isJoin : Request U → Bool
  | .joinIndex _ => true
  | _ => false

def Request.isSnapshot : Request U → Bool
  | .snapshotIndex _ => true
  | _ => false

/-- No snapshot waits behind a join, and no join behind that of `openIndex`. -/
def InOrder (a b : Request U) : Prop :=
  ¬ (a.isJoin = true ∧ b.isSnapshot = true) ∧ ¬ (a = .joinIndex .openIndex ∧ b.isJoin = true)

/-- No join waits, none is served. -/
def Connection.Settled (c : Connection U) : Prop :=
  (∀ r ∈ c.requests, r.isJoin = false) ∧ ∀ caller read, c.work ≠ .joining caller read

/-- A snapshot on its way covers the operations that it will replace, and so does the answer that a
snapshot may follow. -/
structure Safe (ops : List (Nat × U)) (next : Nat) (c : Connection U) : Prop where
  order : c.requests.Pairwise InOrder
  snapshot : ∀ bytes, .snapshotIndex bytes ∈ c.requests →
    (∀ caller read, c.work ≠ .joining caller read) ∧ ∀ o ∈ ops, o.1 ∈ c.joined → o.2 ≤ bytes
  reading : ∀ caller read, c.work = .joining caller read →
    (caller = .openIndex → ∀ r ∈ c.requests, r.isJoin = false) ∧
    (∀ o ∈ ops, o.1 ∈ read.map (·.1) → o ∈ read) ∧ ∀ o ∈ read, o.1 < next
  answered : ∀ os, .joined .openIndex os ∈ c.inbox → c.Settled ∧ ∀ o ∈ ops, o.1 ∈ c.joined → o.2 ∈ os
  joined : ∀ id ∈ c.joined, id < next

section Safe
variable {ops ops' : List (Nat × U)} {next next' : Nat} {c : Connection U}

section
variable (h : Safe ops next c)
include h

theorem Safe.mono (hops : ∀ o ∈ ops', o.1 < next → o ∈ ops) (hnext : next ≤ next') :
    Safe ops' next' c where
  order := h.order
  snapshot := by
    intro bytes hb
    obtain ⟨hwork, hcover⟩ := h.snapshot bytes hb
    exact ⟨hwork, fun o ho hid => hcover o (hops o ho (h.joined _ hid)) hid⟩
  reading := by
    intro caller read hr
    obtain ⟨hjoin, hread, hbound⟩ := h.reading caller read hr
    refine ⟨hjoin, fun o ho hid => ?_, fun o ho => Nat.lt_of_lt_of_le (hbound o ho) hnext⟩
    obtain ⟨x, hx, hxid⟩ := List.mem_map.1 hid
    exact hread o (hops o ho (hxid ▸ hbound x hx)) hid
  answered := by
    intro os hos
    obtain ⟨hsettled, hcover⟩ := h.answered os hos
    exact ⟨hsettled, fun o ho hid => hcover o (hops o ho (h.joined _ hid)) hid⟩
  joined := fun id hid => Nat.lt_of_lt_of_le (h.joined id hid) hnext

theorem safe_push (update : U) :
    Safe ops next { c with requests := c.requests ++ [.pushIndexUpdate update] } where
  order := by
    refine List.pairwise_append.2 ⟨h.order, List.pairwise_singleton .., fun a _ b hb => ?_⟩
    rw [List.mem_singleton.1 hb]
    simp [InOrder, Request.isJoin, Request.isSnapshot]
  snapshot := fun bytes hb => h.snapshot bytes (by simpa using hb)
  reading := by
    intro caller read hr
    obtain ⟨hjoin, hrest⟩ := h.reading caller read hr
    refine ⟨fun hcaller r hmem => ?_, hrest⟩
    obtain hmem | hmem := List.mem_append.1 hmem
    · exact hjoin hcaller r hmem
    · rw [List.mem_singleton.1 hmem]
      rfl
  answered := by
    intro os hos
    obtain ⟨⟨hjoin, hwork⟩, hcover⟩ := h.answered os hos
    refine ⟨⟨fun r hmem => ?_, hwork⟩, hcover⟩
    obtain hmem | hmem := List.mem_append.1 hmem
    · exact hjoin r hmem
    · rw [List.mem_singleton.1 hmem]
      rfl
  joined := h.joined

theorem safe_join (hc : ¬ c.Unanswered) (caller : Caller) :
    Safe ops next { c with requests := c.requests ++ [.joinIndex caller] } where
  order := by
    refine List.pairwise_append.2 ⟨h.order, List.pairwise_singleton .., fun a ha b hb => ?_⟩
    rw [List.mem_singleton.1 hb]
    exact ⟨by simp [Request.isSnapshot], fun hopen => hc (.inl ⟨a, ha, hopen.1⟩)⟩
  snapshot := fun bytes hb => h.snapshot bytes (by simpa using hb)
  reading := by
    intro caller' read hr
    refine ⟨fun hcaller => absurd (.inr (.inl ⟨read, ?_⟩)) hc, (h.reading caller' read hr).2⟩
    rw [← hcaller]
    exact hr
  answered := fun os hos => absurd (.inr (.inr ⟨os, hos⟩)) hc
  joined := h.joined

theorem safe_snapshot (hsettled : c.Settled) {state : U}
    (hcover : ∀ o ∈ ops, o.1 ∈ c.joined → o.2 ≤ state) :
    Safe ops next { c with requests := c.requests ++ [.snapshotIndex state] } where
  order := by
    refine List.pairwise_append.2 ⟨h.order, List.pairwise_singleton .., fun a ha b hb => ?_⟩
    rw [List.mem_singleton.1 hb]
    have hjoin := hsettled.1 a ha
    exact ⟨by simp [hjoin], by simp [Request.isJoin]⟩
  snapshot := by
    intro bytes hb
    obtain hb | hb := List.mem_append.1 hb
    · exact h.snapshot bytes hb
    · cases List.mem_singleton.1 hb
      exact ⟨hsettled.2, hcover⟩
  reading := fun caller read hr => absurd hr (hsettled.2 caller read)
  answered := by
    intro os hos
    obtain ⟨⟨hjoin, hwork⟩, hcover⟩ := h.answered os hos
    refine ⟨⟨fun r hmem => ?_, hwork⟩, hcover⟩
    obtain hmem | hmem := List.mem_append.1 hmem
    · exact hjoin r hmem
    · rw [List.mem_singleton.1 hmem]
      rfl
  joined := h.joined

theorem safe_inbox {inbox : List (Message U)}
    (hinbox : ∀ os, .joined .openIndex os ∈ inbox → .joined .openIndex os ∈ c.inbox) :
    Safe ops next { c with inbox := inbox } where
  __ := h
  answered := fun os hos => h.answered os (hinbox os hos)

theorem safe_rest {r : Request U} {rest : List (Request U)} (hreq : c.requests = r :: rest)
    {work : Work U} (hwork : ∀ caller read, work ≠ .joining caller read) {ids : List Nat}
    (hids : ids = c.joined ∨ ids = []) : Safe ops next { c with requests := rest, work := work, joined := ids } where
  order := by
    have := h.order
    rw [hreq] at this
    exact this.of_cons
  snapshot := by
    intro bytes hb
    refine ⟨hwork, fun o ho hid => ?_⟩
    obtain rfl | rfl := hids
    · exact (h.snapshot bytes (by rw [hreq]; exact List.mem_cons_of_mem _ hb)).2 o ho hid
    · cases hid
  reading := fun caller read hr => absurd hr (hwork caller read)
  answered := by
    intro os hos
    obtain ⟨⟨hjoin, -⟩, hcover⟩ := h.answered os hos
    refine ⟨⟨fun r' hr' => hjoin r' ?_, hwork⟩, fun o ho hid => ?_⟩
    · rw [hreq]
      exact List.mem_cons_of_mem _ hr'
    · obtain rfl | rfl := hids
      · exact hcover o ho hid
      · cases hid
  joined := by
    obtain rfl | rfl := hids
    · exact h.joined
    · exact nofun

theorem safe_joining {caller : Caller} {rest : List (Request U)}
    (hreq : c.requests = .joinIndex caller :: rest) (hbound : ∀ o ∈ ops, o.1 < next) :
    Safe ops next { c with requests := rest, work := .joining caller ops } := by
  have horder := h.order
  rw [hreq, List.pairwise_cons] at horder
  constructor
  case order => exact horder.2
  case snapshot => exact fun bytes hb => absurd ⟨rfl, rfl⟩ (horder.1 _ hb).1
  case reading =>
    intro caller' read hr
    obtain ⟨rfl, rfl⟩ := Work.joining.inj hr
    refine ⟨fun hopen r hr => ?_, fun o ho _ => ho, hbound⟩
    subst hopen
    have hnot := (horder.1 r hr).2
    simpa using hnot
  case answered =>
    intro os hos
    have hfalse := (h.answered os hos).1.1 (.joinIndex caller) (by rw [hreq]; exact List.mem_cons_self)
    cases hfalse
  case joined => exact h.joined

theorem safe_joined {caller : Caller} {read : List (Nat × U)}
    (hwork : c.work = .joining caller read) :
    Safe ops next { c with
      work := .idle, joined := read.map (·.1), inGroup := true
      inbox := c.inbox ++ [.joined caller (read.map (·.2))] } := by
  obtain ⟨hjoin, hread, hbound⟩ := h.reading caller read hwork
  constructor
  case order => exact h.order
  case snapshot => exact fun bytes hb => absurd hwork ((h.snapshot bytes hb).1 caller read)
  case reading => exact nofun
  case answered =>
    intro os hos
    obtain hos | hos := List.mem_append.1 hos
    · exact absurd hwork ((h.answered os hos).1.2 caller read)
    · rw [List.mem_singleton, Message.joined.injEq] at hos
      obtain ⟨hopen, rfl⟩ := hos
      refine ⟨⟨hjoin hopen.symm, nofun⟩, fun o ho hid => ?_⟩
      exact List.mem_map_of_mem (hread o ho hid)
  case joined =>
    intro id hid
    obtain ⟨o, ho, rfl⟩ := List.mem_map.1 hid
    exact hbound o ho

theorem safe_pushed : Safe ops next { c with work := .idle } where
  order := h.order
  snapshot := fun bytes hb => ⟨nofun, (h.snapshot bytes hb).2⟩
  reading := nofun
  answered := fun os hos => ⟨⟨(h.answered os hos).1.1, nofun⟩, (h.answered os hos).2⟩
  joined := h.joined

end

end Safe

theorem mem_replaceAsync {ops : List (Nat × U)} {ids : List Nat} {id : Nat} {bytes : U} {o : Nat × U}
    (h : o ∈ replaceAsync ops ids id bytes) : o ∈ ops ∨ o = (id, bytes) := by
  unfold replaceAsync at h
  dsimp only at h
  split at h
  · obtain h | h := List.mem_append.1 h
    · exact .inl (List.mem_filter.1 h).1
    · exact .inr (List.mem_singleton.1 h)
  · exact .inl h

theorem joinAll_replaceAsync {ops : List (Nat × U)} {ids : List Nat} {id : Nat} {bytes : U}
    (h : ∀ o ∈ ops, o.1 ∈ ids → o.2 ≤ bytes) :
    joinAll (ops.map (·.2)) ≤ joinAll ((replaceAsync ops ids id bytes).map (·.2)) := by
  unfold replaceAsync
  dsimp only
  split
  · refine (joinAll_le_iff _ _).2 fun u hu => ?_
    obtain ⟨o, ho, rfl⟩ := List.mem_map.1 hu
    rw [List.map_append, joinAll_append]
    by_cases hid : o.1 ∈ ids
    · exact le_sup_of_le_right ((h o ho hid).trans (le_joinAll _ _ (by simp)))
    · refine le_sup_of_le_left (le_joinAll _ _ (List.mem_map_of_mem ?_))
      exact List.mem_filter.2 ⟨ho, by simpa using hid⟩
  · exact le_rfl

structure Inv (s : State κ U) : Prop where
  complete : joinAll s.accepted ≤ joinAll (s.ops.map (·.2))
  bounded : ∀ o ∈ s.ops, o.1 < s.next
  safe : ∀ k, Safe s.ops s.next (s.connections k)
  unasked : ∀ i, (s.clients i).asked = false → ∀ epoch, ¬ (s.connections (i, epoch)).Unanswered

section Steps
variable {s s' : State κ U}

theorem inv_init : Inv (init : State κ U) where
  complete := le_rfl
  bounded := nofun
  safe := fun _ => ⟨List.Pairwise.nil, nofun, nofun, nofun, nofun⟩
  unasked := by
    rintro i - epoch (⟨r, hr, -⟩ | ⟨read, hr⟩ | ⟨ops, hr⟩)
    · cases hr
    · cases hr
    · cases hr

section
variable (h : Inv s)
include h

theorem Inv.setClient (i : κ) (c : Client U) (hasked : c.asked = false → (s.clients i).asked = false) :
    Inv (s.setClient i c) where
  __ := h
  unasked := by
    intro j hj
    refine h.unasked j ?_
    by_cases hji : j = i
    · subst hji
      simp only [State.setClient, Function.update_self] at hj
      exact hasked hj
    · simpa only [State.setClient, Function.update_of_ne hji] using hj

theorem Inv.setConnection (k : κ × Nat) (c : Connection U) (hc : Safe s.ops s.next c)
    (hasked : (s.clients k.1).asked = false → ¬ c.Unanswered) : Inv (s.setConnection k c) where
  complete := h.complete
  bounded := h.bounded
  safe := by
    intro k'
    by_cases hk : k' = k
    · subst hk
      simpa only [State.setConnection, Function.update_self] using hc
    · simpa only [State.setConnection, Function.update_of_ne hk] using h.safe k'
  unasked := by
    intro i hi epoch
    by_cases hk : (i, epoch) = k
    · subst hk
      simpa only [State.setConnection, Function.update_self] using hasked hi
    · simpa only [State.setConnection, Function.update_of_ne hk] using h.unasked i hi epoch

theorem Inv.setOps {ops : List (Nat × U)} {accepted : List U}
    (hops : ∀ o ∈ ops, o ∈ s.ops ∨ o.1 = s.next) (hcomplete : joinAll accepted ≤ joinAll (ops.map (·.2))) :
    Inv { s with ops := ops, next := s.next + 1, accepted := accepted } where
  complete := hcomplete
  bounded := by
    intro o ho
    obtain ho | ho := hops o ho
    · exact Nat.lt_succ_of_lt (h.bounded o ho)
    · rw [ho]
      exact Nat.lt_succ_self _
  safe := fun k => (h.safe k).mono
    (fun o ho hlt => (hops o ho).resolve_right (Nat.ne_of_lt hlt)) (Nat.le_succ _)
  unasked := h.unasked

theorem Inv.invoke (i : κ) (r : Request U)
    (hr : Safe s.ops s.next { s.connections (s.current i) with
      requests := (s.connections (s.current i)).requests ++ [r] })
    (hasked : (s.clients i).asked = true ∨ r ≠ .joinIndex .openIndex) : Inv (s.invoke i r) := by
  unfold State.invoke
  split
  · refine h.setConnection _ _ hr fun hfalse => ?_
    obtain htrue | hne := hasked
    · exact absurd (htrue.symm.trans hfalse) (by decide)
    · have hold := h.unasked i hfalse (s.clients i).epoch
      rintro (⟨r', hr', rfl⟩ | hrest)
      · obtain hr' | hr' := List.mem_append.1 hr'
        · exact hold (.inl ⟨_, hr', rfl⟩)
        · exact hne (List.mem_singleton.1 hr').symm
      · exact hold (.inr hrest)
  · exact h

theorem inv_serve (k : κ × Nat) (hs : serve s k = some s') : Inv s' := by
  unfold serve at hs
  dsimp only at hs
  have hpop : ∀ (r : Request U) rest work ids, (s.connections k).requests = r :: rest →
      (∀ caller read, work ≠ .joining caller read) → ids = (s.connections k).joined ∨ ids = [] →
      Inv (s.setConnection k { s.connections k with requests := rest, work := work, joined := ids }) := by
    intro r rest work ids hreq hwork hids
    refine h.setConnection k _ (safe_rest (h.safe k) hreq hwork hids) fun hasked hun => h.unasked _ hasked k.2 ?_
    obtain ⟨r', hr', hopen⟩ | ⟨read, hr⟩ | hans := hun
    · refine .inl ⟨r', ?_, hopen⟩
      rw [hreq]
      exact List.mem_cons_of_mem _ hr'
    · exact absurd hr (hwork _ _)
    · exact .inr (.inr hans)
  split at hs
  · rename_i caller rest hwork hreq
    cases hs
    refine h.setConnection k _ (safe_joining (h.safe k) hreq h.bounded) fun hasked hun => h.unasked _ hasked k.2 ?_
    obtain ⟨r', hr', hopen⟩ | ⟨read, hr⟩ | hans := hun
    · refine .inl ⟨r', ?_, hopen⟩
      rw [hreq]
      exact List.mem_cons_of_mem _ hr'
    · refine .inl ⟨.joinIndex caller, ?_, by rw [(Work.joining.inj hr).1]⟩
      rw [hreq]
      exact List.mem_cons_self
    · exact .inr (.inr hans)
  · rename_i update rest hwork hreq
    cases hs
    refine (hpop _ rest (.pushed update) _ hreq nofun (.inl rfl)).setOps ?_ ?_
    · intro o ho
      obtain ho | ho := List.mem_append.1 ho
      · exact .inl ho
      · rw [List.mem_singleton.1 ho]
        exact .inr rfl
    · rw [List.map_append, joinAll_append, joinAll_append]
      exact sup_le_sup_right h.complete _
  · rename_i state rest hwork hreq
    split at hs
    · cases hs
      exact hpop _ rest _ _ hreq (by simp [hwork]) (.inl rfl)
    · cases hs
      have hcover := (h.safe k).snapshot state (by rw [hreq]; exact List.mem_cons_self)
      refine (hpop _ rest _ _ hreq (by simp [hwork]) (.inr rfl)).setOps ?_ ?_
      · intro o ho
        obtain ho | rfl := mem_replaceAsync ho
        · exact .inl ho
        · exact .inr rfl
      · exact h.complete.trans (joinAll_replaceAsync hcover.2)
  · cases hs

theorem Inv.relay (k : κ × Nat) (update : U) :
    Inv { s with connections := relay k update s.connections } where
  complete := h.complete
  bounded := h.bounded
  safe := by
    intro k'
    change Safe s.ops s.next (IndexChannel.relay k update s.connections k')
    unfold IndexChannel.relay
    split
    · exact safe_inbox (h.safe k') fun os hos => by simpa using hos
    · exact h.safe k'
  unasked := by
    intro i hi epoch
    have hold := h.unasked i hi epoch
    change ¬ (IndexChannel.relay k update s.connections (i, epoch)).Unanswered
    unfold IndexChannel.relay
    split
    · rintro (hr | hr | ⟨os, hos⟩)
      · exact hold (.inl hr)
      · exact hold (.inr (.inl hr))
      · exact hold (.inr (.inr ⟨os, by simpa using hos⟩))
    · exact hold

theorem inv_finish (k : κ × Nat) (hs : finish s k = some s') : Inv s' := by
  unfold finish at hs
  dsimp only at hs
  split at hs
  · cases hs
  · rename_i caller read hwork
    cases hs
    refine h.setConnection k _ (safe_joined (h.safe k) hwork) fun hasked hun => h.unasked _ hasked k.2 ?_
    obtain hr | ⟨read', hr⟩ | ⟨os, hos⟩ := hun
    · exact .inl hr
    · cases hr
    · obtain hos | hos := List.mem_append.1 hos
      · exact .inr (.inr ⟨os, hos⟩)
      · rw [List.mem_singleton, Message.joined.injEq] at hos
        exact .inr (.inl ⟨read, by rw [hos.1, hwork]⟩)
  · rename_i update hwork
    cases hs
    refine Inv.relay (h.setConnection k _ (safe_pushed (h.safe k)) fun hasked hun => h.unasked _ hasked k.2 ?_) k update
    obtain hr | ⟨read', hr⟩ | hans := hun
    · exact .inl hr
    · cases hr
    · exact .inr (.inr hans)

theorem inv_deliver (i : κ) {message : Nat} {m : Message U}
    (hm : (s.connections (s.current i)).inbox[message]? = some m) :
    Inv (receive (s.setConnection (s.current i) { s.connections (s.current i) with
      inbox := (s.connections (s.current i)).inbox.eraseIdx message }) i m) := by
  have herase : ∀ os, (.joined .openIndex os : Message U) ∈ (s.connections (s.current i)).inbox.eraseIdx message →
      .joined .openIndex os ∈ (s.connections (s.current i)).inbox := fun os hos => List.mem_of_mem_eraseIdx hos
  have hcurrent := h.safe (s.current i)
  have ht := h.setConnection (s.current i) _ (safe_inbox hcurrent herase) fun hasked hun => by
    refine h.unasked i hasked (s.clients i).epoch ?_
    obtain hr | hr | ⟨os, hos⟩ := hun
    · exact .inl hr
    · exact .inr (.inl hr)
    · exact .inr (.inr ⟨os, herase os hos⟩)
  cases m with
  | indexUpdateReceived update =>
    unfold receive
    dsimp only
    split
    · exact ht.setClient i _ id
    · exact ht
  | joined caller ops =>
    cases caller with
    | rejoinIndexes => exact ht.setClient i _ id
    | openIndex =>
      obtain ⟨hsettled, hcover⟩ := hcurrent.answered ops (List.mem_of_getElem? hm)
      unfold receive
      dsimp only
      split
      · refine (ht.setClient i _ ?_).invoke i _ ?_ (.inr nofun)
        · exact id
        · simp only [State.current, State.setClient, State.setConnection, Function.update_self]
          refine safe_snapshot (safe_inbox hcurrent herase) hsettled fun o ho hid => ?_
          exact (le_joinAll ops _ (hcover o ho hid)).trans le_sup_right
      · exact ht.setClient i _ id

theorem inv_step (e : Event κ U) (hok : RejoinAfterAnswer s e) (hs : step s e = some s') : Inv s' := by
  have hsend : ∀ (t : State κ U) i update, Inv t → Inv (t.invoke i (.pushIndexUpdate update)) :=
    fun t i update ht => ht.invoke i _ (safe_push (ht.safe _) update) (.inr nofun)
  cases e with
  | edit i update =>
    simp only [step, Option.ite_none_right_eq_some] at hs
    obtain ⟨-, hs⟩ := hs
    cases hs
    exact hsend _ i update (h.setClient i _ id)
  | flush i =>
    cases hs
    exact hsend s i _ h
  | openIndex i =>
    simp only [step, Option.ite_none_left_eq_some] at hs
    obtain ⟨-, hs⟩ := hs
    cases hs
    exact h.setClient i _ id
  | joinIndex i =>
    simp only [step, Option.ite_none_right_eq_some] at hs
    obtain ⟨⟨-, hasked⟩, hs⟩ := hs
    cases hs
    have ht := h.setClient i { s.clients i with asked := true } nofun
    refine ht.invoke i _ (safe_join (ht.safe _) ?_ _) (.inl ?_)
    · exact h.unasked i (by simpa using hasked) _
    · simp only [State.setClient, Function.update_self]
  | rejoinIndex i =>
    simp only [step, Option.ite_none_right_eq_some] at hs
    obtain ⟨-, hs⟩ := hs
    cases hs
    have ht := h.setClient i { s.clients i with back := false } id
    refine ht.invoke i _ (safe_join (ht.safe _) ?_ _) (.inr nofun)
    have hnot : ¬ (s.connections (i, (s.clients i).epoch)).Unanswered := hok
    simpa only [State.current, State.setClient, Function.update_self] using hnot
  | drop i =>
    simp only [step, Option.ite_none_right_eq_some] at hs
    obtain ⟨-, hs⟩ := hs
    cases hs
    exact h.setClient i _ id
  | reconnect i =>
    simp only [step, Option.ite_none_left_eq_some] at hs
    obtain ⟨-, hs⟩ := hs
    cases hs
    exact h.setClient i _ id
  | serve i epoch => exact inv_serve h _ hs
  | finish i epoch => exact inv_finish h _ hs
  | deliver i message =>
    simp only [step, Option.ite_none_right_eq_some] at hs
    obtain ⟨-, hs⟩ := hs
    split at hs
    · cases hs
    · rename_i m hm
      cases hs
      exact inv_deliver h i hm

end

end Steps

/-- As long as no connection joins the channel again while its opening waits for an answer, the
operations stored on the channel contain every update ever accepted. -/
theorem compaction_safe (s : State κ U) (h : Run step RejoinAfterAnswer init s) :
    joinAll s.accepted ≤ joinAll (s.ops.map (·.2)) :=
  (h.invariant Inv inv_init fun _ e _ hs hok hstep => inv_step hs e hok hstep).complete

/-- One client has opened the channel and pushed `n` updates, one after the other. -/
def afterPushes (n : Nat) : State Bool Bool where
  ops := (List.range n).map fun i => (i, false)
  next := n
  accepted := List.replicate n false
  clients := fun i => if i then ⟨false, 0, true, false, false, false⟩ else ⟨false, 0, true, true, false, false⟩
  connections := fun _ => ⟨[], .idle, [], false, []⟩

theorem run_afterPushes (n : Nat) : Run step RejoinAfterAnswer init (afterPushes n) := by
  induction n with
  | zero =>
    refine .tail (.openIndex false) .refl trivial ?_
    have hclients :
        Function.update (fun _ => ⟨⊥, 0, true, false, false, false⟩) false ⟨⊥, 0, true, true, false, false⟩ =
        (afterPushes 0).clients := by
      funext i
      cases i <;> rfl
    simp only [step, init, State.setClient, Bool.false_eq_true, if_false, hclients]
    rfl
  | succ n ih =>
    let s := afterPushes n
    let own : Connection Bool := ⟨[.pushIndexUpdate false], .idle, [], false, []⟩
    let served : Connection Bool := ⟨[], .pushed false, [], false, []⟩
    let s₁ : State Bool Bool := { s with connections := Function.update s.connections (false, 0) own }
    let s₂ : State Bool Bool := { s with
      connections := Function.update s.connections (false, 0) served
      ops := s.ops ++ [(n, false)], next := n + 1, accepted := s.accepted ++ [false] }
    have hedit : step s (.edit false false) = some s₁ := by
      have hclients : Function.update s.clients false ⟨false, 0, true, true, false, false⟩ = s.clients := by
        funext i
        cases i <;> rfl
      change some (State.invoke { s with
        clients := Function.update s.clients false ⟨false, 0, true, true, false, false⟩ }
          false (.pushIndexUpdate false)) = _
      rw [hclients]
      rfl
    have hserve : step s₁ (.serve false 0) = some s₂ := by
      simp [step, serve, s₁, own, State.setConnection]
      rfl
    have hfinish : step s₂ (.finish false 0) = some (afterPushes (n + 1)) := by
      have hconnections :
          relay (false, 0) false (Function.update s₂.connections (false, 0) ⟨[], .idle, [], false, []⟩) =
            (afterPushes (n + 1)).connections := by
        funext k
        by_cases hk : k = (false, 0) <;> simp [relay, hk, s₂, s, afterPushes]
      have hstep : step s₂ (.finish false 0) = some { s₂ with
          connections :=
            relay (false, 0) false (Function.update s₂.connections (false, 0) ⟨[], .idle, [], false, []⟩) } := by
        simp [step, finish, s₂, served, State.setConnection]
      rw [hstep, hconnections]
      simp [s₂, s, afterPushes, List.range_succ, List.replicate_succ']
    exact .tail (.finish false 0) (.tail (.serve false 0) (.tail (.edit false false) ih trivial hedit) trivial hserve)
      trivial hfinish

/-- The other client opens the channel and compacts it. -/
theorem compaction_safe_many : ∃ s : State Bool Bool, Run step RejoinAfterAnswer init s ∧
    s.accepted.length = 101 ∧ s.ops.length = 1 ∧ joinAll s.accepted ≤ joinAll (s.ops.map (·.2)) := by
  have hrun : (exec step RejoinAfterAnswer (afterPushes 101)
      [.openIndex true, .joinIndex true, .serve true 0, .finish true 0, .deliver true 0, .serve true 0]).map
      (fun s => (s.accepted.length, s.ops.length)) = some (101, 1) := by decide +kernel
  obtain ⟨s, hs, hlen⟩ := Option.map_eq_some_iff.1 hrun
  rw [Prod.mk.injEq] at hlen
  have h := (run_afterPushes 101).trans (run_of_exec _ _ s hs)
  exact ⟨s, h, hlen.1, hlen.2, compaction_safe s h⟩

/-- The connection of the other client comes back; it opens the channel, joins it again while the
opening waits, and an update is stored between the two readings. -/
def rejoinedTooSoon : List (Event Bool Bool) :=
  [.drop true, .reconnect true, .openIndex true, .joinIndex true, .rejoinIndex true, .serve true 1, .finish true 1,
    .edit false true, .serve false 0, .serve true 1, .finish true 1, .deliver true 0, .serve true 1]

theorem operation_lost_by_compaction : ∃ s : State Bool Bool, Run step (fun _ _ => True) init s ∧
    ¬ joinAll s.accepted ≤ joinAll (s.ops.map (·.2)) := by
  have hrun : (exec step (fun _ _ => True) (afterPushes 101) rejoinedTooSoon).map
      (fun s => decide (joinAll s.accepted ≤ joinAll (s.ops.map (·.2)))) = some false := by decide +kernel
  obtain ⟨s, hs, hlost⟩ := Option.map_eq_some_iff.1 hrun
  refine ⟨s, ?_, by simpa using hlost⟩
  exact ((run_afterPushes 101).weaken fun _ _ _ => trivial).trans (run_of_exec _ _ s hs)

end
end Savoire.IndexChannel
