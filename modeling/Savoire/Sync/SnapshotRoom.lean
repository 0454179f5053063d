import Mathlib.Data.List.TakeWhile
import Mathlib.Data.Fintype.Basic
import Mathlib.Logic.Function.Basic
import Savoire.Library.Transition
import Savoire.Sync.SnapshotDocument

/-! The room of one snapshot document: clients open it, write it and receive the writes of the others;
the server stores each snapshot, then broadcasts it. Requests and messages of a connection keep their
order, a connection's requests are served one after the other, and no client disconnects. -/
set_option linter.unusedSectionVars false

namespace Savoire.SnapshotRoom
open Transition

/-- How far the `JoinRoom` of a client is, with the snapshot read for it. -/
inductive JoinRoom (α : Type)
  | notCalled
  | called
  | read (snapshot : Option α)
  | grouped (snapshot : Option α)
  | answered (snapshot : Option α)
  | completed (snapshot : Option α)

inductive Message (α : Type)
  | roomJoined (snapshot : Option α)
  | completion
  | snapshotReceived (snapshotJson : α)

structure Client (α : Type) where
  doc : SharedSnapshotDocument α
  join : JoinRoom α
  /-- `initialSnapshot`, once resolved. -/
  initialSnapshot : Option (Option α)
  /-- `openRoom` has resolved. -/
  opened : Bool
  /-- `onSnapshot` has been called. -/
  subscribed : Bool
  /-- Writes that await the room. -/
  waiting : List α
  requests : List α
  /-- A `PushSnapshot` of this client that is stored and not broadcast yet. -/
  stored : Option α
  inbox : List (Message α)

structure State (γ α : Type) where
  snapshot : Option α
  clients : γ → Client α

inductive Event (γ α : Type)
  | openSnapshot (c : γ)
  | readSnapshot (c : γ)
  | addToGroup (c : γ)
  | sendJoined (c : γ)
  | complete (c : γ)
  | deliver (c : γ)
  | subscribe (c : γ)
  | settle (c : γ)
  | write (c : γ) (content : α)
  | invoke (c : γ)
  | store (c : γ)
  | broadcast (c : γ)

section
variable {γ α : Type} [DecidableEq γ] [DecidableEq α]

def State.set (s : State γ α) (c : γ) (client : Client α) : State γ α :=
  { s with clients := Function.update s.clients c client }

def JoinRoom.inGroup : JoinRoom α → Bool
  | .grouped _ | .answered _ | .completed _ => true
  | _ => false

def receive (client : Client α) : Message α → Client α
  | .roomJoined snapshot => { client with
      initialSnapshot := some (client.initialSnapshot.getD snapshot) }
  | .completion => { client with
      initialSnapshot := some (client.initialSnapshot.getD none), opened := true }
  | .snapshotReceived content =>
    if client.subscribed then { client with doc := client.doc.onRemote content } else client

/-- `OthersInGroup(...).SendAsync("SnapshotReceived", ...)` -/
def broadcast (clients : γ → Client α) (caller : γ) (content : α) (c : γ) : Client α :=
  if c ≠ caller ∧ (clients c).join.inGroup then
    { clients c with inbox := (clients c).inbox ++ [.snapshotReceived content] }
  else clients c

def step (s : State γ α) : Event γ α → Option (State γ α)
  | .openSnapshot c => match (s.clients c).join with
    | .notCalled => some (s.set c { s.clients c with join := .called })
    | _ => none
  | .readSnapshot c => match (s.clients c).join with
    | .called => some (s.set c { s.clients c with join := .read s.snapshot })
    | _ => none
  | .addToGroup c => match (s.clients c).join with
    | .read snapshot => some (s.set c { s.clients c with join := .grouped snapshot })
    | _ => none
  | .sendJoined c => match (s.clients c).join with
    | .grouped snapshot => some (s.set c { s.clients c with
        join := .answered snapshot, inbox := (s.clients c).inbox ++ [.roomJoined snapshot] })
    | _ => none
  | .complete c => match (s.clients c).join with
    | .answered snapshot => some (s.set c { s.clients c with
        join := .completed snapshot, inbox := (s.clients c).inbox ++ [.completion] })
    | _ => none
  | .deliver c => match (s.clients c).inbox with
    | m :: rest => some (s.set c (receive { s.clients c with inbox := rest } m))
    | [] => none
  | .subscribe c =>
    if (s.clients c).opened ∧ (s.clients c).subscribed = false then
      some (s.set c { s.clients c with subscribed := true })
    else none
  | .settle c => match (s.clients c).initialSnapshot with
    | some snapshot =>
      if (s.clients c).subscribed ∧ (s.clients c).doc.ready = false then
        some (s.set c { s.clients c with doc := (s.clients c).doc.settle snapshot })
      else none
    | none => none
  | .write c content => match (s.clients c).join with
    | .notCalled => none
    | _ => some (s.set c { s.clients c with
        doc := (s.clients c).doc.write content, waiting := (s.clients c).waiting ++ [content] })
  | .invoke c => match (s.clients c).waiting with
    | content :: rest =>
      if (s.clients c).subscribed then
        some (s.set c { s.clients c with waiting := rest, requests := (s.clients c).requests ++ [content] })
      else none
    | [] => none
  | .store c => match (s.clients c).requests, (s.clients c).stored with
    | content :: rest, none => some { s.set c { s.clients c with requests := rest, stored := some content } with
        snapshot := some content }
    | _, _ => none
  | .broadcast c => match (s.clients c).stored with
    | some content => some { s with
        clients := broadcast (Function.update s.clients c { s.clients c with stored := none }) c content }
    | none => none

def Client.new : Client α where
  doc := {}
  join := .notCalled
  initialSnapshot := none
  opened := false
  subscribed := false
  waiting := []
  requests := []
  stored := none
  inbox := []

/-- The document as the server holds it, opened by nobody. -/
def init (snapshot : Option α) : State γ α := ⟨snapshot, fun _ => .new⟩

def Message.content : Message α → Option α
  | .snapshotReceived content => some content
  | _ => none

def Message.isCompletion : Message α → Bool
  | .completion => true
  | _ => false

/-- The writes in the inbox that a subscriber may still hear: nobody listens before the completion. -/
def Client.arriving (client : Client α) : List α :=
  (if client.opened then client.inbox else client.inbox.dropWhile (!·.isCompletion)).filterMap Message.content

def Client.busy (client : Client α) : Bool :=
  client.waiting ≠ [] || client.requests ≠ [] || client.stored.isSome

/-- The snapshot read for a client that hears nothing before its `JoinRoom` completes. -/
def JoinRoom.deaf : JoinRoom α → Option (Option α)
  | .read snapshot | .grouped snapshot | .answered snapshot => some snapshot
  | _ => none

/-- A client writes only when no write of another one is on its way to the server or to it. A snapshot is
broadcast only when it is what was read for the clients whose `JoinRoom` does not complete before, and
comes between the completion and the subscription only when it is what the client joined with. -/
def Uncrossed (s : State γ α) : Event γ α → Prop
  | .write c _ => (∀ c', c' ≠ c → (s.clients c').busy = false) ∧ (s.clients c).arriving = []
  | .broadcast c => ∀ content ∈ (s.clients c).stored, ∀ c', c' ≠ c →
    ∀ snapshot ∈ (s.clients c').join.deaf, snapshot = some content
  | .deliver c => (s.clients c).opened → (s.clients c).subscribed = false →
    ∀ m ∈ (s.clients c).inbox.head?, ∀ content ∈ m.content, (s.clients c).initialSnapshot = some (some content)
  | _ => True

instance [Fintype γ] (s : State γ α) (e : Event γ α) : Decidable (Uncrossed s e) := by
  cases e <;> unfold Uncrossed <;> infer_instance

def JoinRoom.snapshot : JoinRoom α → Option (Option α)
  | .read snapshot | .grouped snapshot | .answered snapshot | .completed snapshot => some snapshot
  | _ => none

/-- What the document will show when what is on its way to the client has come. -/
def Client.view (client : Client α) (snapshot : Option α) : Option α :=
  client.arriving.getLast?.or (client.doc.content snapshot)

/-- The messages of `JoinRoom` in the inbox. -/
def Client.answers (client : Client α) : List (Message α) := client.inbox.filter (·.content.isNone)

/-- `RoomJoined` comes before the completion. -/
def Client.Ordered (client : Client α) : Prop :=
  match client.join with
  | .notCalled | .called | .read _ | .grouped _ =>
    client.opened = false ∧ client.initialSnapshot = none ∧ client.answers = []
  | .answered snapshot => client.opened = false ∧
    (client.initialSnapshot = none ∧ client.answers = [.roomJoined snapshot] ∨
      client.initialSnapshot = some snapshot ∧ client.answers = [])
  | .completed snapshot =>
    client.opened = false ∧ client.initialSnapshot = none ∧ client.answers = [.roomJoined snapshot, .completion] ∨
    client.opened = false ∧ client.initialSnapshot = some snapshot ∧ client.answers = [.completion] ∨
    client.opened = true ∧ client.initialSnapshot = some snapshot ∧ client.answers = []

structure Client.OK (client : Client α) : Prop where
  ordered : client.Ordered
  subscribed : client.subscribed = true → client.opened = true
  ready : client.doc.ready = true → client.subscribed = true
  early : client.doc.touched = true → client.subscribed = false → client.waiting ≠ []
  busy : client.busy = true → client.doc.touched = true ∧ client.arriving = [] ∧
    client.doc.current = (client.stored.toList ++ client.requests ++ client.waiting).getLast?

structure Inv (s : State γ α) : Prop where
  clients : ∀ c, (s.clients c).OK
  stored : ∀ c content, (s.clients c).stored = some content → s.snapshot = some content
  one : ∀ c c', (s.clients c).busy = true → (s.clients c').busy = true → c = c'
  agree : (∀ c, (s.clients c).stored = none) → ∀ c, (s.clients c).busy = false →
    ∀ snapshot ∈ (s.clients c).join.snapshot, (s.clients c).view snapshot = s.snapshot

section
variable {s s' : State γ α} {client : Client α} {c : γ} {x : α} {m : Message α} {rest : List (Message α)}

theorem arriving_eq_nil (h : client.opened = false) (hanswers : .completion ∉ client.answers) :
    client.arriving = [] := by
  have hno : client.inbox.dropWhile (!·.isCompletion) = [] := by
    rw [List.dropWhile_eq_nil_iff]
    intro m hm
    cases m with
    | completion => exact absurd (List.mem_filter.2 ⟨hm, rfl⟩) hanswers
    | _ => rfl
  simp [Client.arriving, h, hno]

theorem arriving_append (h : client.opened = true ∨ .completion ∈ client.inbox) :
    Client.arriving { client with inbox := client.inbox ++ [.snapshotReceived x] } = client.arriving ++ [x] := by
  unfold Client.arriving
  by_cases hopened : client.opened = true
  · simp [hopened, Message.content]
  · have hmem := h.resolve_left hopened
    have hne : client.inbox.dropWhile (!·.isCompletion) ≠ [] := by
      rw [ne_eq, List.dropWhile_eq_nil_iff]
      intro hall
      simpa [Message.isCompletion] using hall _ hmem
    have happ : (client.inbox ++ [Message.snapshotReceived x]).dropWhile (!·.isCompletion) =
        client.inbox.dropWhile (!·.isCompletion) ++ [.snapshotReceived x] := by
      rw [List.dropWhile_append]
      simp [hne]
    rw [if_neg hopened, if_neg hopened, happ, List.filterMap_append]
    rfl

variable {snapshot : Option α}

theorem Client.OK.deaf (h : client.OK) (hdeaf : client.join.deaf = some snapshot) :
    client.opened = false ∧ .completion ∉ client.answers := by
  have hordered := h.ordered
  unfold Client.Ordered at hordered
  unfold JoinRoom.deaf at hdeaf
  cases hjoin : client.join with
  | notCalled | called | completed => simp [hjoin] at hdeaf
  | read | grouped =>
    rw [hjoin] at hordered
    simp [hordered]
  | answered =>
    rw [hjoin] at hordered
    obtain ⟨hopened, ⟨-, hanswers⟩ | ⟨-, hanswers⟩⟩ := hordered <;> simp [hopened, hanswers]

theorem Client.OK.hears (h : client.OK) (hjoin : client.join = .completed snapshot) :
    client.opened = true ∨ .completion ∈ client.inbox := by
  have hordered := h.ordered
  rw [Client.Ordered, hjoin] at hordered
  have hmem : .completion ∈ client.answers → .completion ∈ client.inbox := fun hm => (List.mem_filter.1 hm).1
  obtain ⟨-, -, hanswers⟩ | ⟨-, -, hanswers⟩ | ⟨hopened, -, -⟩ := hordered
  · exact .inr (hmem (by simp [hanswers]))
  · exact .inr (hmem (by simp [hanswers]))
  · exact .inl hopened

theorem Client.OK.untouched (h : client.OK) (hbusy : client.busy = false) (hsub : client.subscribed = false) :
    client.doc.touched = false := by
  by_contra ht
  have hwaiting := h.early (by simpa using ht) hsub
  simp [Client.busy, hwaiting] at hbusy

theorem arriving_receive (hinbox : client.inbox = m :: rest) (hm : m.content = none) :
    (receive { client with inbox := rest } m).arriving = client.arriving := by
  cases m with
  | roomJoined snapshot | completion =>
    cases hopened : client.opened <;> simp only [Client.arriving, receive, hinbox, hopened] <;> rfl
  | snapshotReceived content => simp [Message.content] at hm

theorem ordered_receive (h : client.Ordered) (hinbox : client.inbox = m :: rest) :
    (receive { client with inbox := rest } m).Ordered := by
  have hanswers : client.answers = if m.content.isNone then m :: rest.filter (·.content.isNone) else
      rest.filter (·.content.isNone) := by
    unfold Client.answers
    rw [hinbox, List.filter_cons]
  cases m with
  | roomJoined snapshot | completion =>
    unfold Client.Ordered at h ⊢
    cases hjoin : client.join <;> simp_all [receive, Client.answers, Message.content]
  | snapshotReceived content =>
    have hsame : client.answers = rest.filter (·.content.isNone) := hanswers
    have hclient : ∀ client' : Client α, client'.join = client.join → client'.opened = client.opened →
        client'.initialSnapshot = client.initialSnapshot → client'.answers = client.answers → client'.Ordered := by
      intro client' hj ho hi ha
      unfold Client.Ordered at h ⊢
      rw [hj, ho, hi, ha]
      exact h
    refine hclient _ ?_ ?_ ?_ ?_
    all_goals
      unfold receive
      dsimp only
      split <;> first | rfl | exact hsame.symm

theorem Client.OK.receive_answer (h : client.OK) (hinbox : client.inbox = m :: rest) (hm : m.content = none) :
    (receive { client with inbox := rest } m).OK := by
  have harriving := arriving_receive hinbox hm
  cases m with
  | roomJoined snapshot =>
    refine ⟨ordered_receive h.ordered hinbox, h.subscribed, h.ready, h.early, fun hbusy => ?_⟩
    rw [harriving]
    exact h.busy hbusy
  | completion =>
    refine ⟨ordered_receive h.ordered hinbox, fun _ => rfl, h.ready, h.early, fun hbusy => ?_⟩
    rw [harriving]
    exact h.busy hbusy
  | snapshotReceived content => simp [Message.content] at hm

theorem arriving_cons (hinbox : client.inbox = .snapshotReceived x :: rest) :
    client.arriving = (if client.opened then [x] else []) ++ Client.arriving { client with inbox := rest } := by
  cases hopened : client.opened <;> simp only [Client.arriving, hinbox, hopened] <;> rfl

theorem Client.OK.receive_snapshot (h : client.OK) (hinbox : client.inbox = .snapshotReceived x :: rest) :
    (receive { client with inbox := rest } (.snapshotReceived x)).OK := by
  have hordered := ordered_receive h.ordered hinbox
  have harriving := arriving_cons hinbox
  obtain hsub | hsub := Bool.eq_false_or_eq_true client.subscribed
  · have hclient : receive { client with inbox := rest } (.snapshotReceived x) =
        { client with inbox := rest, doc := client.doc.onRemote x } := by
      simp [receive, hsub]
    have hidle : client.busy ≠ true := by
      intro hbusy
      rw [(h.busy hbusy).2.1, h.subscribed hsub] at harriving
      simp at harriving
    rw [hclient] at hordered ⊢
    exact ⟨hordered, h.subscribed, h.ready, fun _ hno => by simp [hsub] at hno, fun hbusy => absurd hbusy hidle⟩
  · have hclient : receive { client with inbox := rest } (.snapshotReceived x) = { client with inbox := rest } := by
      simp [receive, hsub]
    rw [hclient] at hordered ⊢
    refine ⟨hordered, h.subscribed, h.ready, h.early, fun hbusy => ?_⟩
    obtain ⟨ht, harr, hcur⟩ := h.busy hbusy
    rw [harr] at harriving
    exact ⟨ht, (List.append_eq_nil_iff.1 harriving.symm).2, hcur⟩

theorem view_receive_snapshot (h : client.OK) (hinbox : client.inbox = .snapshotReceived x :: rest)
    (hbusy : client.busy = false)
    (hsame : client.opened = true → client.subscribed = false → snapshot = some x) :
    (receive { client with inbox := rest } (.snapshotReceived x)).view snapshot = client.view snapshot := by
  have harriving := arriving_cons hinbox
  obtain hsub | hsub := Bool.eq_false_or_eq_true client.subscribed
  · rw [if_pos (h.subscribed hsub)] at harriving
    have hclient : receive { client with inbox := rest } (.snapshotReceived x) =
        { client with inbox := rest, doc := client.doc.onRemote x } := by
      simp [receive, hsub]
    have hrest : Client.arriving { client with inbox := rest, doc := client.doc.onRemote x } =
        Client.arriving { client with inbox := rest } := rfl
    rw [hclient, Client.view, Client.view, harriving, hrest, List.getLast?_append]
    simp
  · have hclient : receive { client with inbox := rest } (.snapshotReceived x) = { client with inbox := rest } := by
      simp [receive, hsub]
    have htouched := h.untouched hbusy hsub
    have hready : client.doc.ready = false := by
      by_contra hr
      have := h.ready (by simpa using hr)
      simp [hsub] at this
    rw [hclient, Client.view, Client.view, harriving, List.getLast?_append]
    obtain hopened | hopened := Bool.eq_false_or_eq_true client.opened
    · simp [SharedSnapshotDocument.content_of_new htouched hready, hopened, hsame hopened hsub]
    · simp [hopened]

theorem Inv.set (h : Inv s) (hclient : client.OK) (hstored : client.stored = (s.clients c).stored)
    (hone : client.busy = true → ∀ c', c' ≠ c → (s.clients c').busy = false)
    (hagree : (∀ c, (s.clients c).stored = none) → client.busy = false →
      ∀ snapshot ∈ client.join.snapshot, client.view snapshot = s.snapshot) :
    Inv (s.set c client) := by
  have hother : ∀ c', c' ≠ c → (s.set c client).clients c' = s.clients c' :=
    fun c' hne => Function.update_of_ne hne _ _
  have hself : (s.set c client).clients c = client := Function.update_self ..
  have hpending : ∀ c', ((s.set c client).clients c').stored = (s.clients c').stored := by
    intro c'
    by_cases hc : c' = c
    · subst hc
      rw [hself, hstored]
    · rw [hother c' hc]
  constructor
  · intro c'
    by_cases hc : c' = c
    · subst hc
      rw [hself]
      exact hclient
    · rw [hother c' hc]
      exact h.clients c'
  · intro c' content hc'
    rw [hpending] at hc'
    exact h.stored c' content hc'
  · intro c₁ c₂ h₁ h₂
    by_cases hc₁ : c₁ = c
    · by_cases hc₂ : c₂ = c
      · rw [hc₁, hc₂]
      · rw [hc₁, hself] at h₁
        rw [hother c₂ hc₂, hone h₁ c₂ hc₂] at h₂
        cases h₂
    · rw [hother c₁ hc₁] at h₁
      by_cases hc₂ : c₂ = c
      · rw [hc₂, hself] at h₂
        rw [hone h₂ c₁ hc₁] at h₁
        cases h₁
      · rw [hother c₂ hc₂] at h₂
        exact h.one c₁ c₂ h₁ h₂
  · intro hnone c'
    simp only [hpending] at hnone
    by_cases hc : c' = c
    · subst hc
      rw [hself]
      exact hagree hnone
    · rw [hother c' hc]
      exact h.agree hnone c'

theorem Inv.quiet (h : Inv s) (hclient : client.OK) (hstored : client.stored = (s.clients c).stored)
    (hbusy : client.busy = (s.clients c).busy) (hjoin : client.join.snapshot = (s.clients c).join.snapshot)
    (hview : client.busy = false → ∀ snapshot ∈ client.join.snapshot,
      client.view snapshot = (s.clients c).view snapshot) : Inv (s.set c client) := by
  refine h.set hclient hstored (fun hb c' hne => ?_) fun hnone hidle snapshot hs => ?_
  · rw [hbusy] at hb
    by_contra hother
    exact hne (h.one c' c (by simpa using hother) hb)
  · rw [hview hidle snapshot hs]
    rw [hjoin] at hs
    rw [hbusy] at hidle
    exact h.agree hnone c hidle snapshot hs

theorem not_subscribed (h : client.OK) (hopened : client.opened = false) :
    client.subscribed = false ∧ client.doc.ready = false := by
  have hsub : client.subscribed ≠ true := fun hs => by simp [h.subscribed hs] at hopened
  exact ⟨by simpa using hsub, by simpa using fun hr => hsub (h.ready hr)⟩

theorem answers_append (join : JoinRoom α) (hm : m.content = none) :
    Client.answers { client with join := join, inbox := client.inbox ++ [m] } = client.answers ++ [m] := by
  simp [Client.answers, hm]

theorem Client.OK.answer (h : client.OK) (join : JoinRoom α) (m : Message α) (hm : m.content = none)
    (hopened : client.opened = false) (hno : .completion ∉ client.answers)
    (hordered : Client.Ordered { client with join := join, inbox := client.inbox ++ [m] }) :
    Client.OK { client with join := join, inbox := client.inbox ++ [m] } ∧
      Client.arriving { client with join := join, inbox := client.inbox ++ [m] } = client.arriving := by
  have hnone : ∀ m' ∈ client.inbox, m'.isCompletion = false := by
    intro m' hm'
    cases m' with
    | completion => exact absurd (List.mem_filter.2 ⟨hm', rfl⟩) hno
    | _ => rfl
  have harriving : Client.arriving { client with join := join, inbox := client.inbox ++ [m] } = client.arriving := by
    rw [arriving_eq_nil hopened hno]
    simp only [Client.arriving, hopened, Bool.false_eq_true, if_false]
    rw [List.dropWhile_append_of_pos (by simpa using hnone), List.dropWhile_cons]
    split <;> simp [hm]
  refine ⟨⟨hordered, h.subscribed, h.ready, h.early, fun hbusy => ?_⟩, harriving⟩
  rw [harriving]
  exact h.busy hbusy

theorem initialSnapshot_eq (h : client.OK) {initial : Option α} (hjoin : client.join.snapshot = some snapshot)
    (hinitial : client.initialSnapshot = some initial) : initial = snapshot := by
  have hordered := h.ordered
  unfold Client.Ordered at hordered
  cases hj : client.join with
  | completed snapshot' =>
    simp only [hj, JoinRoom.snapshot, Option.some.injEq] at hjoin
    grind
  | _ => simp_all [JoinRoom.snapshot]

section
variable (h : Inv s)
include h

theorem inv_open (hjoin : (s.clients c).join = .notCalled) :
    Inv (s.set c { s.clients c with join := .called }) := by
  have hc := h.clients c
  have hordered := hc.ordered
  rw [Client.Ordered, hjoin] at hordered
  exact h.quiet ⟨hordered, hc.subscribed, hc.ready, hc.early, hc.busy⟩ rfl rfl (by simp [JoinRoom.snapshot, hjoin])
    fun _ snapshot hs => by simp [JoinRoom.snapshot] at hs

theorem inv_read (hjoin : (s.clients c).join = .called) :
    Inv (s.set c { s.clients c with join := .read s.snapshot }) := by
  have hc := h.clients c
  have hordered := hc.ordered
  rw [Client.Ordered, hjoin] at hordered
  obtain ⟨hopened, hinitial, hanswers⟩ := hordered
  obtain ⟨hsub, hready⟩ := not_subscribed hc hopened
  refine h.set ⟨⟨hopened, hinitial, hanswers⟩, hc.subscribed, hc.ready, hc.early, hc.busy⟩ rfl ?_ ?_
  · intro hb c' hne
    by_contra hother
    exact hne (h.one c' c (by simpa using hother) hb)
  · intro _ hidle snapshot hs
    obtain rfl : s.snapshot = snapshot := by simpa [JoinRoom.snapshot] using hs
    have harriving : (s.clients c).arriving = [] := arriving_eq_nil hopened (by simp [hanswers])
    have htouched := hc.untouched hidle hsub
    calc Client.view { s.clients c with join := .read s.snapshot } s.snapshot
        = ((s.clients c).arriving.getLast?).or ((s.clients c).doc.content s.snapshot) := rfl
      _ = s.snapshot := by
          rw [harriving, SharedSnapshotDocument.content_of_new htouched hready]
          rfl

theorem inv_group (hjoin : (s.clients c).join = .read snapshot) :
    Inv (s.set c { s.clients c with join := .grouped snapshot }) := by
  have hc := h.clients c
  have hordered := hc.ordered
  rw [Client.Ordered, hjoin] at hordered
  exact h.quiet ⟨hordered, hc.subscribed, hc.ready, hc.early, hc.busy⟩ rfl rfl (by simp [JoinRoom.snapshot, hjoin])
    fun _ _ _ => rfl

theorem inv_sendJoined (hjoin : (s.clients c).join = .grouped snapshot) :
    Inv (s.set c { s.clients c with
      join := .answered snapshot, inbox := (s.clients c).inbox ++ [.roomJoined snapshot] }) := by
  have hc := h.clients c
  have hordered := hc.ordered
  rw [Client.Ordered, hjoin] at hordered
  obtain ⟨hopened, hinitial, hanswers⟩ := hordered
  obtain ⟨hok, harriving⟩ := hc.answer (.answered snapshot) (.roomJoined snapshot) rfl hopened
    (by simp [hanswers]) ⟨hopened, .inl ⟨hinitial, by rw [answers_append _ rfl, hanswers]; rfl⟩⟩
  refine h.quiet hok rfl rfl (by simp [JoinRoom.snapshot, hjoin]) fun _ snapshot' _ => ?_
  rw [Client.view, Client.view, harriving]

theorem inv_complete (hjoin : (s.clients c).join = .answered snapshot) :
    Inv (s.set c { s.clients c with
      join := .completed snapshot, inbox := (s.clients c).inbox ++ [.completion] }) := by
  have hc := h.clients c
  have hdeaf : (s.clients c).join.deaf = some snapshot := by simp [JoinRoom.deaf, hjoin]
  have hno := (hc.deaf hdeaf).2
  have hordered := hc.ordered
  rw [Client.Ordered, hjoin] at hordered
  obtain ⟨hopened, hcases⟩ := hordered
  have hnew : Client.Ordered { s.clients c with
      join := .completed snapshot, inbox := (s.clients c).inbox ++ [.completion] } := by
    obtain ⟨hinitial, hanswers⟩ | ⟨hinitial, hanswers⟩ := hcases
    · exact .inl ⟨hopened, hinitial, by rw [answers_append _ rfl, hanswers]; rfl⟩
    · exact .inr (.inl ⟨hopened, hinitial, by rw [answers_append _ rfl, hanswers]; rfl⟩)
  obtain ⟨hok, harriving⟩ := hc.answer (.completed snapshot) .completion rfl hopened hno hnew
  refine h.quiet hok rfl rfl (by simp [JoinRoom.snapshot, hjoin]) fun _ snapshot' _ => ?_
  rw [Client.view, Client.view, harriving]

theorem inv_deliver (hinbox : (s.clients c).inbox = m :: rest) (hok : Uncrossed s (.deliver c)) :
    Inv (s.set c (receive { s.clients c with inbox := rest } m)) := by
  have hc := h.clients c
  have hfields : ∀ client : Client α, (receive client m).stored = client.stored ∧
      (receive client m).busy = client.busy ∧ (receive client m).join = client.join := by
    intro client
    unfold receive
    cases m with
    | snapshotReceived content => dsimp only; split <;> exact ⟨rfl, rfl, rfl⟩
    | _ => exact ⟨rfl, rfl, rfl⟩
  obtain ⟨hstored, hbusy, hjoin⟩ := hfields { s.clients c with inbox := rest }
  have hjoined : (receive { s.clients c with inbox := rest } m).join = (s.clients c).join := hjoin
  have hbusied : (receive { s.clients c with inbox := rest } m).busy = (s.clients c).busy := hbusy
  cases hm : m.content with
  | none =>
    refine h.quiet (hc.receive_answer hinbox hm) hstored hbusy (by rw [hjoined]) fun _ snapshot _ => ?_
    rw [Client.view, Client.view, arriving_receive hinbox hm]
    cases m with
    | snapshotReceived content => simp [Message.content] at hm
    | _ => rfl
  | some x =>
    obtain rfl : m = .snapshotReceived x := by
      cases m <;> simp_all [Message.content]
    refine h.quiet (hc.receive_snapshot hinbox) hstored hbusy (by rw [hjoined]) fun hidle snapshot hs => ?_
    refine view_receive_snapshot hc hinbox (hbusied ▸ hidle) fun hopened hsub => ?_
    have hinitial := hok hopened hsub (.snapshotReceived x) (by simp [hinbox]) x rfl
    rw [hjoined] at hs
    exact (initialSnapshot_eq hc hs hinitial).symm

theorem inv_subscribe (hopened : (s.clients c).opened = true) :
    Inv (s.set c { s.clients c with subscribed := true }) := by
  have hc := h.clients c
  exact h.quiet ⟨hc.ordered, fun _ => hopened, fun _ => rfl, nofun, hc.busy⟩ rfl rfl rfl fun _ _ _ => rfl

theorem inv_settle {initial : Option α} (hinitial : (s.clients c).initialSnapshot = some initial)
    (hsub : (s.clients c).subscribed = true) (hready : (s.clients c).doc.ready = false) :
    Inv (s.set c { s.clients c with doc := (s.clients c).doc.settle initial }) := by
  have hc := h.clients c
  refine h.quiet ⟨hc.ordered, hc.subscribed, fun _ => hsub, hc.early, fun hbusy => ?_⟩ rfl rfl rfl
    fun _ snapshot hs => ?_
  · obtain ⟨ht, harr, hcur⟩ := hc.busy hbusy
    refine ⟨ht, harr, ?_⟩
    simp only [SharedSnapshotDocument.settle, ht, if_true]
    exact hcur
  · obtain rfl := initialSnapshot_eq hc hs hinitial
    calc Client.view { s.clients c with doc := (s.clients c).doc.settle initial } initial
        = ((s.clients c).arriving.getLast?).or (((s.clients c).doc.settle initial).content initial) := rfl
      _ = (s.clients c).view initial := by
          rw [SharedSnapshotDocument.content_settle hready]
          rfl

theorem inv_write (hfree : ∀ c', c' ≠ c → (s.clients c').busy = false)
    (harr : (s.clients c).arriving = []) : Inv (s.set c { s.clients c with
      doc := (s.clients c).doc.write x, waiting := (s.clients c).waiting ++ [x] }) := by
  have hc := h.clients c
  refine h.set ⟨hc.ordered, hc.subscribed, hc.ready, fun _ _ => by simp, fun _ => ⟨rfl, harr, ?_⟩⟩ rfl
    (fun _ => hfree) fun _ hidle => ?_
  · rw [← List.append_assoc, List.getLast?_append]
    rfl
  · simp [Client.busy] at hidle

theorem inv_invoke {waiting : List α} (hwaiting : (s.clients c).waiting = x :: waiting)
    (hsub : (s.clients c).subscribed = true) :
    Inv (s.set c { s.clients c with waiting := waiting, requests := (s.clients c).requests ++ [x] }) := by
  have hc := h.clients c
  have hbusy : (s.clients c).busy = true := by simp [Client.busy, hwaiting]
  refine h.quiet ⟨hc.ordered, hc.subscribed, hc.ready, fun _ hno => ?_, fun _ => ?_⟩ rfl ?_ rfl fun hidle => ?_
  · simp [hsub] at hno
  · obtain ⟨ht, harr, hcur⟩ := hc.busy hbusy
    refine ⟨ht, harr, ?_⟩
    rw [hwaiting] at hcur
    simpa using hcur
  · rw [hbusy]
    simp [Client.busy]
  · simp [Client.busy] at hidle

theorem inv_store {requests : List α} (hrequests : (s.clients c).requests = x :: requests)
    (hstored : (s.clients c).stored = none) :
    Inv { s.set c { s.clients c with requests := requests, stored := some x } with snapshot := some x } := by
  have hc := h.clients c
  have hbusy : (s.clients c).busy = true := by simp [Client.busy, hrequests]
  have hother : ∀ c', c' ≠ c → Function.update s.clients c
      { s.clients c with requests := requests, stored := some x } c' = s.clients c' :=
    fun c' hne => Function.update_of_ne hne _ _
  have hidle : ∀ c', c' ≠ c → (s.clients c').busy = false := by
    intro c' hne
    by_contra hb
    exact hne (h.one c' c (by simpa using hb) hbusy)
  have hone : ∀ c', (Function.update s.clients c
      { s.clients c with requests := requests, stored := some x } c').busy = true → c' = c := by
    intro c' hb
    by_contra hne
    rw [hother c' hne, hidle c' hne] at hb
    cases hb
  constructor
  · intro c'
    dsimp only [State.set]
    by_cases hcc : c' = c
    · subst hcc
      rw [Function.update_self]
      refine ⟨hc.ordered, hc.subscribed, hc.ready, hc.early, fun _ => ?_⟩
      obtain ⟨ht, harr, hcur⟩ := hc.busy hbusy
      refine ⟨ht, harr, ?_⟩
      rw [hrequests, hstored] at hcur
      simpa using hcur
    · rw [hother c' hcc]
      exact h.clients c'
  · intro c' content hcontent
    dsimp only [State.set] at hcontent ⊢
    by_cases hcc : c' = c
    · subst hcc
      rw [Function.update_self] at hcontent
      exact hcontent
    · rw [hother c' hcc] at hcontent
      have hb : (s.clients c').busy = true := by simp [Client.busy, hcontent]
      rw [hidle c' hcc] at hb
      cases hb
  · intro c₁ c₂ h₁ h₂
    rw [hone c₁ h₁, hone c₂ h₂]
  · intro hnone
    have hself := hnone c
    simp [State.set] at hself

end

theorem Client.OK.hear (h : client.OK) (hidle : client.busy = false) :
    Client.OK { client with inbox := client.inbox ++ [.snapshotReceived x] } := by
  have hanswers : Client.answers { client with inbox := client.inbox ++ [.snapshotReceived x] } = client.answers := by
    simp [Client.answers, Message.content]
  refine ⟨?_, h.subscribed, h.ready, h.early, fun hbusy => ?_⟩
  · have hordered := h.ordered
    unfold Client.Ordered at hordered ⊢
    rw [hanswers]
    exact hordered
  · have hb : client.busy = true := hbusy
    rw [hidle] at hb
    cases hb

theorem view_deaf (h : client.OK) (hidle : client.busy = false)
    (hdeaf : client.join.deaf = some snapshot) : client.view snapshot = snapshot := by
  obtain ⟨hopened, hno⟩ := h.deaf hdeaf
  obtain ⟨hsub, hready⟩ := not_subscribed h hopened
  rw [Client.view, arriving_eq_nil hopened hno,
    SharedSnapshotDocument.content_of_new (h.untouched hidle hsub) hready]
  rfl

theorem inv_broadcast (h : Inv s) (hstored : (s.clients c).stored = some x) (hok : Uncrossed s (.broadcast c)) :
    Inv { s with clients := broadcast (Function.update s.clients c { s.clients c with stored := none }) c x } := by
  have hc := h.clients c
  have hbusy : (s.clients c).busy = true := by simp [Client.busy, hstored]
  have hsnapshot := h.stored c x hstored
  have hidle : ∀ c', c' ≠ c → (s.clients c').busy = false := by
    intro c' hne
    by_contra hb
    exact hne (h.one c' c (by simpa using hb) hbusy)
  have hunstored : ∀ c', c' ≠ c → (s.clients c').stored = none := by
    intro c' hne
    have hb := hidle c' hne
    simp only [Client.busy, Bool.or_eq_false_iff, Option.isSome_eq_false_iff] at hb
    simpa using hb.2
  have hself : broadcast (Function.update s.clients c { s.clients c with stored := none }) c x c =
      { s.clients c with stored := none } := by
    simp [broadcast]
  have hother : ∀ c', c' ≠ c →
      broadcast (Function.update s.clients c { s.clients c with stored := none }) c x c' =
      if (s.clients c').join.inGroup then
        { s.clients c' with inbox := (s.clients c').inbox ++ [.snapshotReceived x] }
      else s.clients c' := by
    intro c' hne
    simp [broadcast, hne]
  have hone : ∀ c', (broadcast (Function.update s.clients c
      { s.clients c with stored := none }) c x c').busy = true → c' = c := by
    intro c' hb
    by_contra hne
    rw [hother c' hne] at hb
    have hb' : (s.clients c').busy = true := by
      split at hb <;> exact hb
    rw [hidle c' hne] at hb'
    cases hb'
  obtain ⟨ht, harr, hcur⟩ := hc.busy hbusy
  rw [hstored] at hcur
  constructor
  · intro c'
    dsimp only
    by_cases hcc : c' = c
    · subst hcc
      rw [hself]
      refine ⟨hc.ordered, hc.subscribed, hc.ready, hc.early, fun hb => ⟨ht, harr, hcur.trans ?_⟩⟩
      -- There is a later write, so the last one is still the last.
      have hmore : (s.clients c').requests ++ (s.clients c').waiting ≠ [] := by
        intro hnil
        obtain ⟨hrequests, hwaiting⟩ := List.append_eq_nil_iff.1 hnil
        simp [Client.busy, hrequests, hwaiting] at hb
      rw [Option.toList_some, List.append_assoc, List.getLast?_append_of_ne_nil _ hmore]
      rfl
    · rw [hother c' hcc]
      split
      · exact (h.clients c').hear (hidle c' hcc)
      · exact h.clients c'
  · intro c' content hcontent
    dsimp only at hcontent
    by_cases hcc : c' = c
    · subst hcc
      rw [hself] at hcontent
      cases hcontent
    · rw [hother c' hcc] at hcontent
      have hnone := hunstored c' hcc
      split at hcontent <;> rw [hnone] at hcontent <;> cases hcontent
  · intro c₁ c₂ h₁ h₂
    rw [hone c₁ h₁, hone c₂ h₂]
  · intro _ c' hb snapshot hs
    dsimp only at hb hs ⊢
    by_cases hcc : c' = c
    · subst hcc
      rw [hself] at hb hs ⊢
      have hlast : (s.clients c').requests = [] ∧ (s.clients c').waiting = [] := by
        simpa [Client.busy, and_comm] using hb
      rw [hlast.1, hlast.2] at hcur
      have hcurrent : (s.clients c').doc.current = some x := by simpa using hcur
      have hview : Client.view { s.clients c' with stored := none } snapshot =
          ((s.clients c').arriving.getLast?).or ((s.clients c').doc.content snapshot) := rfl
      rw [hview, harr, SharedSnapshotDocument.content_of_touched ht, hcurrent, hsnapshot]
      rfl
    · rw [hother c' hcc] at hb hs ⊢
      have hjoin : snapshot ∈ (s.clients c').join.snapshot := by
        split at hs <;> exact hs
      have hc' := h.clients c'
      cases hj : (s.clients c').join with
      | notCalled | called => simp [hj, JoinRoom.snapshot] at hjoin
      | read snapshot' =>
        obtain rfl : snapshot' = snapshot := by simpa [hj, JoinRoom.snapshot] using hjoin
        have hdeaf : (s.clients c').join.deaf = some snapshot' := by simp [hj, JoinRoom.deaf]
        rw [if_neg (by simp [JoinRoom.inGroup]), view_deaf hc' (hidle c' hcc) hdeaf, hsnapshot]
        exact hok x hstored c' hcc snapshot' hdeaf
      | grouped snapshot' | answered snapshot' =>
        obtain rfl : snapshot' = snapshot := by simpa [hj, JoinRoom.snapshot] using hjoin
        have hdeaf : (s.clients c').join.deaf = some snapshot' := by simp [hj, JoinRoom.deaf]
        rw [if_pos (by simp [JoinRoom.inGroup]), view_deaf (hc'.hear (hidle c' hcc)) (hidle c' hcc) hdeaf, hsnapshot]
        exact hok x hstored c' hcc snapshot' hdeaf
      | completed snapshot' =>
        rw [if_pos (by simp [JoinRoom.inGroup]), Client.view, arriving_append (hc'.hears hj),
          List.getLast?_append, hsnapshot]
        rfl

theorem inv_step (h : Inv s) (e : Event γ α) (hok : Uncrossed s e) (hs : step s e = some s') : Inv s' := by
  cases e with
  | openSnapshot c =>
    dsimp only [step] at hs
    split at hs
    · rename_i hjoin
      obtain rfl := Option.some.inj hs
      exact inv_open h hjoin
    · cases hs
  | readSnapshot c =>
    dsimp only [step] at hs
    split at hs
    · rename_i hjoin
      obtain rfl := Option.some.inj hs
      exact inv_read h hjoin
    · cases hs
  | addToGroup c =>
    dsimp only [step] at hs
    split at hs
    · rename_i snapshot hjoin
      obtain rfl := Option.some.inj hs
      exact inv_group h hjoin
    · cases hs
  | sendJoined c =>
    dsimp only [step] at hs
    split at hs
    · rename_i snapshot hjoin
      obtain rfl := Option.some.inj hs
      exact inv_sendJoined h hjoin
    · cases hs
  | complete c =>
    dsimp only [step] at hs
    split at hs
    · rename_i snapshot hjoin
      obtain rfl := Option.some.inj hs
      exact inv_complete h hjoin
    · cases hs
  | deliver c =>
    dsimp only [step] at hs
    split at hs
    · rename_i m rest hinbox
      obtain rfl := Option.some.inj hs
      exact inv_deliver h hinbox hok
    · cases hs
  | subscribe c =>
    dsimp only [step] at hs
    obtain ⟨hc, rfl⟩ := Option.ite_some_none_eq_some.1 hs
    exact inv_subscribe h hc.1
  | settle c =>
    dsimp only [step] at hs
    split at hs
    · rename_i initial hinitial
      obtain ⟨hc, rfl⟩ := Option.ite_some_none_eq_some.1 hs
      exact inv_settle h hinitial hc.1 hc.2
    · cases hs
  | write c content =>
    dsimp only [step] at hs
    split at hs
    · cases hs
    · obtain rfl := Option.some.inj hs
      exact inv_write h hok.1 hok.2
  | invoke c =>
    dsimp only [step] at hs
    split at hs
    · rename_i content rest hwaiting
      obtain ⟨hsub, rfl⟩ := Option.ite_some_none_eq_some.1 hs
      exact inv_invoke h hwaiting hsub
    · cases hs
  | store c =>
    dsimp only [step] at hs
    split at hs
    · rename_i content rest hrequests hstored
      obtain rfl := Option.some.inj hs
      exact inv_store h hrequests hstored
    · cases hs
  | broadcast c =>
    dsimp only [step] at hs
    split at hs
    · rename_i content hstored
      obtain rfl := Option.some.inj hs
      exact inv_broadcast h hstored hok
    · cases hs

theorem inv_init (snapshot : Option α) : Inv (init snapshot : State γ α) := by
  refine ⟨fun c => ⟨⟨rfl, rfl, rfl⟩, nofun, nofun, nofun, nofun⟩, nofun, nofun, ?_⟩
  intro _ c _ snapshot hs
  cases hs

/-- Every `JoinRoom` is answered, every message delivered, every write stored and broadcast, and what
the documents do then is done. -/
structure Settled (s : State γ α) : Prop where
  joined : ∀ c, (s.clients c).join = .notCalled ∨ ∃ snapshot, (s.clients c).join = .completed snapshot
  inbox : ∀ c, (s.clients c).inbox = []
  idle : ∀ c, (s.clients c).busy = false
  ready : ∀ c, (s.clients c).join ≠ .notCalled → (s.clients c).doc.ready = true

/-- When writes do not cross each other or a `JoinRoom`, and everything is delivered, every open
document shows what the server stored last. -/
theorem rooms_converge (snapshot : Option α) (hrun : Run step Uncrossed (init snapshot : State γ α) s)
    (hsettled : Settled s) : ∀ c, (s.clients c).join ≠ .notCalled → (s.clients c).doc.current = s.snapshot := by
  have h : Inv s := hrun.invariant Inv (inv_init snapshot) fun s e s' h hok hs => inv_step h e hok hs
  intro c hopen
  obtain ⟨joined, hjoin⟩ := (hsettled.joined c).resolve_left hopen
  have hstored : ∀ c', (s.clients c').stored = none := by
    intro c'
    have hb := hsettled.idle c'
    simp only [Client.busy, Bool.or_eq_false_iff, Option.isSome_eq_false_iff] at hb
    simpa using hb.2
  have hview := h.agree hstored c (hsettled.idle c) joined (by simp [hjoin, JoinRoom.snapshot])
  have harriving : (s.clients c).arriving = [] := by
    simp [Client.arriving, hsettled.inbox c]
  rw [Client.view, harriving, SharedSnapshotDocument.content_of_ready (hsettled.ready c hopen)] at hview
  exact hview

end

/-- A client opens the document. -/
def opens (c : Bool) : List (Event Bool Nat) :=
  [.openSnapshot c, .readSnapshot c, .addToGroup c, .sendJoined c, .complete c, .deliver c, .deliver c, .subscribe c,
    .settle c]

/-- One client writes, another one writes once it has received that. -/
theorem rooms_converge_in_turn : ∃ s : State Bool Nat, Run step Uncrossed (init none) s ∧ s.snapshot = some 2 ∧
    ∀ c, (s.clients c).doc.current = some 2 := by
  have hrun : ∃ s : State Bool Nat, exec step Uncrossed (init none) (opens false ++ [.write false 1, .invoke false,
      .store false, .broadcast false] ++ opens true ++ [.write true 2, .invoke true, .store true, .broadcast true,
      .deliver false]) = some s ∧ s.snapshot = some 2 ∧
      (∀ c, ∃ snapshot, (s.clients c).join = .completed snapshot) ∧ (∀ c, (s.clients c).inbox = []) ∧
      (∀ c, (s.clients c).busy = false) ∧ ∀ c, (s.clients c).doc.ready = true := by
    refine ⟨_, rfl, rfl, ?_, ?_, ?_, ?_⟩
    · rintro (_ | _)
      · exact ⟨none, rfl⟩
      · exact ⟨some 1, rfl⟩
    all_goals
      rintro (_ | _) <;> rfl
  obtain ⟨s, hs, hsnapshot, hjoin, hinbox, hidle, hready⟩ := hrun
  have h := run_of_exec _ _ s hs
  have hall := rooms_converge none h ⟨fun c => .inr (hjoin c), hinbox, hidle, fun c _ => hready c⟩
  refine ⟨s, h, hsnapshot, fun c => (hall c ?_).trans hsnapshot⟩
  obtain ⟨snapshot, hc⟩ := hjoin c
  rw [hc]
  exact nofun

/-- Two clients write at once: each ends with what the other one wrote, though the server has only one
of the two. -/
theorem writes_cross : ∃ s : State Bool Nat, Run step (fun _ _ => True) (init none) s ∧ Settled s ∧
    s.snapshot = some 2 ∧ (s.clients true).join ≠ .notCalled ∧ (s.clients true).doc.current = some 1 := by
  have hrun : ∃ s : State Bool Nat, exec step (fun _ _ => True) (init none) (opens false ++ opens true ++
      [.write false 1, .invoke false, .write true 2, .invoke true, .store false, .broadcast false, .store true,
        .broadcast true, .deliver false, .deliver true]) = some s ∧
      (∀ c, (s.clients c).join = .completed none) ∧ (∀ c, (s.clients c).inbox = []) ∧
      (∀ c, (s.clients c).busy = false) ∧ (∀ c, (s.clients c).doc.ready = true) ∧ s.snapshot = some 2 ∧
      (s.clients true).doc.current = some 1 := by
    refine ⟨_, rfl, ?_, ?_, ?_, ?_, rfl, rfl⟩
    all_goals
      rintro (_ | _) <;> rfl
  obtain ⟨s, hs, hjoin, hinbox, hidle, hready, hsnapshot, hcurrent⟩ := hrun
  refine ⟨s, run_of_exec _ _ s hs, ⟨fun c => .inr ⟨none, hjoin c⟩, hinbox, hidle, fun c _ => hready c⟩,
    hsnapshot, ?_, hcurrent⟩
  rw [hjoin]
  exact nofun

end
end Savoire.SnapshotRoom
