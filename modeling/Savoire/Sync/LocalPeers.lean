import Mathlib.Data.List.Pairwise
import Mathlib.Data.Prod.Lex
import Mathlib.Logic.Function.Basic
import Savoire.Library.Transition
import Savoire.Sync.SnapshotDocument

/-! The snapshot documents of sessions that share a bus, without a server: each write carries a stamp, a
peer keeps the newest snapshot it has heard of each document, and asks the others when it opens one. The
bus delivers in any order. `writes`, `received`, `asked` and `arrivedAt` only record what happened. -/
set_option linter.unusedSectionVars false

namespace Savoire.LocalPeers
open Transition

structure SnapshotStamp (π : Type) where
  clock : Nat
  peer : π
  deriving DecidableEq

structure StoredSnapshot (π α : Type) where
  content : α
  stamp : SnapshotStamp π

structure OpenDocument (α : Type) where
  refs : Nat
  doc : SharedSnapshotDocument α
  initial : Option (Option α)

structure Peer (π δ α : Type) where
  snapshotClock : Nat
  snapshotStore : δ → Option (StoredSnapshot π α)
  docs : δ → Option (OpenDocument α)

inductive Payload (π δ α : Type)
  | snapshotOpen (docId : δ)
  | snapshot (docId : δ) (stored : StoredSnapshot π α)

structure Message (π δ α : Type) where
  sender : π
  payload : Payload π δ α

structure State (π δ α : Type) where
  peers : List π
  peer : π → Peer π δ α
  /-- Messages on their way, each to one peer. -/
  bus : List (π × Message π δ α)
  writes : List (δ × StoredSnapshot π α)
  received : π → List (SnapshotStamp π)
  asked : π → δ → Bool
  arrivedAt : π → Nat

inductive Event (π δ α : Type)
  | arrive (p : π)
  | openSnapshot (p : π) (docId : δ)
  | closeSnapshot (p : π) (docId : δ)
  | readInitial (p : π) (docId : δ)
  | settle (p : π) (docId : δ)
  | write (p : π) (docId : δ) (content : α)
  | deliver (k : Nat)

section
variable {π δ α : Type} [LinearOrder π] [DecidableEq δ]

def newer (a : SnapshotStamp π) : Option (SnapshotStamp π) → Bool
  | none => true
  | some b => if a.clock ≠ b.clock then a.clock > b.clock else a.peer > b.peer

def Peer.stored (peer : Peer π δ α) (docId : δ) : Option α := (peer.snapshotStore docId).map (·.content)

def Peer.setDoc (peer : Peer π δ α) (docId : δ) (doc : Option (OpenDocument α)) : Peer π δ α :=
  { peer with docs := Function.update peer.docs docId doc }

def Peer.receiveSnapshot (peer : Peer π δ α) (docId : δ) (incoming : StoredSnapshot π α) : Peer π δ α :=
  let peer := { peer with snapshotClock := max peer.snapshotClock incoming.stamp.clock }
  if newer incoming.stamp ((peer.snapshotStore docId).map (·.stamp)) then
    { peer with
      snapshotStore := Function.update peer.snapshotStore docId (some incoming)
      docs := Function.update peer.docs docId
        ((peer.docs docId).map fun o => { o with doc := o.doc.onRemote incoming.content }) }
  else peer

def State.set (s : State π δ α) (p : π) (peer : Peer π δ α) : State π δ α :=
  { s with peer := Function.update s.peer p peer }

/-- What `bus.post` puts on the way: a peer ignores what it has sent itself. -/
def State.post (s : State π δ α) (sender : π) (payload : Payload π δ α) : List (π × Message π δ α) :=
  (s.peers.filter (· ≠ sender)).map fun q => (q, ⟨sender, payload⟩)

def receive (s : State π δ α) (q : π) (m : Message π δ α) : State π δ α :=
  match m.payload with
  | .snapshotOpen docId => match (s.peer q).snapshotStore docId with
    | some stored => { s with bus := s.bus ++ [(m.sender, ⟨q, .snapshot docId stored⟩)] }
    | none => s
  | .snapshot docId stored => { s.set q ((s.peer q).receiveSnapshot docId stored) with
      received := Function.update s.received q (s.received q ++ [stored.stamp]) }

def step (s : State π δ α) : Event π δ α → Option (State π δ α)
  | .arrive p =>
    if p ∈ s.peers then none
    else some { s with
      peers := s.peers ++ [p], arrivedAt := Function.update s.arrivedAt p s.writes.length }
  | .openSnapshot p docId =>
    if p ∈ s.peers then match (s.peer p).docs docId with
      | some o => some (s.set p ((s.peer p).setDoc docId (some { o with refs := o.refs + 1 })))
      | none => some { s.set p ((s.peer p).setDoc docId (some ⟨1, {}, none⟩)) with
          bus := s.bus ++ s.post p (.snapshotOpen docId)
          asked := Function.update s.asked p (Function.update (s.asked p) docId true) }
    else none
  | .closeSnapshot p docId => match (s.peer p).docs docId with
    | some o => some (s.set p ((s.peer p).setDoc docId
        (if o.refs - 1 > 0 then some { o with refs := o.refs - 1 } else none)))
    | none => none
  | .readInitial p docId => match (s.peer p).docs docId with
    | some o => match o.initial with
      | none => some (s.set p ((s.peer p).setDoc docId (some { o with initial := some ((s.peer p).stored docId) })))
      | some _ => none
    | none => none
  | .settle p docId => match (s.peer p).docs docId with
    | some o => match o.initial, o.doc.ready with
      | some initial, false => some (s.set p ((s.peer p).setDoc docId (some { o with doc := o.doc.settle initial })))
      | _, _ => none
    | none => none
  | .write p docId content => match (s.peer p).docs docId with
    | some o =>
      let stored : StoredSnapshot π α := ⟨content, ⟨(s.peer p).snapshotClock + 1, p⟩⟩
      some { s.set p { snapshotClock := (s.peer p).snapshotClock + 1
                       snapshotStore := Function.update (s.peer p).snapshotStore docId (some stored)
                       docs := Function.update (s.peer p).docs docId (some { o with doc := o.doc.write content }) } with
        bus := s.bus ++ s.post p (.snapshot docId stored), writes := s.writes ++ [(docId, stored)] }
    | none => none
  | .deliver k => match s.bus[k]? with
    | some (q, m) => some (receive { s with bus := s.bus.eraseIdx k } q m)
    | none => none

def init : State π δ α where
  peers := []
  peer := fun _ => ⟨0, fun _ => none, fun _ => none⟩
  bus := []
  writes := []
  received := fun _ => []
  asked := fun _ _ => false
  arrivedAt := fun _ => 0

def SnapshotStamp.key (stamp : SnapshotStamp π) : ℕ ×ₗ π := toLex (stamp.clock, stamp.peer)

theorem SnapshotStamp.key_injective : Function.Injective (SnapshotStamp.key (π := π)) := by
  intro a b h
  have hpair : (a.clock, a.peer) = (b.clock, b.peer) := congrArg ofLex h
  cases a
  simp_all

instance : LinearOrder (SnapshotStamp π) := LinearOrder.lift' SnapshotStamp.key SnapshotStamp.key_injective

section
variable {s s' : State π δ α} {peer : Peer π δ α} {p q : π} {docId docId' : δ} {x : α}
  {a b t : SnapshotStamp π} {st incoming : StoredSnapshot π α} {m : Message π δ α} {k : Nat}

theorem stamp_lt_iff : a < b ↔ a.clock < b.clock ∨ a.clock = b.clock ∧ a.peer < b.peer :=
  Prod.Lex.toLex_lt_toLex

theorem newer_iff {b : Option (SnapshotStamp π)} : newer a b = true ↔ ∀ b' ∈ b, b' < a := by
  cases b with
  | none => simp [newer]
  | some b =>
    simp only [newer, Option.mem_def, Option.some.injEq, forall_eq', stamp_lt_iff]
    split
    · simp only [gt_iff_lt, decide_eq_true_eq]
      omega
    · have hclock : a.clock = b.clock := by omega
      simp [hclock]

def Peer.Holds (peer : Peer π δ α) (docId : δ) (t : SnapshotStamp π) : Prop :=
  ∃ st, peer.snapshotStore docId = some st ∧ t ≤ st.stamp

/-- An open document shows what is stored, from its first write or the reading of its initial state on. -/
def Peer.Shows (peer : Peer π δ α) : Prop := ∀ docId o, peer.docs docId = some o →
  (o.doc.touched = true ∨ o.doc.ready = true → o.doc.current = peer.stored docId) ∧
  (o.doc.touched = false → ∀ initial ∈ o.initial, initial = peer.stored docId)

theorem snapshotStore_receive : (peer.receiveSnapshot docId incoming).snapshotStore docId' =
    if docId' = docId ∧ newer incoming.stamp ((peer.snapshotStore docId).map (·.stamp)) then some incoming
    else peer.snapshotStore docId' := by
  unfold Peer.receiveSnapshot
  dsimp only
  split
  · rename_i hnew
    by_cases hd : docId' = docId
    · subst hd
      simp [hnew]
    · simp [hd]
  · rename_i hnew
    simp [hnew]

theorem snapshotClock_receive : (peer.receiveSnapshot docId incoming).snapshotClock =
    max peer.snapshotClock incoming.stamp.clock := by
  unfold Peer.receiveSnapshot
  dsimp only
  split <;> rfl

theorem Peer.Holds.receive (h : peer.Holds docId' t) : (peer.receiveSnapshot docId incoming).Holds docId' t := by
  obtain ⟨st, hst, ht⟩ := h
  by_cases hnew : docId' = docId ∧ newer incoming.stamp ((peer.snapshotStore docId).map (·.stamp))
  · refine ⟨incoming, by rw [snapshotStore_receive, if_pos hnew], ht.trans ?_⟩
    obtain ⟨rfl, hnew⟩ := hnew
    exact (newer_iff.1 hnew st.stamp (by simp [hst])).le
  · exact ⟨st, by rw [snapshotStore_receive, if_neg hnew, hst], ht⟩

theorem holds_received : (peer.receiveSnapshot docId incoming).Holds docId incoming.stamp := by
  by_cases hnew : newer incoming.stamp ((peer.snapshotStore docId).map (·.stamp)) = true
  · exact ⟨incoming, by rw [snapshotStore_receive, if_pos ⟨rfl, hnew⟩], le_rfl⟩
  · rw [newer_iff] at hnew
    push Not at hnew
    obtain ⟨t, ht, hle⟩ := hnew
    obtain ⟨st, hst, rfl⟩ := Option.map_eq_some_iff.1 ht
    refine Peer.Holds.receive ⟨st, hst, hle⟩

theorem Peer.Shows.setDoc (h : peer.Shows) {o : OpenDocument α}
    (hcurrent : o.doc.touched = true ∨ o.doc.ready = true → o.doc.current = peer.stored docId)
    (hinitial : o.doc.touched = false → ∀ initial ∈ o.initial, initial = peer.stored docId) :
    (peer.setDoc docId (some o)).Shows := by
  intro docId' o' ho
  by_cases hd : docId' = docId
  · subst hd
    obtain rfl : o = o' := by simpa [Peer.setDoc] using ho
    exact ⟨hcurrent, hinitial⟩
  · exact h docId' o' (by simpa [Peer.setDoc, Function.update_of_ne hd] using ho)

theorem Peer.Shows.receive (h : peer.Shows) : (peer.receiveSnapshot docId incoming).Shows := by
  intro docId' o ho
  unfold Peer.stored
  rw [snapshotStore_receive]
  unfold Peer.receiveSnapshot at ho
  dsimp only at ho
  split at ho
  · rename_i hnew
    by_cases hd : docId' = docId
    · subst hd
      rw [if_pos ⟨rfl, hnew⟩]
      dsimp only at ho
      rw [Function.update_self] at ho
      obtain ⟨o', -, rfl⟩ := Option.map_eq_some_iff.1 ho
      exact ⟨fun _ => rfl, nofun⟩
    · rw [if_neg (fun hc => hd hc.1)]
      exact h docId' o (by simpa [Function.update_of_ne hd] using ho)
  · rename_i hnew
    rw [if_neg (fun hc => hnew hc.2)]
    exact h docId' o ho

/-- The peer stores the stamp or a greater one, is being sent one, or is asking a peer that stores one. -/
def Informed (s : State π δ α) (p : π) (docId : δ) (t : SnapshotStamp π) : Prop :=
  (s.peer p).Holds docId t ∨ (∃ sender st, (p, ⟨sender, .snapshot docId st⟩) ∈ s.bus ∧ t ≤ st.stamp) ∨
  ∃ q, (q, ⟨p, .snapshotOpen docId⟩) ∈ s.bus ∧ (s.peer q).Holds docId t

structure Inv (s : State π δ α) : Prop where
  opened : ∀ p docId o, (s.peer p).docs docId = some o → p ∈ s.peers
  asked : ∀ p docId, s.asked p docId = true → p ∈ s.peers
  shows : ∀ p, (s.peer p).Shows
  stored : ∀ p docId st, (s.peer p).snapshotStore docId = some st →
    (docId, st) ∈ s.writes ∧ st.stamp.clock ≤ (s.peer p).snapshotClock
  sent : ∀ q sender docId st, (q, ⟨sender, .snapshot docId st⟩) ∈ s.bus → (docId, st) ∈ s.writes
  writers : ∀ docId st, (docId, st) ∈ s.writes → st.stamp.peer ∈ s.peers ∧
    st.stamp.clock ≤ (s.peer st.stamp.peer).snapshotClock ∧ (s.peer st.stamp.peer).Holds docId st.stamp
  unique : s.writes.Pairwise fun a b => a.2.stamp ≠ b.2.stamp
  received : ∀ p, ∀ t ∈ s.received p, t.clock ≤ (s.peer p).snapshotClock
  informed : ∀ p ∈ s.peers, ∀ i docId st, s.writes[i]? = some (docId, st) →
    s.asked p docId = true ∨ s.arrivedAt p ≤ i → Informed s p docId st.stamp

theorem peer_set : (s.set p peer).peer q = if q = p then peer else s.peer q := by
  by_cases hq : q = p
  · subst hq
    simp [State.set]
  · simp [State.set, hq]

theorem Informed.mono (h : Informed s p docId t)
    (hholds : ∀ q docId t, (s.peer q).Holds docId t → (s'.peer q).Holds docId t)
    (hbus : ∀ x ∈ s.bus, x ∈ s'.bus) : Informed s' p docId t := by
  obtain hp | ⟨sender, st, hmem, ht⟩ | ⟨q, hmem, hq⟩ := h
  · exact .inl (hholds p docId t hp)
  · exact .inr (.inl ⟨sender, st, hbus _ hmem, ht⟩)
  · exact .inr (.inr ⟨q, hbus _ hmem, hholds q docId t hq⟩)

theorem Inv.docs (h : Inv s) (hp : p ∈ s.peers) {doc : Option (OpenDocument α)}
    (hshows : ((s.peer p).setDoc docId doc).Shows) : Inv (s.set p ((s.peer p).setDoc docId doc)) := by
  have hstore : ∀ q, ((s.set p ((s.peer p).setDoc docId doc)).peer q).snapshotStore = (s.peer q).snapshotStore := by
    intro q
    rw [peer_set]
    split
    · rename_i hq
      rw [hq]
      rfl
    · rfl
  have hclock : ∀ q, ((s.set p ((s.peer p).setDoc docId doc)).peer q).snapshotClock = (s.peer q).snapshotClock := by
    intro q
    rw [peer_set]
    split
    · rename_i hq
      rw [hq]
      rfl
    · rfl
  have hholds : ∀ q docId' t, (s.peer q).Holds docId' t →
      ((s.set p ((s.peer p).setDoc docId doc)).peer q).Holds docId' t := by
    intro q docId' t
    unfold Peer.Holds
    rw [hstore]
    exact id
  constructor
  · intro q docId' o ho
    by_cases hq : q = p
    · rw [hq]
      exact hp
    · rw [peer_set, if_neg hq] at ho
      exact h.opened q docId' o ho
  · exact h.asked
  · intro q
    rw [peer_set]
    split
    · exact hshows
    · exact h.shows q
  · intro q docId' st hst
    rw [hstore] at hst
    rw [hclock]
    exact h.stored q docId' st hst
  · exact h.sent
  · intro docId' st hw
    obtain ⟨hpeer, hle, hhold⟩ := h.writers docId' st hw
    exact ⟨hpeer, by rwa [hclock], hholds _ _ _ hhold⟩
  · exact h.unique
  · intro q t ht
    rw [hclock]
    exact h.received q t ht
  · exact fun q hq i docId' st hw hasked => (h.informed q hq i docId' st hw hasked).mono hholds fun _ hx => hx

theorem Inv.arrive (h : Inv s) (hp : p ∉ s.peers) :
    Inv { s with peers := s.peers ++ [p], arrivedAt := Function.update s.arrivedAt p s.writes.length } := by
  refine ⟨fun q docId o ho => List.mem_append_left _ (h.opened q docId o ho),
    fun q docId ha => List.mem_append_left _ (h.asked q docId ha), h.shows, h.stored, h.sent,
    fun docId st hw => ?_, h.unique, h.received, ?_⟩
  · obtain ⟨hpeer, hrest⟩ := h.writers docId st hw
    exact ⟨List.mem_append_left _ hpeer, hrest⟩
  · intro q hq i docId st hw hasked
    dsimp only at hasked
    by_cases hqp : q = p
    · rw [hqp, Function.update_self] at hasked
      obtain ⟨hi, -⟩ := List.getElem?_eq_some_iff.1 hw
      dsimp only at hi
      obtain ha | hle := hasked
      · exact absurd (h.asked p docId ha) hp
      · omega
    · rw [Function.update_of_ne hqp] at hasked
      have hold : q ∈ s.peers := by simpa [hqp] using hq
      exact h.informed q hold i docId st hw hasked

theorem mem_post {y : π × Message π δ α} {payload : Payload π δ α} :
    y ∈ s.post p payload ↔ y.1 ∈ s.peers ∧ y.1 ≠ p ∧ y.2 = ⟨p, payload⟩ := by
  obtain ⟨q, m⟩ := y
  simp only [State.post, List.mem_map, List.mem_filter, Prod.mk.injEq, ne_eq, decide_not, Bool.not_eq_true',
    decide_eq_false_iff_not]
  constructor
  · rintro ⟨q', ⟨hq, hne⟩, rfl, rfl⟩
    exact ⟨hq, hne, rfl⟩
  · rintro ⟨hq, hne, rfl⟩
    exact ⟨q, ⟨hq, hne⟩, rfl, rfl⟩

theorem Inv.ask (h : Inv s) (hp : p ∈ s.peers) (docId : δ) :
    Inv { s with
      bus := s.bus ++ s.post p (.snapshotOpen docId)
      asked := Function.update s.asked p (Function.update (s.asked p) docId true) } := by
  have hbus : ∀ y ∈ s.bus, y ∈ s.bus ++ s.post p (.snapshotOpen docId) := fun y hy => List.mem_append_left _ hy
  refine ⟨h.opened, fun q docId' ha => ?_, h.shows, h.stored, fun q sender docId' st hm => ?_, h.writers, h.unique,
    h.received, fun q hq i docId' st hw hasked => ?_⟩
  · by_cases hqp : q = p
    · rw [hqp]
      exact hp
    · dsimp only at ha
      rw [Function.update_of_ne hqp] at ha
      exact h.asked q docId' ha
  · obtain hold | hnew := List.mem_append.1 hm
    · exact h.sent q sender docId' st hold
    · have hpayload := (mem_post.1 hnew).2.2
      cases hpayload
  · by_cases hnew : q = p ∧ docId' = docId
    · obtain ⟨rfl, rfl⟩ := hnew
      obtain ⟨hwriter, -, hholds⟩ := h.writers docId' st (List.mem_of_getElem? hw)
      by_cases hself : st.stamp.peer = q
      · rw [hself] at hholds
        exact .inl hholds
      · exact .inr (.inr ⟨st.stamp.peer, List.mem_append_right _ (mem_post.2 ⟨hwriter, hself, rfl⟩), hholds⟩)
    · refine (h.informed q hq i docId' st hw (hasked.imp (fun ha => ?_) id)).mono (fun _ _ _ => id) hbus
      dsimp only at ha
      by_cases hqp : q = p
      · subst hqp
        have hd : docId' ≠ docId := fun hd => hnew ⟨rfl, hd⟩
        rwa [Function.update_self, Function.update_of_ne hd] at ha
      · rwa [Function.update_of_ne hqp] at ha

theorem Inv.write (h : Inv s) {o : OpenDocument α} (ho : (s.peer p).docs docId = some o) :
    Inv { s.set p { snapshotClock := (s.peer p).snapshotClock + 1
                    snapshotStore := Function.update (s.peer p).snapshotStore docId
                      (some ⟨x, ⟨(s.peer p).snapshotClock + 1, p⟩⟩)
                    docs := Function.update (s.peer p).docs docId (some { o with doc := o.doc.write x }) } with
      bus := s.bus ++ s.post p (.snapshot docId ⟨x, ⟨(s.peer p).snapshotClock + 1, p⟩⟩)
      writes := s.writes ++ [(docId, ⟨x, ⟨(s.peer p).snapshotClock + 1, p⟩⟩)] } := by
  have hp := h.opened p docId o ho
  generalize hst : (⟨x, ⟨(s.peer p).snapshotClock + 1, p⟩⟩ : StoredSnapshot π α) = new
  generalize hpeer : (⟨(s.peer p).snapshotClock + 1, Function.update (s.peer p).snapshotStore docId (some new),
    Function.update (s.peer p).docs docId (some { o with doc := o.doc.write x })⟩ : Peer π δ α) = peer
  have hstamp : new.stamp = ⟨(s.peer p).snapshotClock + 1, p⟩ := by rw [← hst]
  have hclock : peer.snapshotClock = (s.peer p).snapshotClock + 1 := by rw [← hpeer]
  have hstore : ∀ docId', peer.snapshotStore docId' =
      if docId' = docId then some new else (s.peer p).snapshotStore docId' := by
    intro docId'
    rw [← hpeer]
    exact Function.update_apply ..
  have hclocks : ∀ q, (s.peer q).snapshotClock ≤ ((s.set p peer).peer q).snapshotClock := by
    intro q
    rw [peer_set]
    split
    · rename_i hq
      rw [hq, hclock]
      omega
    · exact Nat.le_refl _
  have hholds : ∀ q docId' t, (s.peer q).Holds docId' t → ((s.set p peer).peer q).Holds docId' t := by
    rintro q docId' t ⟨st, hs, ht⟩
    rw [peer_set]
    split
    · rename_i hq
      subst hq
      by_cases hd : docId' = docId
      · subst hd
        refine ⟨new, by rw [hstore, if_pos rfl], ht.trans ?_⟩
        -- The clock has passed every stamp that the peer stores.
        have hle := (h.stored q docId' st hs).2
        refine (stamp_lt_iff.2 (.inl ?_)).le
        rw [hstamp]
        dsimp only
        omega
      · exact ⟨st, by rw [hstore, if_neg hd, hs], ht⟩
    · exact ⟨st, hs, ht⟩
  have hnew : ((s.set p peer).peer p).Holds docId new.stamp := by
    rw [peer_set, if_pos rfl]
    exact ⟨new, by rw [hstore, if_pos rfl], le_rfl⟩
  have hself : new.stamp.peer = p := by rw [hstamp]
  refine ⟨fun q docId' o' ho' => ?_, h.asked, fun q => ?_, fun q docId' st hs => ?_, fun q sender docId' st hm => ?_,
    fun docId' st hw => ?_, ?_, fun q t ht => (h.received q t ht).trans (hclocks q),
    fun q hq i docId' st hw hasked => ?_⟩
  · by_cases hq : q = p
    · rw [hq]
      exact hp
    · refine h.opened q docId' o' ?_
      rwa [peer_set, if_neg hq] at ho'
  · rw [peer_set]
    split
    · intro docId' o' ho'
      rw [← hpeer] at ho'
      unfold Peer.stored
      rw [hstore]
      dsimp only at ho'
      by_cases hd : docId' = docId
      · subst hd
        obtain rfl : { o with doc := o.doc.write x } = o' := by simpa using ho'
        rw [if_pos rfl, ← hst]
        exact ⟨fun _ => rfl, nofun⟩
      · rw [if_neg hd]
        exact h.shows p docId' o' (by rwa [Function.update_of_ne hd] at ho')
    · exact h.shows q
  · rw [peer_set] at hs ⊢
    split at hs
    · rename_i hq
      rw [if_pos hq]
      rw [hstore] at hs
      split at hs
      · rename_i hd
        obtain rfl := Option.some.inj hs
        refine ⟨by simp [hd], ?_⟩
        rw [hclock, hstamp]
      · obtain ⟨hw, hle⟩ := h.stored p docId' st hs
        exact ⟨List.mem_append_left _ hw, by omega⟩
    · rename_i hq
      rw [if_neg hq]
      obtain ⟨hw, hle⟩ := h.stored q docId' st hs
      exact ⟨List.mem_append_left _ hw, hle⟩
  · obtain hold | hpost := List.mem_append.1 hm
    · exact List.mem_append_left _ (h.sent q sender docId' st hold)
    · have hpayload := (mem_post.1 hpost).2.2
      obtain ⟨-, hsnapshot⟩ := Message.mk.inj hpayload
      obtain ⟨rfl, rfl⟩ := Payload.snapshot.inj hsnapshot
      simp
  · obtain hold | hlast := List.mem_append.1 hw
    · obtain ⟨hmem, hle, hhold⟩ := h.writers docId' st hold
      exact ⟨hmem, hle.trans (hclocks _), hholds _ _ _ hhold⟩
    · obtain ⟨rfl, rfl⟩ := Prod.mk.inj (List.mem_singleton.1 hlast)
      rw [hself]
      refine ⟨hp, ?_, hnew⟩
      rw [peer_set, if_pos rfl, hclock, hstamp]
  · refine List.pairwise_append.2 ⟨h.unique, List.pairwise_singleton _ _, ?_⟩
    rintro ⟨docId', st⟩ hw b hb heq
    obtain rfl := List.mem_singleton.1 hb
    have hle := (h.writers docId' st hw).2.1
    rw [heq, hself, hstamp] at hle
    dsimp only at hle
    omega
  · rw [List.getElem?_append] at hw
    split at hw
    · exact (h.informed q hq i docId' st hw hasked).mono hholds fun y hy => List.mem_append_left _ hy
    · have hlast := List.mem_of_getElem? hw
      obtain ⟨rfl, rfl⟩ := Prod.mk.inj (List.mem_singleton.1 hlast)
      by_cases hqp : q = p
      · rw [hqp]
        exact .inl hnew
      · exact .inr (.inl ⟨p, st, List.mem_append_right _ (mem_post.2 ⟨hq, hqp, rfl⟩), le_rfl⟩)

theorem Inv.answer (h : Inv s) (hk : s.bus[k]? = some (q, ⟨p, .snapshotOpen docId⟩)) :
    Inv (receive { s with bus := s.bus.eraseIdx k } q ⟨p, .snapshotOpen docId⟩) := by
  have herase : ∀ y ∈ s.bus.eraseIdx k, y ∈ s.bus := fun y hy => List.mem_of_mem_eraseIdx hy
  unfold receive
  dsimp only
  cases hstore : (s.peer q).snapshotStore docId with
  | none =>
    refine ⟨h.opened, h.asked, h.shows, h.stored,
      fun q' sender docId' st hm => h.sent q' sender docId' st (herase _ hm), h.writers, h.unique, h.received,
      fun q' hq' i docId' st hw hasked => ?_⟩
    obtain hholds | ⟨sender, st', hm, ht⟩ | ⟨q'', hm, hholds⟩ := h.informed q' hq' i docId' st hw hasked
    · exact .inl hholds
    · refine .inr (.inl ⟨sender, st', (mem_or_mem_eraseIdx hk hm).resolve_left ?_, ht⟩)
      rintro ⟨⟩
    · obtain heq | hm := mem_or_mem_eraseIdx hk hm
      · obtain ⟨rfl, hmessage⟩ := Prod.mk.inj heq
        obtain ⟨rfl, hpayload⟩ := Message.mk.inj hmessage
        obtain rfl := Payload.snapshotOpen.inj hpayload
        obtain ⟨st', hst', -⟩ := hholds
        rw [hstore] at hst'
        cases hst'
      · exact .inr (.inr ⟨q'', hm, hholds⟩)
  | some stored =>
    refine ⟨h.opened, h.asked, h.shows, h.stored, fun q' sender docId' st hm => ?_, h.writers, h.unique, h.received,
      fun q' hq' i docId' st hw hasked => ?_⟩
    · obtain hold | hnew := List.mem_append.1 hm
      · exact h.sent q' sender docId' st (herase _ hold)
      · obtain ⟨-, hmessage⟩ := Prod.mk.inj (List.mem_singleton.1 hnew)
        obtain ⟨-, hpayload⟩ := Message.mk.inj hmessage
        obtain ⟨rfl, rfl⟩ := Payload.snapshot.inj hpayload
        exact (h.stored q docId' st hstore).1
    · obtain hholds | ⟨sender, st', hm, ht⟩ | ⟨q'', hm, hholds⟩ := h.informed q' hq' i docId' st hw hasked
      · exact .inl hholds
      · refine .inr (.inl ⟨sender, st', List.mem_append_left _ ((mem_or_mem_eraseIdx hk hm).resolve_left ?_), ht⟩)
        rintro ⟨⟩
      · obtain heq | hm := mem_or_mem_eraseIdx hk hm
        · obtain ⟨rfl, hmessage⟩ := Prod.mk.inj heq
          obtain ⟨rfl, hpayload⟩ := Message.mk.inj hmessage
          obtain rfl := Payload.snapshotOpen.inj hpayload
          obtain ⟨st', hst', ht⟩ := hholds
          obtain rfl := Option.some.inj (hstore.symm.trans hst')
          exact .inr (.inl ⟨q'', stored, by simp, ht⟩)
        · exact .inr (.inr ⟨q'', List.mem_append_left _ hm, hholds⟩)

/-- A snapshot arrives: the peer keeps the newer one. -/
theorem Inv.hear (h : Inv s) {stored : StoredSnapshot π α}
    (hk : s.bus[k]? = some (q, ⟨p, .snapshot docId stored⟩)) :
    Inv (receive { s with bus := s.bus.eraseIdx k } q ⟨p, .snapshot docId stored⟩) := by
  have herase : ∀ y ∈ s.bus.eraseIdx k, y ∈ s.bus := fun y hy => List.mem_of_mem_eraseIdx hy
  have hwritten : (docId, stored) ∈ s.writes := h.sent q p docId stored (List.mem_of_getElem? hk)
  have hpeer : ∀ q', Function.update s.peer q ((s.peer q).receiveSnapshot docId stored) q' =
      if q' = q then (s.peer q).receiveSnapshot docId stored else s.peer q' := fun q' => Function.update_apply ..
  have hclocks : ∀ q', (s.peer q').snapshotClock ≤
      (Function.update s.peer q ((s.peer q).receiveSnapshot docId stored) q').snapshotClock := by
    intro q'
    rw [hpeer]
    split
    · rename_i hq
      rw [hq, snapshotClock_receive]
      exact le_max_left _ _
    · exact Nat.le_refl _
  have hholds : ∀ q' docId' t, (s.peer q').Holds docId' t →
      (Function.update s.peer q ((s.peer q).receiveSnapshot docId stored) q').Holds docId' t := by
    intro q' docId' t ht
    rw [hpeer]
    split
    · rename_i hq
      rw [hq] at ht
      exact ht.receive
    · exact ht
  refine ⟨fun q' docId' o ho => ?_, h.asked, fun q' => ?_, fun q' docId' st hs => ?_,
    fun q' sender docId' st hm => h.sent q' sender docId' st (herase _ hm), fun docId' st hw => ?_, h.unique,
    fun q' t ht => ?_, fun q' hq' i docId' st hw hasked => ?_⟩
  · dsimp only [receive, State.set] at ho ⊢
    rw [hpeer] at ho
    split at ho
    · rename_i hq
      subst hq
      unfold Peer.receiveSnapshot at ho
      dsimp only at ho
      split at ho
      · by_cases hd : docId' = docId
        · subst hd
          dsimp only at ho
          rw [Function.update_self] at ho
          obtain ⟨o', ho', -⟩ := Option.map_eq_some_iff.1 ho
          exact h.opened q' docId' o' ho'
        · exact h.opened q' docId' o (by simpa [Function.update_of_ne hd] using ho)
      · exact h.opened q' docId' o ho
    · exact h.opened q' docId' o ho
  · dsimp only [receive, State.set]
    rw [hpeer]
    split
    · exact (h.shows q).receive
    · exact h.shows q'
  · dsimp only [receive, State.set] at hs ⊢
    rw [hpeer] at hs ⊢
    split at hs
    · rename_i hq
      rw [if_pos hq, snapshotClock_receive]
      rw [snapshotStore_receive] at hs
      split at hs
      · rename_i hnew
        obtain rfl := Option.some.inj hs
        rw [hnew.1]
        exact ⟨hwritten, le_max_right _ _⟩
      · obtain ⟨hw, hle⟩ := h.stored q docId' st hs
        exact ⟨hw, hle.trans (le_max_left _ _)⟩
    · rename_i hq
      rw [if_neg hq]
      exact h.stored q' docId' st hs
  · obtain ⟨hmem, hle, hhold⟩ := h.writers docId' st hw
    exact ⟨hmem, hle.trans (hclocks _), hholds _ _ _ hhold⟩
  · dsimp only [receive, State.set] at ht ⊢
    by_cases hq : q' = q
    · subst hq
      rw [Function.update_self] at ht
      obtain hold | hnew := List.mem_append.1 ht
      · exact (h.received q' t hold).trans (hclocks q')
      · obtain rfl := List.mem_singleton.1 hnew
        rw [Function.update_self, snapshotClock_receive]
        exact le_max_right _ _
    · rw [Function.update_of_ne hq] at ht
      exact (h.received q' t ht).trans (hclocks q')
  · obtain hhold | ⟨sender, st', hm, ht⟩ | ⟨q'', hm, hhold⟩ := h.informed q' hq' i docId' st hw hasked
    · exact .inl (hholds _ _ _ hhold)
    · obtain heq | hm := mem_or_mem_eraseIdx hk hm
      · obtain ⟨rfl, hmessage⟩ := Prod.mk.inj heq
        obtain ⟨rfl, hpayload⟩ := Message.mk.inj hmessage
        obtain ⟨rfl, rfl⟩ := Payload.snapshot.inj hpayload
        left
        dsimp only [receive, State.set]
        rw [Function.update_self]
        have hreceived : ((s.peer q').receiveSnapshot docId' st').Holds docId' st'.stamp := holds_received
        obtain ⟨st'', hst'', hle⟩ := hreceived
        exact ⟨st'', hst'', ht.trans hle⟩
      · exact .inr (.inl ⟨sender, st', hm, ht⟩)
    · refine .inr (.inr ⟨q'', (mem_or_mem_eraseIdx hk hm).resolve_left ?_, hholds _ _ _ hhold⟩)
      rintro ⟨⟩

theorem inv_step (h : Inv s) (e : Event π δ α) (hs : step s e = some s') : Inv s' := by
  cases e with
  | arrive p =>
    dsimp only [step] at hs
    split at hs
    · cases hs
    · rename_i hp
      obtain rfl := Option.some.inj hs
      exact h.arrive hp
  | openSnapshot p docId =>
    dsimp only [step] at hs
    split at hs
    · rename_i hp
      split at hs
      · rename_i o ho
        obtain rfl := Option.some.inj hs
        obtain ⟨hcurrent, hinitial⟩ := h.shows p docId o ho
        exact h.docs hp ((h.shows p).setDoc hcurrent hinitial)
      · obtain rfl := Option.some.inj hs
        have hnew : ((s.peer p).setDoc docId (some ⟨1, {}, none⟩)).Shows := (h.shows p).setDoc nofun fun _ => nofun
        exact (h.docs hp hnew).ask hp docId
    · cases hs
  | closeSnapshot p docId =>
    dsimp only [step] at hs
    split at hs
    · rename_i o ho
      obtain rfl := Option.some.inj hs
      obtain ⟨hcurrent, hinitial⟩ := h.shows p docId o ho
      refine h.docs (h.opened p docId o ho) ?_
      split
      · exact (h.shows p).setDoc hcurrent hinitial
      · intro docId' o' ho'
        by_cases hd : docId' = docId
        · subst hd
          simp [Peer.setDoc] at ho'
        · exact h.shows p docId' o' (by simpa [Peer.setDoc, Function.update_of_ne hd] using ho')
    · cases hs
  | readInitial p docId =>
    dsimp only [step] at hs
    split at hs
    · rename_i o ho
      split at hs
      · obtain rfl := Option.some.inj hs
        refine h.docs (h.opened p docId o ho) ((h.shows p).setDoc (h.shows p docId o ho).1 fun _ initial hi => ?_)
        exact (Option.some.inj hi).symm
      · cases hs
    · cases hs
  | settle p docId =>
    dsimp only [step] at hs
    split at hs
    · rename_i o ho
      split at hs
      · rename_i initial hread hready
        obtain rfl := Option.some.inj hs
        obtain ⟨hcurrent, hinitial⟩ := h.shows p docId o ho
        refine h.docs (h.opened p docId o ho) ((h.shows p).setDoc (fun _ => ?_) hinitial)
        dsimp only [SharedSnapshotDocument.settle]
        split
        · rename_i ht
          exact hcurrent (.inl ht)
        · rename_i ht
          exact hinitial (by simpa using ht) initial hread
      · cases hs
    · cases hs
  | write p docId content =>
    dsimp only [step] at hs
    split at hs
    · rename_i o ho
      obtain rfl := Option.some.inj hs
      exact h.write ho
    · cases hs
  | deliver k =>
    dsimp only [step] at hs
    split at hs
    · rename_i q m hk
      obtain rfl := Option.some.inj hs
      obtain ⟨sender, payload⟩ := m
      cases payload with
      | snapshotOpen docId => exact h.answer hk
      | snapshot docId stored => exact h.hear hk
    · cases hs

theorem inv_init : Inv (init : State π δ α) := by
  refine ⟨nofun, nofun, fun _ => nofun, nofun, nofun, nofun, .nil, nofun, nofun⟩

def Greatest (s : State π δ α) (docId : δ) (st : StoredSnapshot π α) : Prop :=
  ∀ st', (docId, st') ∈ s.writes → st'.stamp ≤ st.stamp

/-- Two writes never carry the same stamp; a write has a greater stamp than all that its peer received; an
open document shows what its peer stores, once its initial state is read or a write has reached it; and
when all is delivered, every peer that has opened the document since it arrived, or was there when the
greatest write was made, stores that write. -/
theorem snapshots_converge (hrun : Run step (fun _ _ => True) init s) :
    (s.writes.Pairwise fun a b => a.2.stamp ≠ b.2.stamp) ∧
    (∀ p docId content s', step s (.write p docId content) = some s' →
      ∃ st, s'.writes = s.writes ++ [(docId, st)] ∧ st.stamp.peer = p ∧ ∀ t ∈ s.received p, t < st.stamp) ∧
    (∀ p docId o, (s.peer p).docs docId = some o → o.doc.touched = true ∨ o.doc.ready = true →
      o.doc.current = (s.peer p).stored docId) ∧
    (s.bus = [] → ∀ p ∈ s.peers, ∀ i docId st, s.writes[i]? = some (docId, st) → Greatest s docId st →
      s.asked p docId = true ∨ s.arrivedAt p ≤ i → (s.peer p).snapshotStore docId = some st) := by
  have h : Inv s := hrun.invariant Inv inv_init fun _ e _ hinv _ hs => inv_step hinv e hs
  refine ⟨h.unique, fun p docId content s' hs => ?_, fun p docId o ho => (h.shows p docId o ho).1,
    fun hbus p hp i docId st hw hgreatest hasked => ?_⟩
  · dsimp only [step] at hs
    split at hs
    · obtain rfl := Option.some.inj hs
      refine ⟨_, rfl, rfl, fun t ht => stamp_lt_iff.2 (.inl ?_)⟩
      have := h.received p t ht
      dsimp only
      omega
    · cases hs
  · obtain ⟨st', hst', hle⟩ | ⟨sender, st', hm, -⟩ | ⟨q, hm, -⟩ := h.informed p hp i docId st hw hasked
    · have hwritten := (h.stored p docId st' hst').1
      have heq : st'.stamp = st.stamp := le_antisymm (hgreatest st' hwritten) hle
      have hsame : (docId, st') = (docId, st) := by
        by_contra hne
        have : Std.Symm fun a b : δ × StoredSnapshot π α => a.2.stamp ≠ b.2.stamp := ⟨fun _ _ => Ne.symm⟩
        exact h.unique.forall hwritten (List.mem_of_getElem? hw) hne heq
      rw [hst', (Prod.mk.inj hsame).2]
    · rw [hbus] at hm
      cases hm
    · rw [hbus] at hm
      cases hm

end

def writesAtOnce : List (Event Nat Unit Nat) :=
  [.arrive 1, .arrive 2, .openSnapshot 1 (), .deliver 0, .openSnapshot 2 (), .deliver 0, .write 2 () 20, .arrive 3,
    .write 1 () 10]

theorem snapshots_converge_late : ∃ s : State Nat Unit Nat, Run step (fun _ _ => True) init s ∧ s.bus = [] ∧
    ∀ p ∈ s.peers, ((s.peer p).snapshotStore ()).map (·.content) = some 20 := by
  have hrun : ∃ s : State Nat Unit Nat, exec step (fun _ _ => True) init (writesAtOnce ++ [.openSnapshot 3 ()] ++
      List.replicate 7 (.deliver 0)) = some s ∧ s.bus = [] ∧ s.peers = [1, 2, 3] ∧
      s.writes = [((), ⟨20, ⟨1, 2⟩⟩), ((), ⟨10, ⟨1, 1⟩⟩)] ∧
      ∀ p ∈ [1, 2, 3], s.asked p () = true := by
    refine ⟨_, rfl, rfl, rfl, rfl, ?_⟩
    simp only [List.mem_cons, List.not_mem_nil, or_false]
    rintro p (rfl | rfl | rfl) <;> rfl
  obtain ⟨s, hs, hbus, hpeers, hwrites, hasked⟩ := hrun
  have h := run_of_exec _ _ s hs
  refine ⟨s, h, hbus, fun p hp => ?_⟩
  have hgreatest : Greatest s () ⟨20, ⟨1, 2⟩⟩ := by
    intro st' hst'
    rw [hwrites] at hst'
    simp only [List.mem_cons, Prod.mk.injEq, true_and, List.not_mem_nil, or_false] at hst'
    obtain rfl | rfl := hst'
    · exact le_rfl
    · exact (stamp_lt_iff.2 (by decide)).le
  have hstored := (snapshots_converge h).2.2.2 hbus p hp 0 () ⟨20, ⟨1, 2⟩⟩ (by simp [hwrites]) hgreatest
    (.inl (hasked p (by rwa [hpeers] at hp)))
  simp [hstored]

/-- The late peer does not open the document: it stores the only write that came to it, the smaller one. -/
theorem late_peer_behind : ∃ s : State Nat Unit Nat, Run step (fun _ _ => True) init s ∧ s.bus = [] ∧
    3 ∈ s.peers ∧ ((), ⟨20, ⟨1, 2⟩⟩) ∈ s.writes ∧
    (s.peer 3).snapshotStore () = some ⟨10, ⟨1, 1⟩⟩ := by
  have hrun : ∃ s : State Nat Unit Nat, exec step (fun _ _ => True) init (writesAtOnce ++
      List.replicate 3 (.deliver 0)) = some s ∧ s.bus = [] ∧ s.peers = [1, 2, 3] ∧
      s.writes = [((), ⟨20, ⟨1, 2⟩⟩), ((), ⟨10, ⟨1, 1⟩⟩)] ∧
      (s.peer 3).snapshotStore () = some ⟨10, ⟨1, 1⟩⟩ := ⟨_, rfl, rfl, rfl, rfl, rfl⟩
  obtain ⟨s, hs, hbus, hpeers, hwrites, hstore⟩ := hrun
  exact ⟨s, run_of_exec _ _ s hs, hbus, by simp [hpeers], by simp [hwrites], hstore⟩

end
end Savoire.LocalPeers
