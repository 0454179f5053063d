import Savoire.Sync.Channel

/-! What reaches a client that joins a channel: the initial state, the broadcasts, and the push
that falls between the reading of the log and the subscription. -/
set_option linter.unusedSectionVars false
namespace Savoire.Channel
open Join Transition

section
variable {κ U : Type} [DecidableEq κ] [SemilatticeSup U] [OrderBot U]
variable {s s' : State κ U} {e : Event κ U} {i : κ} {b : U}

def Stage.held : Stage U → U
  | .reading ops | .subscribed ops => joinAll ops
  | .away | .joined => ⊥

def Stage.present : Stage U → Bool
  | .away => false
  | .reading _ | .subscribed _ | .joined => true

/-- `b` bounds what the client has and what was sent to it. -/
structure Client.Below (c : Client U) (b : U) : Prop where
  replica : c.replica ≤ b
  held : c.stage.held ≤ b
  inbox : ∀ m ∈ c.inbox, m.content ≤ b

/-- `b` bounds all that the client has and all that is on its way to it. -/
structure Bounds (s : State κ U) (i : κ) (b : U) : Prop where
  client : (s.clients i).Below b
  broadcasts : ∀ f ∈ s.broadcasts, f.1 ≠ i → f.2 ≤ b

def Client.Own (c : Client U) : Prop := ∀ op ∈ c.outbox, op ≤ c.replica

structure Informed (s : State κ U) : Prop where
  complete : Complete s
  own : ∀ i, (s.clients i).Own
  accepted : ∀ i, (s.clients i).stage.present = true → ∀ b, Bounds s i b → ∀ op ∈ s.accepted, op ≤ b

@[simp] theorem setClient_self (s : State κ U) (i : κ) (c : Client U) :
    (s.setClient i c).clients i = c := Function.update_self ..

theorem setClient_other (s : State κ U) (i j : κ) (c : Client U) (h : j ≠ i) :
    (s.setClient i c).clients j = s.clients j := Function.update_of_ne h ..

theorem Bounds.congr (hb : Bounds s' i b) (hc : s'.clients i = s.clients i)
    (hbr : ∀ f ∈ s.broadcasts, f ∈ s'.broadcasts) : Bounds s i b :=
  ⟨hc ▸ hb.client, fun f hf => hb.broadcasts f (hbr f hf)⟩

theorem Bounds.of_setClient (k : κ) (c : Client U) (hb : Bounds (s.setClient k c) i b)
    (hc : c.Below b → (s.clients k).Below b) : Bounds s i b := by
  by_cases hi : i = k
  · subst hi
    have hclient := hb.client
    rw [setClient_self] at hclient
    exact ⟨hc hclient, hb.broadcasts⟩
  · exact hb.congr (setClient_other s k i c hi) fun _ hf => hf

theorem relay_cases (sender : κ) (op : U) (clients : κ → Client U) (i : κ) :
    (i ≠ sender ∧ (clients i).stage.inGroup = true ∧ relay sender op clients i =
      { clients i with inbox := (clients i).inbox ++ [.operation op] }) ∨
    ((i = sender ∨ (clients i).stage.inGroup = false) ∧ relay sender op clients i = clients i) := by
  by_cases hr : i ≠ sender ∧ (clients i).stage.inGroup = true
  · exact .inl ⟨hr.1, hr.2, if_pos hr⟩
  · refine .inr ⟨?_, if_neg hr⟩
    by_cases hi : i = sender
    · exact .inl hi
    · exact .inr (by simpa [hi] using hr)

theorem bounds_relay (sender : κ) (op : U) (push : Nat)
    (hk : s.broadcasts[push]? = some (sender, op)) (hp : (s.clients i).stage.present = true)
    (hgap : ∀ j, j ≠ sender → match (s.clients j).stage with
      | .reading ops => op ≤ joinAll ops ⊔ (s.clients j).replica
      | _ => True)
    (hb : Bounds { s with broadcasts := s.broadcasts.eraseIdx push,
                          clients := relay sender op s.clients } i b) : Bounds s i b := by
  have hother : ∀ f ∈ s.broadcasts, f.1 ≠ i → f = (sender, op) ∨ f.2 ≤ b := fun f hf hfi =>
    (mem_or_mem_eraseIdx hk hf).imp_right fun hf => hb.broadcasts f hf hfi
  have hclient := hb.client
  dsimp only at hclient
  rcases relay_cases sender op s.clients i with ⟨hi, hg, hr⟩ | ⟨hor, hr⟩
  · rw [hr] at hclient
    refine ⟨⟨hclient.replica, hclient.held, fun m hm => ?_⟩, fun f hf hfi => ?_⟩
    · exact hclient.inbox m (List.mem_append_left _ hm)
    · rcases hother f hf hfi with rfl | hle
      · exact hclient.inbox (.operation op) (by simp)
      · exact hle
  · rw [hr] at hclient
    refine ⟨hclient, fun f hf hfi => ?_⟩
    rcases hother f hf hfi with rfl | hle
    · have hi : i ≠ sender := fun he => hfi he.symm
      have hg := hgap i hi
      have hout : (s.clients i).stage.inGroup = false := hor.resolve_left hi
      cases hst : (s.clients i).stage with
      | away => simp [Stage.present, hst] at hp
      | reading ops =>
        rw [hst] at hg
        have hheld := hclient.held
        rw [hst] at hheld
        exact hg.trans (sup_le hheld hclient.replica)
      | subscribed ops | joined => simp [Stage.inGroup, hst] at hout
    · exact hle

/-- What bounds a client after a step bounded it before, as long as it stays. -/
theorem bounds_step (hgap : NoGap s e) (h : step s e = some s')
    (hp : (s.clients i).stage.present = true) (hp' : (s'.clients i).stage.present = true)
    (hb : Bounds s' i b) : Bounds s i b := by
  cases e with
  | edit k op =>
    cases h
    exact hb.of_setClient k _ fun hc => ⟨le_sup_left.trans hc.replica, hc.held, hc.inbox⟩
  | append k push =>
    simp only [step] at h
    split at h <;> cases h
    refine Bounds.of_setClient k _ ⟨hb.client, fun f hf => ?_⟩
      fun hc => ⟨hc.replica, hc.held, hc.inbox⟩
    exact hb.broadcasts f (List.mem_append_left _ hf)
  | broadcast push =>
    simp only [step] at h
    split at h
    · cases h
    · rename_i sender op hk
      cases h
      simp only [NoGap, hk] at hgap
      exact bounds_relay sender op push hk hp hgap hb
  | joinRead k =>
    simp only [step] at h
    split at h
    · rename_i hst
      cases h
      have hi : i ≠ k := fun he => by simp [he, hst, Stage.present] at hp
      exact hb.congr (setClient_other s k i _ hi) (fun _ hf => hf)
    · cases h
  | joinSubscribe k =>
    simp only [step] at h
    split at h
    · rename_i ops hst
      cases h
      exact hb.of_setClient k _ fun hc => ⟨hc.replica, by rw [hst]; exact hc.held, hc.inbox⟩
    · cases h
  | joinSend k =>
    simp only [step] at h
    split at h
    · rename_i ops hst
      cases h
      refine hb.of_setClient k _ fun hc => ⟨hc.replica, ?_, fun m hm => ?_⟩
      · rw [hst]
        exact hc.inbox (.init ops) (by simp)
      · exact hc.inbox m (List.mem_append_left _ hm)
    · cases h
  | deliver k message =>
    simp only [step] at h
    split at h
    · cases h
    · rename_i m hm
      cases h
      refine hb.of_setClient k _ fun hc => ⟨le_sup_left.trans hc.replica, hc.held, fun m' hm' => ?_⟩
      rcases mem_or_mem_eraseIdx hm hm' with rfl | hm'
      · exact le_sup_right.trans hc.replica
      · exact hc.inbox m' hm'
  | snapshot k =>
    cases h
    exact ⟨hb.client, hb.broadcasts⟩
  | compact k =>
    simp only [step] at h
    split at h <;> cases h
    exact ⟨hb.client, hb.broadcasts⟩
  | disconnect k =>
    cases h
    have hi : i ≠ k := fun he => by
      subst he
      simp [Stage.present] at hp'
    exact hb.congr (setClient_other s k i _ hi) (fun _ hf => hf)

theorem own_setClient (ho : ∀ i, (s.clients i).Own) (k : κ) (c : Client U) (hc : c.Own) (i : κ) :
    ((s.setClient k c).clients i).Own := by
  by_cases hi : i = k
  · subst hi
    rw [setClient_self]
    exact hc
  · rw [setClient_other s k i c hi]
    exact ho i

theorem own_step (h : step s e = some s') (ho : ∀ i, (s.clients i).Own) (i : κ) :
    (s'.clients i).Own := by
  cases e with
  | edit k op =>
    cases h
    refine own_setClient ho k _ (fun u hu => ?_) i
    rcases List.mem_append.1 hu with hu | hu
    · exact (ho k u hu).trans le_sup_left
    · obtain rfl : u = op := by simpa using hu
      exact le_sup_right
  | append k push =>
    simp only [step] at h
    split at h <;> cases h
    refine own_setClient ho k _ ?_ i
    exact fun u hu => ho k u (List.mem_of_mem_eraseIdx hu)
  | broadcast push =>
    simp only [step] at h
    split at h
    · cases h
    · rename_i sender op hk
      cases h
      rcases relay_cases sender op s.clients i with ⟨-, -, hr⟩ | ⟨-, hr⟩ <;> dsimp only <;>
        rw [hr] <;> exact ho i
  | joinRead k | joinSubscribe k | joinSend k =>
    simp only [step] at h
    split at h <;> cases h
    refine own_setClient ho k _ ?_ i
    exact ho k
  | deliver k message =>
    simp only [step] at h
    split at h <;> cases h
    refine own_setClient ho k _ ?_ i
    exact fun u hu => (ho k u hu).trans le_sup_left
  | snapshot k =>
    cases h
    exact ho i
  | compact k =>
    simp only [step] at h
    split at h <;> cases h
    exact ho i
  | disconnect k =>
    cases h
    refine own_setClient ho k _ ?_ i
    exact ho k

theorem accepted_step (h : step s e = some s') (ho : ∀ i, (s.clients i).Own)
    (hb : Bounds s i b) (hb' : Bounds s' i b) (op : U) (hop : op ∈ s'.accepted) :
    op ∈ s.accepted ∨ op ≤ b := by
  cases e with
  | append k push =>
    simp only [step] at h
    split at h
    · cases h
    · rename_i u hk
      cases h
      rcases List.mem_append.1 hop with hop | hop
      · exact .inl hop
      · obtain rfl : op = u := by simpa using hop
        refine .inr ?_
        by_cases hi : k = i
        · subst hi
          exact (ho k op (List.mem_of_getElem? hk)).trans hb.client.replica
        · exact hb'.broadcasts (k, op) (by simp) hi
  | compact k | broadcast k | joinRead k | joinSubscribe k | joinSend k =>
    simp only [step] at h
    split at h <;> cases h
    exact .inl hop
  | deliver k message =>
    simp only [step] at h
    split at h <;> cases h
    exact .inl hop
  | edit | snapshot | disconnect =>
    cases h
    exact .inl hop

/-- A client becomes present by reading the log. -/
theorem read_of_present (h : step s e = some s') (hp : (s.clients i).stage.present = false)
    (hp' : (s'.clients i).stage.present = true) :
    (s'.clients i).stage.held = joinAll s.log ∧ s'.accepted = s.accepted := by
  have hsame : ∀ t : State κ U, t.clients i = s.clients i → (t.clients i).stage.present = true →
      False := fun t ht hpt => by rw [ht, hp] at hpt; cases hpt
  have hset : ∀ (k : κ) (c : Client U), ((s.setClient k c).clients i).stage.present = true →
      (i = k → c.stage.present = (s.clients k).stage.present) → False := by
    intro k c hpt hc
    by_cases hi : i = k
    · subst hi
      rw [setClient_self, hc rfl, hp] at hpt
      cases hpt
    · exact hsame _ (setClient_other s k i c hi) hpt
  cases e with
  | joinRead k =>
    simp only [step] at h
    split at h
    · cases h
      by_cases hi : i = k
      · subst hi
        rw [setClient_self]
        exact ⟨rfl, rfl⟩
      · exact (hsame _ (setClient_other s k i _ hi) hp').elim
    · cases h
  | edit k op =>
    cases h
    exact (hset k _ hp' fun _ => rfl).elim
  | append k push =>
    simp only [step] at h
    split at h <;> cases h
    exact (hset k _ hp' fun _ => rfl).elim
  | broadcast push =>
    simp only [step] at h
    split at h
    · cases h
    · rename_i sender op hk
      cases h
      rcases relay_cases sender op s.clients i with ⟨-, -, hr⟩ | ⟨-, hr⟩ <;> dsimp only at hp' <;>
        rw [hr] at hp' <;> exact absurd (hp'.symm.trans hp) (by decide)
  | joinSubscribe k | joinSend k =>
    simp only [step] at h
    split at h
    · rename_i ops hst
      cases h
      exact (hset k _ hp' fun _ => by rw [hst]; rfl).elim
    · cases h
  | deliver k message =>
    simp only [step] at h
    split at h <;> cases h
    exact (hset k _ hp' fun _ => rfl).elim
  | snapshot k =>
    cases h
    exact (hsame _ rfl hp').elim
  | compact k =>
    simp only [step] at h
    split at h <;> cases h
    exact (hsame _ rfl hp').elim
  | disconnect k =>
    cases h
    by_cases hi : i = k
    · subst hi
      rw [setClient_self] at hp'
      cases hp'
    · exact (hsame _ (setClient_other s k i _ hi) hp').elim

/-- No push falls into a join, and no snapshot drops one. -/
def NoLoss (s : State κ U) (e : Event κ U) : Prop := NoGap s e ∧ SnapshotContains s e

instance [Fintype κ] [DecidableLE U] (s : State κ U) (e : Event κ U) : Decidable (NoLoss s e) := by
  unfold NoLoss
  infer_instance

theorem informed_step (hi : Informed s) (hok : NoLoss s e) (h : step s e = some s') :
    Informed s' where
  complete := complete_step s s' e hi.complete hok.2 h
  own := own_step h hi.own
  accepted i hp' b hb op hop := by
    cases hp : (s.clients i).stage.present with
    | true =>
      have hb₀ : Bounds s i b := bounds_step hok.1 h hp hp' hb
      exact (accepted_step h hi.own hb₀ hb op hop).elim (hi.accepted i hp b hb₀ op) id
    | false =>
      obtain ⟨hheld, hacc⟩ := read_of_present h hp hp'
      have hlog : joinAll s.accepted ≤ b :=
        hi.complete.trans (hheld ▸ hb.client.held)
      exact (joinAll_le_iff _ _).1 hlog op (hacc ▸ hop)

theorem init_informed : Informed (init : State κ U) where
  complete := le_rfl
  own i op hop := by simp [init] at hop
  accepted i hp := by simp [init, Stage.present] at hp

/-- As long as no push is broadcast in the gap of a join, and no snapshot drops one, a joined
client to which everything sent was delivered has every push that the server has accepted. -/
theorem joined_client_informed (s : State κ U) (h : Run step NoLoss init s) (i : κ)
    (hjoined : (s.clients i).stage = .joined) (hinbox : (s.clients i).inbox = [])
    (hbroadcasts : s.broadcasts = []) : joinAll s.accepted ≤ (s.clients i).replica := by
  have hinf : Informed s :=
    h.invariant Informed init_informed fun s e s' hi hok hs => informed_step hi hok hs
  have hb : Bounds s i (s.clients i).replica :=
    ⟨⟨le_rfl, by simp [hjoined, Stage.held], by simp [hinbox]⟩, by simp [hbroadcasts]⟩
  exact (joinAll_le_iff _ _).2 (hinf.accepted i (by simp [hjoined, Stage.present]) _ hb)

def pushDuringJoin : List (Event Bool Bool) :=
  [.edit false true, .joinRead true, .append false 0, .broadcast 0, .joinSubscribe true,
    .joinSend true, .deliver true 0]

theorem push_missed_by_join :
    ∃ s : State Bool Bool, Run step (fun _ _ => True) init s ∧ (s.clients true).stage = .joined ∧
      (s.clients true).inbox = [] ∧ s.broadcasts = [] ∧
      ¬ joinAll s.accepted ≤ (s.clients true).replica := by
  have hrun : ∃ s : State Bool Bool, exec step (fun _ _ => True) init pushDuringJoin = some s ∧
      (s.clients true).stage = .joined ∧ (s.clients true).inbox = [] ∧ s.broadcasts = [] ∧
      ¬ joinAll s.accepted ≤ (s.clients true).replica := ⟨_, rfl, rfl, rfl, rfl, by decide⟩
  obtain ⟨s, hs, hrest⟩ := hrun
  exact ⟨s, run_of_exec _ _ s hs, hrest⟩

def pushAfterSubscription : List (Event Bool Bool) :=
  [.edit false true, .joinRead true, .append false 0, .joinSubscribe true, .broadcast 0,
    .joinSend true, .deliver true 0, .deliver true 0]

theorem joined_client_informed_subscribed :
    ∃ s : State Bool Bool, Run step NoLoss init s ∧
      joinAll s.accepted ≤ (s.clients true).replica := by
  have hrun : ∃ s : State Bool Bool,
      exec step NoLoss init pushAfterSubscription = some s ∧ (s.clients true).stage = .joined ∧
      (s.clients true).inbox = [] ∧ s.broadcasts = [] := ⟨_, rfl, rfl, rfl, rfl⟩
  obtain ⟨s, hs, hjoined, hinbox, hbroadcasts⟩ := hrun
  have h := run_of_exec _ _ s hs
  exact ⟨s, h, joined_client_informed s h true hjoined hinbox hbroadcasts⟩

end

section
variable {κ U : Type} [DecidableEq κ] [SemilatticeSup U] [OrderBot U]
variable {s s' : State κ U} {e : Event κ U} {b : U}

/-- `b` bounds what the server has accepted and what the clients have yet to push. -/
structure Origin (s : State κ U) (b : U) : Prop where
  accepted : ∀ op ∈ s.accepted, op ≤ b
  outbox : ∀ i, ∀ op ∈ (s.clients i).outbox, op ≤ b

/-- `b` bounds what the server stores or relays and what the clients have or are sent. -/
structure Holds (s : State κ U) (b : U) : Prop where
  log : ∀ op ∈ s.log, op ≤ b
  broadcasts : ∀ f ∈ s.broadcasts, f.2 ≤ b
  snapshots : ∀ op ∈ s.snapshots, op ≤ b
  clients : ∀ i, (s.clients i).Below b

theorem Origin.setClient {i : κ} {c : Client U} (h : Origin (s.setClient i c) b)
    (hc : (∀ op ∈ c.outbox, op ≤ b) → ∀ op ∈ (s.clients i).outbox, op ≤ b) : Origin s b where
  accepted := h.accepted
  outbox j := by
    by_cases hj : j = i
    · subst hj
      exact hc (by simpa using h.outbox j)
    · simpa [setClient_other s i j c hj] using h.outbox j

theorem Holds.setClient (h : Holds s b) {i : κ} {c : Client U} (hc : c.Below b) : Holds (s.setClient i c) b where
  log := h.log
  broadcasts := h.broadcasts
  snapshots := h.snapshots
  clients j := by
    by_cases hj : j = i
    · subst hj
      rwa [setClient_self]
    · rw [setClient_other s i j c hj]
      exact h.clients j

theorem forall_concat {α : Type} {l : List α} {a : α} {p : α → Prop} (hl : ∀ x ∈ l, p x) (ha : p a) :
    ∀ x ∈ l ++ [a], p x :=
  List.forall_mem_append.2 ⟨hl, List.forall_mem_singleton.2 ha⟩

/-- A step gives nothing but what is accepted or is yet to be pushed. -/
theorem holds_step (h : step s e = some s') (hb : Origin s' b) : Origin s b ∧ (Holds s b → Holds s' b) := by
  cases e with
  | edit i op =>
    cases h
    refine ⟨hb.setClient fun hc u hu => hc u (List.mem_append_left _ hu), fun hs => hs.setClient ?_⟩
    exact ⟨sup_le (hs.clients i).replica (hb.outbox i op (by simp)), (hs.clients i).held, (hs.clients i).inbox⟩
  | append i push =>
    simp only [step] at h
    split at h
    · cases h
    · rename_i op hop
      cases h
      have hle : op ≤ b := hb.accepted op (by simp)
      have hout : ∀ (hc : ∀ u ∈ (s.clients i).outbox.eraseIdx push, u ≤ b), ∀ u ∈ (s.clients i).outbox, u ≤ b :=
        fun hc u hu => (mem_or_mem_eraseIdx hop hu).elim (fun heq => heq ▸ hle) (hc u)
      refine ⟨Origin.setClient ⟨fun u hu => hb.accepted u (List.mem_append_left _ hu), hb.outbox⟩ hout, fun hs => ?_⟩
      refine ⟨forall_concat hs.log hle, forall_concat hs.broadcasts hle, hs.snapshots, (hs.setClient ?_).clients⟩
      exact ⟨(hs.clients i).replica, (hs.clients i).held, (hs.clients i).inbox⟩
  | broadcast push =>
    simp only [step] at h
    split at h
    · cases h
    · rename_i sender op hk
      cases h
      refine ⟨⟨hb.accepted, fun i u hu => hb.outbox i u ?_⟩, fun hs => ⟨hs.log,
        fun f hf => hs.broadcasts f (List.mem_of_mem_eraseIdx hf), hs.snapshots, fun i => ?_⟩⟩
      all_goals dsimp only; obtain ⟨-, -, hr⟩ | ⟨-, hr⟩ := relay_cases sender op s.clients i <;> rw [hr]
      · exact hu
      · exact hu
      · exact ⟨(hs.clients i).replica, (hs.clients i).held,
          forall_concat (hs.clients i).inbox (hs.broadcasts _ (List.mem_of_getElem? hk))⟩
      · exact hs.clients i
  | joinRead i =>
    simp only [step] at h
    split at h <;> cases h
    refine ⟨hb.setClient id, fun hs => hs.setClient ?_⟩
    exact ⟨(hs.clients i).replica, (joinAll_le_iff _ _).2 hs.log, (hs.clients i).inbox⟩
  | joinSubscribe i =>
    simp only [step] at h
    split at h <;> cases h
    rename_i hst
    refine ⟨hb.setClient id, fun hs => hs.setClient ⟨(hs.clients i).replica, ?_, (hs.clients i).inbox⟩⟩
    exact (congrArg Stage.held hst).ge.trans (hs.clients i).held
  | joinSend i =>
    simp only [step] at h
    split at h <;> cases h
    rename_i hst
    refine ⟨hb.setClient id, fun hs => hs.setClient ⟨(hs.clients i).replica, bot_le, ?_⟩⟩
    exact forall_concat (hs.clients i).inbox ((congrArg Stage.held hst).ge.trans (hs.clients i).held)
  | deliver i message =>
    simp only [step] at h
    split at h
    · cases h
    · rename_i m hm
      cases h
      refine ⟨hb.setClient id, fun hs => hs.setClient ⟨?_, (hs.clients i).held, fun m' hm' => ?_⟩⟩
      · exact sup_le (hs.clients i).replica ((hs.clients i).inbox m (List.mem_of_getElem? hm))
      · exact (hs.clients i).inbox m' (List.mem_of_mem_eraseIdx hm')
  | snapshot i =>
    cases h
    exact ⟨⟨hb.accepted, hb.outbox⟩, fun hs =>
      ⟨hs.log, hs.broadcasts, forall_concat hs.snapshots (hs.clients i).replica, hs.clients⟩⟩
  | compact k =>
    simp only [step] at h
    split at h
    · cases h
    · rename_i bytes hk
      cases h
      refine ⟨⟨hb.accepted, hb.outbox⟩, fun hs => ⟨?_, hs.broadcasts,
        fun u hu => hs.snapshots u (List.mem_of_mem_eraseIdx hu), hs.clients⟩⟩
      exact List.forall_mem_singleton.2 (hs.snapshots bytes (List.mem_of_getElem? hk))
  | disconnect i =>
    cases h
    exact ⟨hb.setClient id, fun hs => hs.setClient ⟨(hs.clients i).replica, bot_le, by simp⟩⟩

theorem holds_run {ok : State κ U → Event κ U → Prop} (h : Run step ok init s) : ∀ b, Origin s b → Holds s b := by
  refine h.invariant (fun s => ∀ b, Origin s b → Holds s b) (fun b _ => ?_) fun s e s' ih _ hs b hb => ?_
  · exact ⟨by simp [init], by simp [init], by simp [init], fun i => ⟨bot_le, bot_le, by simp [init]⟩⟩
  · obtain ⟨hb₀, hstep⟩ := holds_step hs hb
    exact hstep (ih b hb₀)

/-- As long as no push falls into a join and no snapshot drops one: once all pushes are accepted and relayed,
the log and every joined client to which everything was delivered hold the same, all that was accepted. -/
theorem joined_clients_agree (s : State κ U) (h : Run step NoLoss init s) (hpushed : ∀ i, (s.clients i).outbox = [])
    (hbroadcasts : s.broadcasts = []) : joinAll s.log = joinAll s.accepted ∧
      ∀ i, (s.clients i).stage = .joined → (s.clients i).inbox = [] → (s.clients i).replica = joinAll s.accepted := by
  have hinf : Informed s :=
    h.invariant Informed init_informed fun s e s' hi hok hs => informed_step hi hok hs
  have hs : Holds s (joinAll s.accepted) :=
    holds_run h _ ⟨(joinAll_le_iff _ _).1 le_rfl, fun i op hop => by simp [hpushed i] at hop⟩
  refine ⟨le_antisymm ((joinAll_le_iff _ _).2 hs.log) hinf.complete, fun i hjoined hinbox => ?_⟩
  have hb : Bounds s i (s.clients i).replica :=
    ⟨⟨le_rfl, by simp [hjoined, Stage.held], by simp [hinbox]⟩, by simp [hbroadcasts]⟩
  refine le_antisymm (hs.clients i).replica ((joinAll_le_iff _ _).2 ?_)
  exact hinf.accepted i (by simp [hjoined, Stage.present]) _ hb

theorem joined_clients_agree_subscribed : ∃ s : State Bool Bool, Run step NoLoss init s ∧
    (s.clients true).replica = joinAll s.accepted := by
  have hrun : ∃ s : State Bool Bool, exec step NoLoss init pushAfterSubscription = some s ∧
      (∀ i, (s.clients i).outbox = []) ∧ s.broadcasts = [] ∧ (s.clients true).stage = .joined ∧
      (s.clients true).inbox = [] := ⟨_, rfl, by decide, rfl, rfl, rfl⟩
  obtain ⟨s, hs, hpushed, hbroadcasts, hjoined, hinbox⟩ := hrun
  have h := run_of_exec _ _ s hs
  exact ⟨s, h, (joined_clients_agree s h hpushed hbroadcasts).2 true hjoined hinbox⟩

end
end Savoire.Channel
