import Savoire.Text
import Savoire.Library.Transition

/-! The connection of a client to the hub of a vault: what the server has subscribed it to, and the three ways in
which it subscribes again. -/
namespace Savoire.HubClient
open Transition

/-- The directory of the vault, or a namespace. -/
abbrev Channel := Option Text

/-- `HubConnectionState` -/
inductive Link
  | disconnected | connecting | connected | disconnecting | reconnecting
  deriving DecidableEq

/-- `connectPromise`. Where the connection is neither started nor joined, its body ends before the promise is
stored, and nothing clears it any more (`ended`). -/
inductive Attempt
  | starting
  | joining (conn : Nat)
  | ended
  deriving DecidableEq

/-- A call of `joinIndex`: it waits for `connect`, then for the server. -/
inductive JoinStage
  | waiting (attempt : Option Nat)
  | joining (conn : Nat)
  deriving DecidableEq

structure IndexJoin where
  ns : Text
  stage : JoinStage
  deriving DecidableEq

/-- The handler of a reconnection. A call made without a connection fails. -/
inductive Rejoin
  | vault (conn : Nat)
  | index (n : Nat) (conn : Option Nat)
  deriving DecidableEq

/-- The connections are numbered by `conn`; `groups` is what the server sends the current one, and `refused`
records that it has refused it something. -/
structure Client where
  link : Link
  conn : Nat
  groups : List Channel
  refused : Bool
  authBlocked : Bool
  attempt : Nat
  connectPromise : Option Attempt
  indexCallbacks : List (Text × Nat)
  indexJoins : List IndexJoin
  rejoins : List Rejoin
  deriving DecidableEq

namespace Client
variable (s : Client)

/-- The connection of number `conn` is up. -/
def live (conn : Nat) : Bool := decide (s.link = .connected) && decide (s.conn = conn)

def connect : Client :=
  if s.authBlocked || decide (s.link = .connected) || s.connectPromise.isSome then s
  else if s.link = .disconnected then
    { s with link := .connecting, attempt := s.attempt + 1, connectPromise := some .starting }
  else { s with attempt := s.attempt + 1, connectPromise := some .ended }

/-- What a caller of `connect` waits for. -/
def awaited : Option Nat :=
  if s.authBlocked || decide (s.link = .connected) then none else some s.connect.attempt

def attemptDone (attempt : Nat) : Bool :=
  decide (attempt ≠ s.attempt) || decide (s.connectPromise = none) || decide (s.connectPromise = some .ended)

def blockOnUnauthorized : Client :=
  { s with authBlocked := true, link := if s.link = .disconnected then .disconnected else .disconnecting }

def blockIf (unauthorized : Bool) : Client := if unauthorized then s.blockOnUnauthorized else s

def join (channel : Channel) : Client := { s with groups := s.groups ++ [channel] }

/-- A call that fails while its connection is up is one that the server refuses. -/
def fail (conn : Nat) : Client := { s with refused := s.refused || s.live conn }

def connected : Client := { s with link := .connected, conn := s.conn + 1, groups := [], refused := false }

/-- `openIndex`: the channel subscribes, then joins. -/
def openIndex (ns : Text) : Client :=
  if ns ∈ s.indexCallbacks.map Prod.fst then s
  else { s.connect with
    indexCallbacks := s.indexCallbacks ++ [(ns, 1)]
    indexJoins := s.indexJoins ++ [⟨ns, .waiting s.awaited⟩] }

/-- The end of a subscription of `onIndexUpdate`. -/
def unsubscribe (ns : Text) : Client :=
  { s with indexCallbacks := s.indexCallbacks.map fun p => if p.1 = ns then (ns, p.2 - 1) else p }

/-- `rejoinIndexes`, from the `n`-th namespace on. -/
def rejoinNext (k n : Nat) : Client :=
  match (s.indexCallbacks.drop n).findIdx? fun p => decide (0 < p.2) with
  | some d =>
    { s with rejoins := s.rejoins.set k (.index (n + d) (if s.link = .connected then some s.conn else none)) }
  | none => { s with rejoins := s.rejoins.eraseIdx k }

end Client

inductive Event
  | connect
  | openIndex (ns : Text)
  | unsubscribe (ns : Text)
  | unblock
  | drop
  | closed (unauthorized : Bool)
  | reconnected
  | started (ok unauthorized : Bool)
  | vaultJoined (ok unauthorized : Bool)
  | resume (k : Nat)
  | indexJoined (k : Nat) (ok : Bool)
  | vaultRejoined (k : Nat) (ok unauthorized : Bool)
  | indexRejoined (k : Nat) (ok : Bool)
  deriving DecidableEq

def step (s : Client) : Event → Option Client
  | .connect => some s.connect
  | .openIndex ns => some (s.openIndex ns)
  | .unsubscribe ns => some (s.unsubscribe ns)
  | .unblock => some { s with authBlocked := false }
  | .drop => if s.link = .connected then some { s with link := .reconnecting } else none
  | .closed unauthorized =>
    if s.link = .disconnected ∨ s.link = .connecting then none
    else some ({ s with link := .disconnected : Client }.blockIf unauthorized)
  | .reconnected =>
    if s.link = .reconnecting then
      some { s.connected with rejoins := s.rejoins ++ [.vault (s.conn + 1)] }
    else none
  | .started ok unauthorized =>
    if s.connectPromise = some .starting then
      if ok then
        if s.link = .connecting then
          some { s.connected with connectPromise := some (.joining (s.conn + 1)) }
        else none
      else some ({ s with link := .disconnected, connectPromise := none : Client }.blockIf unauthorized)
    else none
  | .vaultJoined ok unauthorized => match s.connectPromise with
    | some (.joining conn) =>
      let s' : Client := { s with connectPromise := none }
      if ok then if s.live conn then some (s'.join none) else none
      else some ((s'.fail conn).blockIf unauthorized)
    | _ => none
  | .resume k => match s.indexJoins[k]? with
    | some ⟨ns, .waiting attempt⟩ =>
      if attempt.all s.attemptDone then
        if s.link = .connected then some { s with indexJoins := s.indexJoins.set k ⟨ns, .joining s.conn⟩ }
        else some { s with indexJoins := s.indexJoins.eraseIdx k }
      else none
    | _ => none
  | .indexJoined k ok => match s.indexJoins[k]? with
    | some ⟨ns, .joining conn⟩ =>
      let s' : Client := { s with indexJoins := s.indexJoins.eraseIdx k }
      if ok then if s.live conn then some (s'.join (some ns)) else none else some (s'.fail conn)
    | _ => none
  | .vaultRejoined k ok unauthorized => match s.rejoins[k]? with
    | some (.vault conn) =>
      if ok then if s.live conn then some ((s.join none).rejoinNext k 0) else none
      else some (({ s with rejoins := s.rejoins.eraseIdx k : Client }.fail conn).blockIf unauthorized)
    | _ => none
  | .indexRejoined k ok => match s.rejoins[k]? with
    | some (.index n conn) =>
      if ok then match conn, s.indexCallbacks[n]? with
        | some conn, some p => if s.live conn then some ((s.join (some p.1)).rejoinNext k (n + 1)) else none
        | _, _ => none
      else some ((conn.elim s s.fail).rejoinNext k (n + 1))
    | _ => none

def start : Client := ⟨.disconnected, 0, [], false, false, 0, none, [], [], []⟩

/-- No call of `connect`, no handler of a reconnection and no joining of a namespace goes on. -/
def Idle (s : Client) : Prop :=
  (s.connectPromise = none ∨ s.connectPromise = some .ended) ∧ s.indexJoins = [] ∧ s.rejoins = []

instance (s : Client) : Decidable (Idle s) := inferInstanceAs (Decidable (_ ∧ _))

/-- The vault, and the namespaces that have a subscriber. -/
def Wanted (s : Client) : Channel → Prop
  | none => True
  | some ns => ∃ p ∈ s.indexCallbacks, p.1 = ns ∧ 0 < p.2

instance (s : Client) : DecidablePred (Wanted s)
  | none => isTrue trivial
  | some ns => inferInstanceAs (Decidable (∃ p ∈ s.indexCallbacks, p.1 = ns ∧ 0 < p.2))

def Receives (s : Client) (channel : Channel) : Prop := s.link = .connected ∧ channel ∈ s.groups

def JoinStage.isWaiting : JoinStage → Bool
  | .waiting _ => true
  | .joining _ => false

/-- Where `connect` starts the connection, each namespace that has a subscriber has a `joinIndex` that waits
for it. -/
def Prepared (s : Client) : Event → Prop
  | .started true _ => ∀ p ∈ s.indexCallbacks, 0 < p.2 → ∃ j ∈ s.indexJoins, j.ns = p.1 ∧ j.stage.isWaiting = true
  | _ => True

def CoversVault (s : Client) : Prop :=
  none ∈ s.groups ∨ s.connectPromise = some (.joining s.conn) ∨ .vault s.conn ∈ s.rejoins

/-- The `m`-th namespace is joined, a `joinIndex` joins it, or a handler that has not passed it yet does. -/
def CoversIndex (s : Client) (m : Nat) (ns : Text) : Prop :=
  some ns ∈ s.groups ∨
    (∃ j ∈ s.indexJoins, j.ns = ns ∧ (j.stage.isWaiting = true ∨ j.stage = .joining s.conn)) ∨
    .vault s.conn ∈ s.rejoins ∨ ∃ n ≤ m, .index n (some s.conn) ∈ s.rejoins

structure Covers (s : Client) : Prop where
  vault : CoversVault s
  indexes : ∀ m ns n, s.indexCallbacks[m]? = some (ns, n) → 0 < n → CoversIndex s m ns

def Inv (s : Client) : Prop := s.link = .connected → s.refused = false → Covers s

section Steps
variable {s s' : Client} {k n m conn : Nat} {ns : Text}

theorem connect_of_link (h : s.connect.link = .connected) : s.connect = s := by
  unfold Client.connect at h ⊢
  split at h
  · rename_i hskip
    rw [if_pos hskip]
  · split at h
    · cases h
    · rename_i hskip _
      have hlink : s.link = .connected := h
      simp [hlink] at hskip

theorem blockIf_link {unauthorized : Bool} (h : (s.blockIf unauthorized).link = .connected) :
    s.blockIf unauthorized = s := by
  cases unauthorized with
  | false => rfl
  | true =>
    simp only [Client.blockIf, if_true, Client.blockOnUnauthorized] at h
    split at h <;> cases h

theorem Inv.connect (h : Inv s) : Inv s.connect := by
  intro hlink
  have hs := connect_of_link hlink
  rw [hs] at hlink ⊢
  exact h hlink

theorem Inv.blockIf (h : Inv s) (unauthorized : Bool) : Inv (s.blockIf unauthorized) := by
  intro hlink
  have hs := blockIf_link hlink
  rw [hs] at hlink ⊢
  exact h hlink

theorem Inv.openIndex (h : Inv s) (ns : Text) : Inv (s.openIndex ns) := by
  unfold Client.openIndex
  split
  · exact h
  · intro hlink href
    have hs : s.connect = s := connect_of_link hlink
    rw [hs] at hlink href ⊢
    obtain ⟨hvault, hindexes⟩ := h hlink href
    refine ⟨hvault, fun m ns' n hm hn => ?_⟩
    rcases Nat.lt_or_ge m s.indexCallbacks.length with hlt | hge
    · rw [List.getElem?_append_left hlt] at hm
      refine (hindexes m ns' n hm hn).imp_right (Or.imp_left ?_)
      rintro ⟨j, hj, hjns⟩
      exact ⟨j, List.mem_append_left _ hj, hjns⟩
    · rw [List.getElem?_append_right hge] at hm
      obtain ⟨rfl, -⟩ := Prod.mk.inj (List.mem_singleton.mp (List.mem_of_getElem? hm))
      exact .inr (.inl ⟨_, List.mem_append_right _ (List.mem_singleton.mpr rfl), rfl, .inl rfl⟩)

theorem Inv.unsubscribe (h : Inv s) (ns : Text) : Inv (s.unsubscribe ns) := by
  intro hlink href
  obtain ⟨hvault, hindexes⟩ := h hlink href
  refine ⟨hvault, fun m ns' n hm hn => ?_⟩
  rw [Client.unsubscribe, List.getElem?_map, Option.map_eq_some_iff] at hm
  obtain ⟨⟨ns₀, n₀⟩, hm, hp⟩ := hm
  split at hp
  · rename_i hns
    obtain ⟨rfl, rfl⟩ := Prod.mk.inj hp
    exact hindexes m ns n₀ (by rw [hm, show ns₀ = ns from hns]) (by omega)
  · obtain ⟨rfl, rfl⟩ := Prod.mk.inj hp
    exact hindexes m ns₀ n₀ hm hn

theorem Inv.of_covers (h : Covers s) : Inv s := fun _ _ => h

theorem Inv.started (hp : ∀ p ∈ s.indexCallbacks, 0 < p.2 → ∃ j ∈ s.indexJoins, j.ns = p.1 ∧ j.stage.isWaiting = true) :
    Inv { s.connected with connectPromise := some (.joining (s.conn + 1)) } :=
  .of_covers
    { vault := .inr (.inl rfl)
      indexes := fun m ns n hm hn => by
        obtain ⟨j, hj, hns, hw⟩ := hp (ns, n) (List.mem_of_getElem? hm) hn
        exact .inr (.inl ⟨j, hj, hns, .inl hw⟩) }

theorem Inv.reconnected (s : Client) : Inv { s.connected with rejoins := s.rejoins ++ [.vault (s.conn + 1)] } := by
  have hrejoin : Rejoin.vault (s.conn + 1) ∈ s.rejoins ++ [.vault (s.conn + 1)] :=
    List.mem_append_right _ (List.mem_singleton.mpr rfl)
  exact .of_covers ⟨.inr (.inr hrejoin), fun _ _ _ _ _ => .inr (.inr (.inl hrejoin))⟩

theorem Inv.resume (h : Inv s) {attempt : Option Nat} (hk : s.indexJoins[k]? = some ⟨ns, .waiting attempt⟩) :
    Inv { s with indexJoins := s.indexJoins.set k ⟨ns, .joining s.conn⟩ } := by
  intro hlink href
  obtain ⟨hvault, hindexes⟩ := h hlink href
  refine ⟨hvault, fun m ns' n hm hn => (hindexes m ns' n hm hn).imp_right (Or.imp_left ?_)⟩
  rintro ⟨j, hj, hjns, hstage⟩
  rcases mem_or_mem_set ⟨ns, .joining s.conn⟩ hk hj with rfl | hj
  · exact ⟨_, List.mem_set (List.getElem?_eq_some_iff.mp hk).1 _, hjns, .inr rfl⟩
  · exact ⟨j, hj, hjns, hstage⟩

theorem Inv.endJoin (h : Inv s) (hk : s.indexJoins[k]? = some ⟨ns, .joining conn⟩)
    {groups : List Channel} {refused : Bool} (hgroups : s.groups ⊆ groups)
    (hrefused : refused = false → s.refused = false)
    (hend : s.live conn = true → some ns ∈ groups ∨ refused = true) :
    Inv { s with indexJoins := s.indexJoins.eraseIdx k, groups, refused } := by
  intro hlink href
  obtain ⟨hvault, hindexes⟩ := h hlink (hrefused href)
  refine ⟨hvault.imp_left fun hg => hgroups hg, fun m ns' n hm hn => ?_⟩
  rcases hindexes m ns' n hm hn with hg | ⟨j, hj, hjns, hstage⟩ | hrest
  · exact .inl (hgroups hg)
  · rcases mem_or_mem_eraseIdx hk hj with rfl | hj
    · have hconn : conn = s.conn := by simpa [JoinStage.isWaiting] using hstage
      have hlive : s.live conn = true := by
        rw [hconn, Client.live, decide_eq_true rfl, Bool.and_true]
        exact decide_eq_true hlink
      refine .inl ((hend hlive).elim (fun hg => hjns ▸ hg) fun hr => ?_)
      cases hr.symm.trans href
    · exact .inr (.inl ⟨j, hj, hjns, hstage⟩)
  · exact .inr (.inr hrest)

theorem live_iff : s.live conn = true ↔ s.link = .connected ∧ s.conn = conn := by
  simp [Client.live]

theorem Inv.endConnect (h : Inv s) (hk : s.connectPromise = some (.joining conn))
    {groups : List Channel} {refused : Bool} (hgroups : s.groups ⊆ groups)
    (hrefused : refused = false → s.refused = false)
    (hend : s.live conn = true → none ∈ groups ∨ refused = true) :
    Inv { s with connectPromise := none, groups, refused } := by
  intro hlink href
  obtain ⟨hvault, hindexes⟩ := h hlink (hrefused href)
  refine ⟨?_, fun m ns n hm hn => (hindexes m ns n hm hn).imp_left fun hg => hgroups hg⟩
  rcases hvault with hg | hj | hr
  · exact .inl (hgroups hg)
  · obtain rfl : conn = s.conn := by simpa [hk] using hj
    refine .inl ((hend (live_iff.mpr ⟨hlink, rfl⟩)).elim id fun hr => ?_)
    cases hr.symm.trans href
  · exact .inr (.inr hr)

/-- What a handler of a reconnection stands for. -/
def Rejoin.Passes (r : Rejoin) (conn m : Nat) : Prop := r = .vault conn ∨ ∃ n ≤ m, r = .index n (some conn)

theorem coversIndex_iff {m : Nat} :
    CoversIndex s m ns ↔ some ns ∈ s.groups ∨
      (∃ j ∈ s.indexJoins, j.ns = ns ∧ (j.stage.isWaiting = true ∨ j.stage = .joining s.conn)) ∨
      ∃ r ∈ s.rejoins, r.Passes s.conn m := by
  refine or_congr_right (or_congr_right ⟨?_, ?_⟩)
  · rintro (hv | ⟨n, hn, hr⟩)
    · exact ⟨_, hv, .inl rfl⟩
    · exact ⟨_, hr, .inr ⟨n, hn, rfl⟩⟩
  · rintro ⟨r, hr, rfl | ⟨n, hn, rfl⟩⟩
    · exact .inl hr
    · exact .inr ⟨n, hn, hr⟩

theorem findIdx?_drop_le {α : Type*} {l : List α} {p : α → Bool} {n d m : Nat} {x : α}
    (hd : (l.drop n).findIdx? p = some d) (hm : l[m]? = some x) (hx : p x = true) (hnm : n ≤ m) : n + d ≤ m := by
  obtain ⟨_, -, hfirst⟩ := List.findIdx?_eq_some_iff_getElem.mp hd
  by_contra hlt
  have hdrop : (l.drop n)[m - n]? = some x := by rw [List.getElem?_drop, Nat.add_sub_cancel' hnm, hm]
  obtain ⟨_, heq⟩ := List.getElem?_eq_some_iff.mp hdrop
  have hnot := hfirst (m - n) (by omega)
  rw [heq] at hnot
  exact hnot hx

theorem findIdx?_drop_none {α : Type*} {l : List α} {p : α → Bool} {n m : Nat} {x : α}
    (hd : (l.drop n).findIdx? p = none) (hm : l[m]? = some x) (hnm : n ≤ m) : p x = false := by
  have hdrop : (l.drop n)[m - n]? = some x := by rw [List.getElem?_drop, Nat.add_sub_cancel' hnm, hm]
  exact List.findIdx?_eq_none_iff.mp hd x (List.mem_of_getElem? hdrop)

theorem Inv.rejoinNext {r : Rejoin} (hk : s.rejoins[k]? = some r) (h : Inv s)
    (hvault : s.link = .connected → s.refused = false → r = .vault s.conn → none ∈ s.groups)
    (hpassed : s.link = .connected → s.refused = false → ∀ m ns c, s.indexCallbacks[m]? = some (ns, c) →
      r.Passes s.conn m → some ns ∈ s.groups ∨ n ≤ m) : Inv (s.rejoinNext k n) := by
  have hrest (rejoins : List Rejoin) (hmem : ∀ r' ∈ s.rejoins, r' = r ∨ r' ∈ rejoins)
      (hnext : s.link = .connected → ∀ m ns c, s.indexCallbacks[m]? = some (ns, c) → 0 < c → n ≤ m →
        ∃ r' ∈ rejoins, r'.Passes s.conn m) : Inv { s with rejoins } := by
    intro hlink href
    obtain ⟨hv, hindexes⟩ := h hlink href
    refine ⟨?_, fun m ns c hm hc => ?_⟩
    · rcases hv with hg | hj | hr
      · exact .inl hg
      · exact .inr (.inl hj)
      · exact (hmem _ hr).elim (fun heq => .inl (hvault hlink href heq.symm)) fun hr => .inr (.inr hr)
    · rcases coversIndex_iff.mp (hindexes m ns c hm hc) with hg | hj | ⟨r', hr', hpass⟩
      · exact .inl hg
      · exact .inr (.inl hj)
      · rcases hmem r' hr' with rfl | hr'
        · rcases hpassed hlink href m ns c hm hpass with hg | hnm
          · exact .inl hg
          · exact coversIndex_iff.mpr (.inr (.inr (hnext hlink m ns c hm hc hnm)))
        · exact coversIndex_iff.mpr (.inr (.inr ⟨r', hr', hpass⟩))
  unfold Client.rejoinNext
  split
  · rename_i d hd
    refine hrest _ (fun r' hr' => mem_or_mem_set _ hk hr') fun hlink m ns c hm hc hnm => ?_
    have hnd : n + d ≤ m := findIdx?_drop_le hd hm (decide_eq_true hc) hnm
    rw [if_pos hlink]
    exact ⟨_, List.mem_set (List.getElem?_eq_some_iff.mp hk).1 _, .inr ⟨n + d, hnd, rfl⟩⟩
  · rename_i hnone
    refine hrest _ (fun r' hr' => mem_or_mem_eraseIdx hk hr') fun hlink m ns c hm hc hnm => ?_
    have hempty := findIdx?_drop_none hnone hm hnm
    rw [decide_eq_true hc] at hempty
    cases hempty

theorem Inv.fail (h : Inv s) (conn : Nat) : Inv (s.fail conn) := by
  intro hlink href
  obtain ⟨hv, hindexes⟩ := h hlink (Bool.or_eq_false_iff.mp href).1
  exact ⟨hv, hindexes⟩

theorem Inv.join (h : Inv s) (channel : Channel) : Inv (s.join channel) := by
  intro hlink href
  obtain ⟨hv, hindexes⟩ := h hlink href
  have hsub : s.groups ⊆ (s.join channel).groups := List.subset_append_left s.groups [channel]
  exact ⟨hv.imp_left fun hg => hsub hg, fun m ns n hm hn => (hindexes m ns n hm hn).imp_left fun hg => hsub hg⟩

theorem mem_join (s : Client) (channel : Channel) : channel ∈ (s.join channel).groups :=
  List.mem_append_right _ (List.mem_singleton.mpr rfl)

theorem Inv.endRejoin (h : Inv s) (hk : s.rejoins[k]? = some (.vault conn)) :
    Inv ({ s with rejoins := s.rejoins.eraseIdx k : Client }.fail conn) := by
  intro hlink href
  obtain ⟨href, hdown⟩ := Bool.or_eq_false_iff.mp href
  obtain ⟨hv, hindexes⟩ := h hlink href
  have hkeep : .vault s.conn ∈ s.rejoins → .vault s.conn ∈ s.rejoins.eraseIdx k := by
    intro hr
    rcases mem_or_mem_eraseIdx hk hr with heq | hr
    · obtain rfl := Rejoin.vault.inj heq
      cases hdown.symm.trans (live_iff.mpr ⟨hlink, rfl⟩)
    · exact hr
  refine ⟨hv.imp_right (Or.imp_right hkeep), fun m ns n hm hn => ?_⟩
  refine (hindexes m ns n hm hn).imp_right (Or.imp_right (Or.imp hkeep ?_))
  rintro ⟨i, hi, hr⟩
  rcases mem_or_mem_eraseIdx hk hr with heq | hr
  · cases heq
  · exact ⟨i, hi, hr⟩

theorem step_inv {e : Event} (h : Inv s) (hok : Prepared s e) (hstep : step s e = some s') : Inv s' := by
  cases e with
  | connect =>
    obtain rfl := Option.some.inj hstep
    exact h.connect
  | openIndex ns =>
    obtain rfl := Option.some.inj hstep
    exact h.openIndex ns
  | unsubscribe ns =>
    obtain rfl := Option.some.inj hstep
    exact h.unsubscribe ns
  | unblock =>
    obtain rfl := Option.some.inj hstep
    intro hlink href
    obtain ⟨hv, hindexes⟩ := h hlink href
    exact ⟨hv, hindexes⟩
  | drop =>
    simp only [step] at hstep
    obtain ⟨-, rfl⟩ := Option.ite_some_none_eq_some.1 hstep
    intro hlink
    cases hlink
  | closed unauthorized =>
    simp only [step] at hstep
    split at hstep
    · cases hstep
    · obtain rfl := Option.some.inj hstep
      exact Inv.blockIf (by intro hlink; cases hlink) unauthorized
  | reconnected =>
    simp only [step] at hstep
    obtain ⟨-, rfl⟩ := Option.ite_some_none_eq_some.1 hstep
    exact .reconnected s
  | started ok unauthorized =>
    simp only [step] at hstep
    split at hstep
    · split at hstep
      · rename_i hok'
        subst hok'
        obtain ⟨-, rfl⟩ := Option.ite_some_none_eq_some.1 hstep
        exact .started hok
      · obtain rfl := Option.some.inj hstep
        exact Inv.blockIf (by intro hlink; cases hlink) unauthorized
    · cases hstep
  | vaultJoined ok unauthorized =>
    simp only [step] at hstep
    split at hstep
    · rename_i conn hk
      split at hstep
      · obtain ⟨-, rfl⟩ := Option.ite_some_none_eq_some.1 hstep
        exact h.endConnect hk (List.subset_append_left _ _) id fun _ => .inl (mem_join s none)
      · obtain rfl := Option.some.inj hstep
        refine Inv.blockIf ?_ unauthorized
        exact h.endConnect hk (List.Subset.refl _) (fun hr => (Bool.or_eq_false_iff.mp hr).1)
          fun hlive => .inr (Bool.or_eq_true_iff.mpr (.inr hlive))
    · cases hstep
  | resume k =>
    simp only [step] at hstep
    split at hstep
    · rename_i ns attempt hk
      split at hstep
      · split at hstep
        · obtain rfl := Option.some.inj hstep
          exact h.resume hk
        · rename_i hlink
          obtain rfl := Option.some.inj hstep
          exact fun hup => absurd hup hlink
      · cases hstep
    · cases hstep
  | indexJoined k ok =>
    simp only [step] at hstep
    split at hstep
    · rename_i ns conn hk
      split at hstep
      · obtain ⟨-, rfl⟩ := Option.ite_some_none_eq_some.1 hstep
        exact h.endJoin hk (List.subset_append_left _ _) id fun _ => .inl (mem_join s (some ns))
      · obtain rfl := Option.some.inj hstep
        exact h.endJoin hk (List.Subset.refl _) (fun hr => (Bool.or_eq_false_iff.mp hr).1)
          fun hlive => .inr (Bool.or_eq_true_iff.mpr (.inr hlive))
    · cases hstep
  | vaultRejoined k ok unauthorized =>
    simp only [step] at hstep
    split at hstep
    · rename_i conn hk
      split at hstep
      · obtain ⟨-, rfl⟩ := Option.ite_some_none_eq_some.1 hstep
        exact (h.join none).rejoinNext hk (fun _ _ _ => mem_join s none) fun _ _ m _ _ _ _ => .inr (Nat.zero_le m)
      · obtain rfl := Option.some.inj hstep
        exact (h.endRejoin hk).blockIf unauthorized
    · cases hstep
  | indexRejoined k ok =>
    simp only [step] at hstep
    split at hstep
    · rename_i n conn hk
      split at hstep
      · split at hstep
        · rename_i conn p hp
          obtain ⟨-, rfl⟩ := Option.ite_some_none_eq_some.1 hstep
          refine (h.join (some p.1)).rejoinNext hk (fun _ _ heq => by cases heq) fun _ _ m ns c hm hpass => ?_
          rcases hpass with heq | ⟨i, hi, heq⟩
          · cases heq
          · obtain ⟨rfl, -⟩ := Rejoin.index.inj heq
            rcases Nat.eq_or_lt_of_le hi with rfl | hlt
            · obtain rfl : p = (ns, c) := Option.some.inj (hp.symm.trans hm)
              exact .inl (mem_join s (some ns))
            · exact .inr hlt
        · cases hstep
      · obtain rfl := Option.some.inj hstep
        cases conn with
        | none =>
          refine h.rejoinNext hk (fun _ _ heq => by cases heq) fun _ _ m ns c hm hpass => ?_
          rcases hpass with heq | ⟨i, hi, heq⟩
          · cases heq
          · cases heq
        | some conn =>
          refine (h.fail conn).rejoinNext hk (fun _ _ heq => by cases heq) fun hlink href m ns c hm hpass => ?_
          rcases hpass with heq | ⟨i, hi, heq⟩
          · cases heq
          · obtain ⟨-, hconn⟩ := Rejoin.index.inj heq
            have hlive : s.live conn = true := live_iff.mpr ⟨hlink, (Option.some.inj hconn).symm⟩
            cases (Bool.or_eq_false_iff.mp href).2.symm.trans hlive
    · cases hstep

theorem start_inv : Inv start := by
  intro hlink
  cases hlink

end Steps

instance (s : Client) : DecidablePred (Prepared s)
  | .started true _ => inferInstanceAs (Decidable (∀ p ∈ s.indexCallbacks, 0 < p.2 → _))
  | .started false _ | .connect | .openIndex _ | .unsubscribe _ | .unblock | .drop | .closed _ | .reconnected
  | .vaultJoined .. | .resume _ | .indexJoined .. | .vaultRejoined .. | .indexRejoined .. => isTrue trivial

/-- A client whose connection is up, and that has nothing left to join and was refused nothing, receives what is
pushed on the vault and on each namespace that it subscribes to. -/
theorem connected_subscribed (s : Client) (hrun : Run step Prepared start s) (hlink : s.link = .connected)
    (hidle : Idle s) (href : s.refused = false) (channel : Channel) (hwanted : Wanted s channel) :
    Receives s channel := by
  have hinv := hrun.invariant Inv start_inv fun _ _ _ h hok hstep => step_inv h hok hstep
  obtain ⟨hconn, hjoins, hrejoins⟩ := hidle
  obtain ⟨hvault, hindexes⟩ := hinv hlink href
  refine ⟨hlink, ?_⟩
  cases channel with
  | none =>
    rcases hvault with hg | hj | hr
    · exact hg
    · simp [hj] at hconn
    · simp [hrejoins] at hr
  | some ns =>
    obtain ⟨⟨_, n⟩, hp, rfl, hn⟩ := hwanted
    obtain ⟨m, hm⟩ := List.mem_iff_getElem?.mp hp
    rcases hindexes m _ n hm hn with hg | ⟨j, hj, -⟩ | hr | ⟨i, -, hr⟩
    · exact hg
    · simp [hjoins] at hj
    · simp [hrejoins] at hr
    · simp [hrejoins] at hr

/-- Two namespaces, one opened before the connection and one after, and an automatic reconnection. -/
theorem connected_subscribed_reconnected :
    ∃ s, Idle s ∧ s.conn = 2 ∧ Receives s none ∧ Receives s (some ['a']) ∧ Receives s (some ['b']) := by
  have hrun : Run step Prepared start _ := run_of_exec
    [.openIndex ['a'], .started true false, .vaultJoined true false, .resume 0, .indexJoined 0 true, .openIndex ['b'],
      .resume 0, .drop, .reconnected, .indexJoined 0 false, .vaultRejoined 0 true false, .indexRejoined 0 true,
      .indexRejoined 0 true] _ _ rfl
  have hsub := connected_subscribed _ hrun rfl (by decide +kernel) rfl
  exact ⟨_, by decide +kernel, rfl, hsub _ trivial, hsub _ (by decide +kernel),
    hsub _ (by decide +kernel)⟩

/-- The automatic reconnection gives up, and a later call starts the connection again. -/
theorem restart_unsubscribed :
    ¬ ∀ s, Run step (fun _ _ => True) start s → s.link = .connected → Idle s → s.refused = false →
      ∀ channel, Wanted s channel → Receives s channel := by
  intro h
  have hrun : Run step (fun _ _ => True) start _ := run_of_exec
    [.connect, .started true false, .vaultJoined true false, .openIndex ['a'], .resume 0, .indexJoined 0 true, .drop,
      .closed false, .connect, .started true false, .vaultJoined true false] _ _ rfl
  have hreceives := h _ hrun rfl (by decide +kernel) rfl (some ['a']) (by decide +kernel)
  have hgroups := hreceives.2
  revert hgroups
  decide +kernel

end Savoire.HubClient
