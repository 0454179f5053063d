import Mathlib.Data.List.Basic
import Mathlib.Logic.Function.Basic
import Savoire.Library.Transition

/-! The room registry of the edge-sync hub: three concurrent dictionaries, changed one operation at a
time by the methods of all connections. A room and the set of a connection's vaults are objects: a
method can hold one that is no longer in its dictionary. `joined`, `gone` and `winners` only record
what happened. -/
set_option linter.unusedSectionVars false

namespace Savoire.EdgeRooms
open Transition

/-- A method in progress, at its next dictionary operation, with what it has read. -/
inductive Method (γ ν : Type)
  | joinRoom (connection : γ) (vaultId : ν)
  | joinKeys (connection : γ) (vaultId : ν) (room : Nat)
  | joinInsert (connection : γ) (vaultId : ν) (room : Nat)
  | joinVaults (connection : γ) (vaultId : ν)
  | joinRecord (connection : γ) (vaultId : ν) (vaults : Nat)
  | claimRoom (connection : γ) (vaultId : ν)
  | claimMember (connection : γ) (vaultId : ν) (room : Nat)
  | claimAdd (connection : γ) (vaultId : ν)
  | leave (connection : γ)
  | leaveKeys (connection : γ) (vaults : Nat)
  | leaveVault (connection : γ) (rest : List ν)
  | leaveRemove (connection : γ) (vaultId : ν) (room : Nat) (rest : List ν)
  | leaveEmpty (connection : γ) (vaultId : ν) (room : Nat) (rest : List ν)
  | leaveDrop (connection : γ) (vaultId : ν) (rest : List ν)
  | leaveOwner (connection : γ) (vaultId : ν) (rest : List ν)
  | leaveRelease (connection : γ) (vaultId : ν) (rest : List ν)

structure State (γ ν : Type) where
  rooms : ν → Option Nat
  members : Nat → List γ
  nextRoom : Nat
  vaultsByConnection : γ → Option Nat
  vaults : Nat → List ν
  nextVaults : Nat
  owners : ν → Option γ
  methods : Nat → Option (Method γ ν)
  started : Nat
  /-- `Join` has returned. -/
  joined : γ → ν → Bool
  /-- `OnDisconnectedAsync` has begun. -/
  gone : γ → Bool
  /-- The claims that were granted. -/
  winners : List (ν × γ)

inductive Event (γ ν : Type)
  | join (connection : γ) (vaultId : ν)
  | claimOwner (connection : γ) (vaultId : ν)
  | disconnect (connection : γ)
  | run (method : Nat)

section
variable {γ ν : Type} [DecidableEq γ] [DecidableEq ν]

/-- `dictionary[key] = 1` -/
def insertKey {α : Type} [DecidableEq α] (key : α) (keys : List α) : List α :=
  if key ∈ keys then keys else keys ++ [key]

/-- `dictionary.TryRemove(key)` -/
def removeKey {α : Type} [DecidableEq α] (key : α) (keys : List α) : List α := keys.filter (· ≠ key)

def State.become (s : State γ ν) (n : Nat) (m : Option (Method γ ν)) : State γ ν :=
  { s with methods := Function.update s.methods n m }

def State.start (s : State γ ν) (m : Method γ ν) : State γ ν :=
  { s with methods := Function.update s.methods s.started (some m), started := s.started + 1 }

def advance (s : State γ ν) (n : Nat) : Method γ ν → State γ ν
  | .joinRoom c v => match s.rooms v with
    | some room => s.become n (some (.joinKeys c v room))
    | none => { s.become n (some (.joinKeys c v s.nextRoom)) with
        rooms := Function.update s.rooms v (some s.nextRoom)
        members := Function.update s.members s.nextRoom [], nextRoom := s.nextRoom + 1 }
  | .joinKeys c v room => s.become n (some (.joinInsert c v room))
  | .joinInsert c v room => { s.become n (some (.joinVaults c v)) with
      members := Function.update s.members room (insertKey c (s.members room)) }
  | .joinVaults c v => match s.vaultsByConnection c with
    | some vaults => s.become n (some (.joinRecord c v vaults))
    | none => { s.become n (some (.joinRecord c v s.nextVaults)) with
        vaultsByConnection := Function.update s.vaultsByConnection c (some s.nextVaults)
        vaults := Function.update s.vaults s.nextVaults [], nextVaults := s.nextVaults + 1 }
  | .joinRecord c v vaults => { s.become n none with
      vaults := Function.update s.vaults vaults (insertKey v (s.vaults vaults))
      joined := Function.update s.joined c (Function.update (s.joined c) v true) }
  | .claimRoom c v => match s.rooms v with
    | none => s.become n none
    | some room => s.become n (some (.claimMember c v room))
  | .claimMember c v room => s.become n (if c ∈ s.members room then some (.claimAdd c v) else none)
  | .claimAdd c v => match s.owners v with
    | some _ => s.become n none
    | none => { s.become n none with
        owners := Function.update s.owners v (some c), winners := s.winners ++ [(v, c)] }
  | .leave c => match s.vaultsByConnection c with
    | none => s.become n none
    | some vaults => { s.become n (some (.leaveKeys c vaults)) with
        vaultsByConnection := Function.update s.vaultsByConnection c none }
  | .leaveKeys c vaults => s.become n (some (.leaveVault c (s.vaults vaults)))
  | .leaveVault _ [] => s.become n none
  | .leaveVault c (v :: rest) => match s.rooms v with
    | some room => s.become n (some (.leaveRemove c v room rest))
    | none => s.become n (some (.leaveOwner c v rest))
  | .leaveRemove c v room rest => { s.become n (some (.leaveEmpty c v room rest)) with
      members := Function.update s.members room (removeKey c (s.members room)) }
  | .leaveEmpty c v room rest =>
    s.become n (some (if s.members room = [] then .leaveDrop c v rest else .leaveOwner c v rest))
  | .leaveDrop c v rest => { s.become n (some (.leaveOwner c v rest)) with
      rooms := Function.update s.rooms v none }
  | .leaveOwner c v rest =>
    s.become n (some (if s.owners v = some c then .leaveRelease c v rest else .leaveVault c rest))
  | .leaveRelease c v rest => { s.become n (some (.leaveVault c rest)) with
      owners := Function.update s.owners v none }

/-- A connection calls methods until it goes. -/
def step (s : State γ ν) : Event γ ν → Option (State γ ν)
  | .join c v => if s.gone c then none else some (s.start (.joinRoom c v))
  | .claimOwner c v => if s.gone c then none else some (s.start (.claimRoom c v))
  | .disconnect c => if s.gone c then none else
    some { s.start (.leave c) with gone := Function.update s.gone c true }
  | .run n => (s.methods n).map (advance s n)

def init : State γ ν where
  rooms := fun _ => none
  members := fun _ => []
  nextRoom := 0
  vaultsByConnection := fun _ => none
  vaults := fun _ => []
  nextVaults := 0
  owners := fun _ => none
  methods := fun _ => none
  started := 0
  joined := fun _ _ => false
  gone := fun _ => false
  winners := []

/-- A `Join` of this connection. -/
def Method.joins (c : γ) : Method γ ν → Bool
  | .joinRoom c' _ | .joinKeys c' _ _ | .joinInsert c' _ _ | .joinVaults c' _ | .joinRecord c' _ _ => c' = c
  | _ => false

/-- A `Join` that has its room and is not in it yet. -/
def Method.enters (v : ν) : Method γ ν → Bool
  | .joinKeys _ v' _ | .joinInsert _ v' _ => v' = v
  | _ => false

def State.inRoom (s : State γ ν) (c : γ) (v : ν) : Bool := match s.rooms v with
  | some room => c ∈ s.members room
  | none => false

/-- No connection goes during one of its joins; a room found empty is removed while it is still empty
and nobody is about to enter it; a claim is granted to a connection that is still in the room. -/
def Undisturbed (s : State γ ν) : Event γ ν → Prop
  | .disconnect c => ∀ n < s.started, (s.methods n).all fun m => !m.joins c
  | .run n => match s.methods n with
    | some (.leaveDrop _ v _) => (∀ room ∈ s.rooms v, s.members room = []) ∧
        ∀ k < s.started, (s.methods k).all fun m => !m.enters v
    | some (.claimAdd c v) => s.inRoom c v
    | _ => True
  | _ => True

instance (s : State γ ν) : (e : Event γ ν) → Decidable (Undisturbed s e)
  | .disconnect c => by
    unfold Undisturbed
    infer_instance
  | .run n => by
    unfold Undisturbed
    dsimp only
    split <;> infer_instance
  | .join .. | .claimOwner .. => isTrue trivial

/-- An `OnDisconnectedAsync` of this connection. -/
def Method.leaves (c : γ) : Method γ ν → Bool
  | .leave c' | .leaveKeys c' _ | .leaveVault c' _ | .leaveRemove c' _ _ _ | .leaveEmpty c' _ _ _
  | .leaveDrop c' _ _ | .leaveOwner c' _ _ | .leaveRelease c' _ _ => c' = c
  | _ => false

/-- A `Join` that is about to be in the room, or is in it. -/
def Method.entering (c : γ) (v : ν) : Method γ ν → Bool
  | .joinInsert c' v' _ | .joinVaults c' v' | .joinRecord c' v' _ => c' = c ∧ v' = v
  | _ => false

def Method.owesRoom (s : State γ ν) (c : γ) (v : ν) : Method γ ν → Prop
  | .leave c' => c' = c ∧ ∃ vaults, s.vaultsByConnection c = some vaults ∧ v ∈ s.vaults vaults
  | .leaveKeys c' vaults => c' = c ∧ v ∈ s.vaults vaults
  | .leaveVault c' rest => c' = c ∧ v ∈ rest
  | .leaveRemove c' v' _ rest => c' = c ∧ (v = v' ∨ v ∈ rest)
  | .leaveEmpty c' _ _ rest | .leaveDrop c' _ rest | .leaveOwner c' _ rest | .leaveRelease c' _ rest =>
    c' = c ∧ v ∈ rest
  | _ => False

/-- The claim of the connection on this vault will still be looked at. -/
def Method.owesOwner (s : State γ ν) (c : γ) (v : ν) : Method γ ν → Prop
  | .leaveEmpty c' v' _ rest | .leaveDrop c' v' rest | .leaveOwner c' v' rest | .leaveRelease c' v' rest =>
    c' = c ∧ (v = v' ∨ v ∈ rest)
  | m => m.owesRoom s c v

/-- What a method has read is still so, as far as it relies on it. -/
def Method.OK (s : State γ ν) : Method γ ν → Prop
  | .joinKeys _ v room | .joinInsert _ v room => s.rooms v = some room
  | .joinVaults c v => s.inRoom c v
  | .joinRecord c v vaults => s.inRoom c v ∧ s.vaultsByConnection c = some vaults
  | .leaveKeys _ vaults => vaults < s.nextVaults
  | .leaveRemove c v room _ => ∀ room' ∈ s.rooms v, c ∈ s.members room' → room' = room
  | .leaveRelease c v _ => s.owners v = some c
  | _ => True

structure Inv (s : State γ ν) : Prop where
  idle : ∀ n, s.started ≤ n → s.methods n = none
  roomLt : ∀ v room, s.rooms v = some room → room < s.nextRoom
  roomInj : ∀ v v' room, s.rooms v = some room → s.rooms v' = some room → v = v'
  vaultsLt : ∀ c vaults, s.vaultsByConnection c = some vaults → vaults < s.nextVaults
  methods : ∀ n m, s.methods n = some m → m.OK s
  joining : ∀ n m c, s.methods n = some m → m.joins c → s.gone c = false
  leaving : ∀ n m c, s.methods n = some m → m.leaves c → s.gone c = true
  alone : ∀ n n' m m' c, s.methods n = some m → s.methods n' = some m' → m.leaves c → m'.leaves c → n = n'
  here : ∀ c v, s.gone c = false → s.inRoom c v →
    s.joined c v ∨ ∃ n m, s.methods n = some m ∧ m.entering c v
  entered : ∀ c v, s.gone c = false → s.joined c v → s.inRoom c v ∧
    ∃ vaults, s.vaultsByConnection c = some vaults ∧ v ∈ s.vaults vaults
  removal : ∀ c v, s.gone c = true → s.inRoom c v → ∃ n m, s.methods n = some m ∧ m.owesRoom s c v
  owner : ∀ c v, s.owners v = some c → s.gone c = false ∧ s.inRoom c v ∨
    s.gone c = true ∧ ∃ n m, s.methods n = some m ∧ m.owesOwner s c v
  winners : ∀ v c, (v, c) ∈ s.winners → s.gone c = true ∨ s.owners v = some c
  granted : s.winners.Pairwise fun a b => a.1 = b.1 → s.gone a.2 = true

section
variable {s : State γ ν} {n k : Nat} {m m' : Method γ ν} {next : Option (Method γ ν)} {c : γ} {v : ν}

theorem inRoom_iff : s.inRoom c v = true ↔ ∃ room, s.rooms v = some room ∧ c ∈ s.members room := by
  unfold State.inRoom
  cases s.rooms v with
  | none => simp
  | some room => simp

theorem not_inRoom (h : s.rooms v = none) : s.inRoom c v = false := by
  unfold State.inRoom
  rw [h]

theorem owesOwner_of_owesRoom (h : m.owesRoom s c v) : m.owesOwner s c v := by
  cases m with
  | leaveEmpty | leaveDrop | leaveOwner | leaveRelease => exact ⟨h.1, .inr h.2⟩
  | _ => exact h

theorem methods_become (h : (s.become n next).methods k = some m) :
    k = n ∧ m ∈ next ∨ k ≠ n ∧ s.methods k = some m := by
  by_cases hk : k = n
  · subst hk
    exact .inl ⟨rfl, by simpa [State.become] using h⟩
  · exact .inr ⟨hk, by simpa [State.become, Function.update_of_ne hk] using h⟩

theorem running_become {P : Method γ ν → Prop} (hm : s.methods n = some m)
    (hnext : P m → ∃ m' ∈ next, P m') (h : ∃ k m', s.methods k = some m' ∧ P m') :
    ∃ k m', (s.become n next).methods k = some m' ∧ P m' := by
  obtain ⟨k, m', hk, hp⟩ := h
  by_cases hkn : k = n
  · subst hkn
    obtain rfl : m = m' := by simpa [hm] using hk
    obtain ⟨m', hm', hp'⟩ := hnext hp
    exact ⟨k, m', by simpa [State.become] using hm', hp'⟩
  · exact ⟨k, m', by simpa [State.become, Function.update_of_ne hkn] using hk, hp⟩

theorem Inv.move (h : Inv s) (hm : s.methods n = some m) (next : Option (Method γ ν))
    (hok : ∀ m' ∈ next, m'.OK s)
    (hjoins : ∀ m' ∈ next, ∀ c, m'.joins c → m.joins c)
    (hleaves : ∀ m' ∈ next, ∀ c, m'.leaves c → m.leaves c)
    (hentering : ∀ c v, m.entering c v → s.joined c v ∨ ∃ m' ∈ next, m'.entering c v)
    (howes : ∀ c v, m.owesRoom s c v → s.inRoom c v → ∃ m' ∈ next, m'.owesRoom s c v)
    (howner : ∀ c v, m.owesOwner s c v → s.owners v = some c → ∃ m' ∈ next, m'.owesOwner s c v) :
    Inv (s.become n next) where
  idle := by
    intro k hk
    have hne : k ≠ n := by
      rintro rfl
      rw [h.idle k hk] at hm
      cases hm
    simpa [State.become, Function.update_of_ne hne] using h.idle k hk
  __ := h
  methods := by
    intro k m' hk
    obtain ⟨rfl, hnext⟩ | ⟨-, hk⟩ := methods_become hk
    · exact hok m' hnext
    · exact h.methods k m' hk
  joining := by
    intro k m' c hk hc
    obtain ⟨rfl, hnext⟩ | ⟨-, hk⟩ := methods_become hk
    · exact h.joining k m c hm (hjoins m' hnext c hc)
    · exact h.joining k m' c hk hc
  leaving := by
    intro k m' c hk hc
    obtain ⟨rfl, hnext⟩ | ⟨-, hk⟩ := methods_become hk
    · exact h.leaving k m c hm (hleaves m' hnext c hc)
    · exact h.leaving k m' c hk hc
  alone := by
    intro k k' m₁ m₂ c hk hk' hc hc'
    obtain ⟨rfl, hnext⟩ | ⟨-, hold⟩ := methods_become hk
    · obtain ⟨rfl, -⟩ | ⟨-, hk'⟩ := methods_become hk'
      · rfl
      · exact h.alone _ _ m m₂ c hm hk' (hleaves m₁ hnext c hc) hc'
    · obtain ⟨rfl, hnext⟩ | ⟨-, hk'⟩ := methods_become hk'
      · exact h.alone _ _ m₁ m c hold hm hc (hleaves m₂ hnext c hc')
      · exact h.alone _ _ m₁ m₂ c hold hk' hc hc'
  here := by
    intro c v hc hin
    obtain hjoined | hrun := h.here c v hc hin
    · exact .inl hjoined
    · by_cases hj : s.joined c v = true
      · exact .inl hj
      · exact .inr (running_become hm (fun he => (hentering c v he).resolve_left hj) hrun)
  removal := by
    intro c v hc hin
    exact running_become hm (fun ho => howes c v ho hin) (h.removal c v hc hin)
  owner := by
    intro c v ho
    exact (h.owner c v ho).imp id fun hrun => ⟨hrun.1, running_become hm (howner c v · ho) hrun.2⟩

theorem Inv.change (h : Inv s) (rooms : ν → Option Nat) (members : Nat → List γ) (nextRoom : Nat)
    (hlt : ∀ v room, rooms v = some room → room < nextRoom)
    (hinj : ∀ v v' room, rooms v = some room → rooms v' = some room → v = v')
    (hok : ∀ k m, s.methods k = some m → m.OK { s with rooms := rooms, members := members, nextRoom := nextRoom })
    (hgrow : ∀ c v, State.inRoom { s with rooms := rooms, members := members, nextRoom := nextRoom } c v →
      s.inRoom c v ∨ s.gone c = false ∧ ∃ k m, s.methods k = some m ∧ m.entering c v)
    (hkeep : ∀ c v, s.gone c = false → s.inRoom c v →
      State.inRoom { s with rooms := rooms, members := members, nextRoom := nextRoom } c v) :
    Inv { s with rooms := rooms, members := members, nextRoom := nextRoom } where
  __ := h
  roomLt := hlt
  roomInj := hinj
  methods := hok
  here := by
    intro c v hc hin
    obtain hin | ⟨-, hrun⟩ := hgrow c v hin
    · exact h.here c v hc hin
    · exact .inr hrun
  entered := fun c v hc hj => ⟨hkeep c v hc (h.entered c v hc hj).1, (h.entered c v hc hj).2⟩
  removal := by
    intro c v hc hin
    obtain hin | ⟨hhere, -⟩ := hgrow c v hin
    · obtain ⟨k, m, hk, ho⟩ := h.removal c v hc hin
      exact ⟨k, m, hk, by cases m <;> exact ho⟩
    · have hgone : s.gone c = true := hc
      rw [hhere] at hgone
      cases hgone
  owner := by
    intro c v ho
    obtain ⟨hc, hin⟩ | ⟨hc, k, m, hk, ho⟩ := h.owner c v ho
    · exact .inl ⟨hc, hkeep c v hc hin⟩
    · exact .inr ⟨hc, k, m, hk, by cases m <;> exact ho⟩

/-- A room is made for a vault without one. -/
theorem Inv.newRoom (h : Inv s) (hv : s.rooms v = none) :
    Inv { s with
      rooms := Function.update s.rooms v (some s.nextRoom)
      members := Function.update s.members s.nextRoom [], nextRoom := s.nextRoom + 1 } := by
  have hold : ∀ v' room, v' ≠ v → Function.update s.rooms v (some s.nextRoom) v' = some room →
      s.rooms v' = some room ∧ room ≠ s.nextRoom := by
    intro v' room hne hroom
    rw [Function.update_of_ne hne] at hroom
    exact ⟨hroom, Nat.ne_of_lt (h.roomLt v' room hroom)⟩
  have hin : ∀ c v', State.inRoom { s with
      rooms := Function.update s.rooms v (some s.nextRoom)
      members := Function.update s.members s.nextRoom [], nextRoom := s.nextRoom + 1 } c v' = s.inRoom c v' := by
    intro c v'
    by_cases hne : v' = v
    · subst hne
      simp [State.inRoom, hv]
    · cases hroom : s.rooms v' with
      | none => simp [State.inRoom, Function.update_of_ne hne, hroom]
      | some room =>
        have hlt := Nat.ne_of_lt (h.roomLt v' room hroom)
        simp [State.inRoom, Function.update_of_ne hne, hroom, Function.update_of_ne hlt]
  refine h.change _ _ _ ?_ ?_ ?_ (fun c v' hroom => .inl ((hin c v').symm.trans hroom))
    fun c v' _ hroom => (hin c v').trans hroom
  · intro v' room hroom
    by_cases hne : v' = v
    · subst hne
      rw [Function.update_self] at hroom
      have := Option.some.inj hroom
      omega
    · have := h.roomLt v' room (hold v' room hne hroom).1
      omega
  · intro v₁ v₂ room h₁ h₂
    by_cases hne₁ : v₁ = v
    · by_cases hne₂ : v₂ = v
      · rw [hne₁, hne₂]
      · rw [hne₁, Function.update_self] at h₁
        exact absurd (Option.some.inj h₁).symm (hold v₂ room hne₂ h₂).2
    · by_cases hne₂ : v₂ = v
      · rw [hne₂, Function.update_self] at h₂
        exact absurd (Option.some.inj h₂).symm (hold v₁ room hne₁ h₁).2
      · exact h.roomInj v₁ v₂ room (hold v₁ room hne₁ h₁).1 (hold v₂ room hne₂ h₂).1
  · intro k m hk
    have hok := h.methods k m hk
    cases m with
    | joinKeys c v' room | joinInsert c v' room =>
      have hne : v' ≠ v := by
        rintro rfl
        rw [Method.OK, hv] at hok
        cases hok
      simpa [Method.OK, Function.update_of_ne hne] using hok
    | joinVaults c v' => exact (hin c v').trans hok
    | joinRecord c v' vaults => exact ⟨(hin c v').trans hok.1, hok.2⟩
    | leaveRemove c v' room rest =>
      intro room' hroom' hmem
      dsimp only at hroom' hmem
      by_cases hne : v' = v
      · subst hne
        rw [Function.update_self] at hroom'
        obtain rfl := Option.some.inj hroom'
        simp at hmem
      · obtain ⟨hroom', hlt⟩ := hold v' room' hne hroom'
        rw [Function.update_of_ne hlt] at hmem
        exact hok room' hroom' hmem
    | _ => exact hok

theorem Inv.dropRoom (h : Inv s) (hempty : ∀ room ∈ s.rooms v, s.members room = [])
    (hfree : ∀ k m, s.methods k = some m → m.enters v = false) :
    Inv { s with rooms := Function.update s.rooms v none } := by
  have hold : ∀ v' room, Function.update s.rooms v none v' = some room → v' ≠ v ∧ s.rooms v' = some room := by
    intro v' room hroom
    by_cases hne : v' = v
    · subst hne
      simp at hroom
    · exact ⟨hne, by rwa [Function.update_of_ne hne] at hroom⟩
  have hin : ∀ c v', State.inRoom { s with rooms := Function.update s.rooms v none } c v' = s.inRoom c v' := by
    intro c v'
    by_cases hne : v' = v
    · subst hne
      cases hroom : s.rooms v' with
      | none => simp [State.inRoom, hroom]
      | some room => simp [State.inRoom, hroom, hempty room hroom]
    · simp [State.inRoom, Function.update_of_ne hne]
  refine h.change _ _ _ (fun v' room hroom => h.roomLt v' room (hold v' room hroom).2)
    (fun v₁ v₂ room h₁ h₂ => h.roomInj v₁ v₂ room (hold v₁ room h₁).2 (hold v₂ room h₂).2) ?_
    (fun c v' hroom => .inl ((hin c v').symm.trans hroom)) fun c v' _ hroom => (hin c v').trans hroom
  intro k m hk
  have hok := h.methods k m hk
  cases m with
  | joinKeys c v' room | joinInsert c v' room =>
    have hne : v' ≠ v := by
      have hf := hfree k _ hk
      simpa [Method.enters] using hf
    simpa [Method.OK, Function.update_of_ne hne] using hok
  | joinVaults c v' => exact (hin c v').trans hok
  | joinRecord c v' vaults => exact ⟨(hin c v').trans hok.1, hok.2⟩
  | leaveRemove c v' room rest => exact fun room' hroom' => hok room' (hold v' room' hroom').2
  | _ => exact hok

theorem mem_insertKey {α : Type} [DecidableEq α] {a key : α} {keys : List α} :
    a ∈ insertKey key keys ↔ a = key ∨ a ∈ keys := by
  unfold insertKey
  split
  · rename_i hk
    constructor
    · exact .inr
    · rintro (rfl | ha)
      · exact hk
      · exact ha
  · simp [or_comm]

theorem mem_removeKey {α : Type} [DecidableEq α] {a key : α} {keys : List α} :
    a ∈ removeKey key keys ↔ a ∈ keys ∧ a ≠ key := by
  simp [removeKey]

theorem Inv.enter (h : Inv s) {room : Nat} (hm : s.methods n = some (.joinInsert c v room)) :
    Inv { s with members := Function.update s.members room (insertKey c (s.members room)) } := by
  have hroom : s.rooms v = some room := h.methods n _ hm
  have hhere : s.gone c = false := h.joining n _ c hm (by simp [Method.joins])
  have hmem : ∀ a r, a ∈ Function.update s.members room (insertKey c (s.members room)) r ↔
      a ∈ s.members r ∨ a = c ∧ r = room := by
    intro a r
    by_cases hr : r = room
    · subst hr
      rw [Function.update_self, mem_insertKey]
      simp [or_comm]
    · simp [hr]
  have hkeep : ∀ a v', s.inRoom a v' → State.inRoom
      { s with members := Function.update s.members room (insertKey c (s.members room)) } a v' := by
    intro a v' hin
    rw [inRoom_iff] at hin ⊢
    obtain ⟨r, hr, ha⟩ := hin
    exact ⟨r, hr, (hmem a r).2 (.inl ha)⟩
  refine h.change _ _ _ h.roomLt h.roomInj ?_ ?_ fun a v' _ hin => hkeep a v' hin
  · intro k m hk
    have hok := h.methods k m hk
    cases m with
    | joinVaults a v' => exact hkeep a v' hok
    | joinRecord a v' vaults => exact ⟨hkeep a v' hok.1, hok.2⟩
    | leaveRemove a v' r rest =>
      intro room' hroom' ha
      obtain ha | ⟨rfl, -⟩ := (hmem a room').1 ha
      · exact hok room' hroom' ha
      · have hgone := h.leaving k _ a hk (by simp [Method.leaves])
        rw [hhere] at hgone
        cases hgone
    | _ => exact hok
  · intro a v' hin
    obtain ⟨r, hr, ha⟩ := inRoom_iff.1 hin
    obtain ha | ⟨rfl, rfl⟩ := (hmem a r).1 ha
    · exact .inl (inRoom_iff.2 ⟨r, hr, ha⟩)
    · obtain rfl := h.roomInj v' v r hr hroom
      exact .inr ⟨hhere, n, _, hm, by simp [Method.entering]⟩

theorem Inv.remove (h : Inv s) (hgone : s.gone c = true) (room : Nat) :
    Inv { s with members := Function.update s.members room (removeKey c (s.members room)) } := by
  have hmem : ∀ a r, a ∈ Function.update s.members room (removeKey c (s.members room)) r ↔
      a ∈ s.members r ∧ ¬ (a = c ∧ r = room) := by
    intro a r
    by_cases hr : r = room
    · subst hr
      rw [Function.update_self, mem_removeKey]
      simp
    · simp [hr]
  have hkeep : ∀ a v', s.gone a = false → s.inRoom a v' → State.inRoom
      { s with members := Function.update s.members room (removeKey c (s.members room)) } a v' := by
    intro a v' ha hin
    rw [inRoom_iff] at hin ⊢
    obtain ⟨r, hr, hin⟩ := hin
    refine ⟨r, hr, (hmem a r).2 ⟨hin, ?_⟩⟩
    rintro ⟨rfl, -⟩
    rw [hgone] at ha
    cases ha
  refine h.change _ _ _ h.roomLt h.roomInj ?_ ?_ hkeep
  · intro k m hk
    have hok := h.methods k m hk
    have hjoin := h.joining k m
    cases m with
    | joinVaults a v' => exact hkeep a v' (hjoin a hk (by simp [Method.joins])) hok
    | joinRecord a v' vaults => exact ⟨hkeep a v' (hjoin a hk (by simp [Method.joins])) hok.1, hok.2⟩
    | leaveRemove a v' r rest => exact fun room' hroom' ha => hok room' hroom' ((hmem a room').1 ha).1
    | _ => exact hok
  · intro a v' hin
    obtain ⟨r, hr, ha⟩ := inRoom_iff.1 hin
    exact .inl (inRoom_iff.2 ⟨r, hr, ((hmem a r).1 ha).1⟩)

theorem Inv.vaultSets (h : Inv s) (vaultsByConnection : γ → Option Nat) (vaults : Nat → List ν) (nextVaults : Nat)
    (hlt : ∀ c o, vaultsByConnection c = some o → o < nextVaults) (hnext : s.nextVaults ≤ nextVaults)
    (hsame : ∀ c o, s.vaultsByConnection c = some o → vaultsByConnection c = some o)
    (hkeep : ∀ o < s.nextVaults, ∀ v ∈ s.vaults o, v ∈ vaults o) :
    Inv { s with vaultsByConnection := vaultsByConnection, vaults := vaults, nextVaults := nextVaults } := by
  have hroom : ∀ k m c v, s.methods k = some m → m.owesRoom s c v → m.owesRoom
      { s with vaultsByConnection := vaultsByConnection, vaults := vaults, nextVaults := nextVaults } c v := by
    intro k m c v hk ho
    cases m with
    | leave c' =>
      obtain ⟨rfl, o, hc, hv⟩ := ho
      exact ⟨rfl, o, hsame c' o hc, hkeep o (h.vaultsLt c' o hc) v hv⟩
    | leaveKeys c' o => exact ⟨ho.1, hkeep o (h.methods k _ hk) v ho.2⟩
    | _ => exact ho
  have howner : ∀ k m c v, s.methods k = some m → m.owesOwner s c v → m.owesOwner
      { s with vaultsByConnection := vaultsByConnection, vaults := vaults, nextVaults := nextVaults } c v := by
    intro k m c v hk ho
    cases m with
    | leave | leaveKeys => exact hroom k _ c v hk ho
    | _ => exact ho
  exact {
    __ := h
    vaultsLt := hlt
    methods := by
      intro k m hk
      have hok := h.methods k m hk
      cases m with
      | joinRecord c v o => exact ⟨hok.1, hsame c o hok.2⟩
      | leaveKeys c o => exact Nat.lt_of_lt_of_le hok hnext
      | _ => exact hok
    entered := by
      intro c v hc hj
      obtain ⟨hin, o, ho, hv⟩ := h.entered c v hc hj
      exact ⟨hin, o, hsame c o ho, hkeep o (h.vaultsLt c o ho) v hv⟩
    removal := by
      intro c v hc hin
      obtain ⟨k, m, hk, ho⟩ := h.removal c v hc hin
      exact ⟨k, m, hk, hroom k m c v hk ho⟩
    owner := by
      intro c v ho
      obtain hin | ⟨hc, k, m, hk, ho⟩ := h.owner c v ho
      · exact .inl hin
      · exact .inr ⟨hc, k, m, hk, howner k m c v hk ho⟩
    granted := h.granted }

theorem Inv.newVaults (h : Inv s) (hc : s.vaultsByConnection c = none) :
    Inv { s with
      vaultsByConnection := Function.update s.vaultsByConnection c (some s.nextVaults)
      vaults := Function.update s.vaults s.nextVaults [], nextVaults := s.nextVaults + 1 } := by
  refine h.vaultSets _ _ _ ?_ (Nat.le_succ _) ?_ ?_
  · intro c' o ho
    by_cases hne : c' = c
    · subst hne
      rw [Function.update_self] at ho
      have := Option.some.inj ho
      omega
    · rw [Function.update_of_ne hne] at ho
      have := h.vaultsLt c' o ho
      omega
  · intro c' o ho
    have hne : c' ≠ c := by
      rintro rfl
      rw [hc] at ho
      cases ho
    rwa [Function.update_of_ne hne]
  · intro o ho v hv
    rwa [Function.update_of_ne (Nat.ne_of_lt ho)]

theorem Inv.record (h : Inv s) {vaults : Nat} (hin : s.inRoom c v) (hc : s.vaultsByConnection c = some vaults) :
    Inv { s with
      vaults := Function.update s.vaults vaults (insertKey v (s.vaults vaults))
      joined := Function.update s.joined c (Function.update (s.joined c) v true) } := by
  have hmem : ∀ o, ∀ v' ∈ s.vaults o,
      v' ∈ Function.update s.vaults vaults (insertKey v (s.vaults vaults)) o := by
    intro o v' hv'
    by_cases ho : o = vaults
    · subst ho
      rw [Function.update_self, mem_insertKey]
      exact .inr hv'
    · rwa [Function.update_of_ne ho]
  have hset := h.vaultSets s.vaultsByConnection _ s.nextVaults h.vaultsLt (Nat.le_refl _) (fun _ _ => id)
    fun o _ => hmem o
  have hjoined : ∀ c' v', Function.update s.joined c (Function.update (s.joined c) v true) c' v' = true ↔
      s.joined c' v' = true ∨ c' = c ∧ v' = v := by
    intro c' v'
    by_cases hcc : c' = c
    · subst hcc
      by_cases hvv : v' = v
      · subst hvv
        simp
      · simp [hvv]
    · simp [hcc]
  exact {
    __ := h
    methods := fun k m hk => by cases m <;> exact hset.methods k _ hk
    here := by
      intro c' v' hc' hroom
      obtain hj | hrun := h.here c' v' hc' hroom
      · exact .inl ((hjoined c' v').2 (.inl hj))
      · exact .inr hrun
    entered := by
      intro c' v' hc' hj
      obtain hj | ⟨rfl, rfl⟩ := (hjoined c' v').1 hj
      · exact hset.entered c' v' hc' hj
      · exact ⟨hin, vaults, hc, by simp [mem_insertKey]⟩
    removal := by
      intro c' v' hc' hroom
      obtain ⟨k, m, hk, ho⟩ := hset.removal c' v' hc' hroom
      exact ⟨k, m, hk, by cases m <;> exact ho⟩
    owner := by
      intro c' v' hown
      obtain hroom | ⟨hc', k, m, hk, ho⟩ := hset.owner c' v' hown
      · exact .inl hroom
      · exact .inr ⟨hc', k, m, hk, by cases m <;> exact ho⟩
    granted := h.granted }

/-- The set of a connection is taken out, once nothing reads it from the dictionary. -/
theorem Inv.takeVaults (h : Inv s) (hgone : s.gone c = true)
    (hno : ∀ k, s.methods k ≠ some (.leave c)) :
    Inv { s with vaultsByConnection := Function.update s.vaultsByConnection c none } := by
  have hsame : ∀ c', s.gone c' = false →
      Function.update s.vaultsByConnection c none c' = s.vaultsByConnection c' := by
    intro c' hc'
    have hne : c' ≠ c := by
      rintro rfl
      rw [hgone] at hc'
      cases hc'
    rw [Function.update_of_ne hne]
  have hroom : ∀ k m c' v', s.methods k = some m → m.owesRoom s c' v' → m.owesRoom
      { s with vaultsByConnection := Function.update s.vaultsByConnection c none } c' v' := by
    intro k m c' v' hk ho
    cases m with
    | leave c'' =>
      obtain ⟨rfl, o, hc', hv⟩ := ho
      have hne : c'' ≠ c := by
        rintro rfl
        exact hno k hk
      exact ⟨rfl, o, (Function.update_of_ne hne _ _).trans hc', hv⟩
    | _ => exact ho
  exact {
    __ := h
    vaultsLt := by
      intro c' o ho
      by_cases hne : c' = c
      · subst hne
        simp at ho
      · refine h.vaultsLt c' o ?_
        simpa [Function.update_of_ne hne] using ho
    methods := by
      intro k m hk
      have hok := h.methods k m hk
      have hjoin := h.joining k m
      cases m with
      | joinRecord c' v' o => exact ⟨hok.1, (hsame c' (hjoin c' hk (by simp [Method.joins]))).trans hok.2⟩
      | _ => exact hok
    entered := by
      intro c' v' hc' hj
      obtain ⟨hin, o, ho, hv⟩ := h.entered c' v' hc' hj
      exact ⟨hin, o, (hsame c' hc').trans ho, hv⟩
    removal := by
      intro c' v' hc' hin
      obtain ⟨k, m, hk, ho⟩ := h.removal c' v' hc' hin
      exact ⟨k, m, hk, hroom k m c' v' hk ho⟩
    owner := by
      intro c' v' hown
      obtain hin | ⟨hc', k, m, hk, ho⟩ := h.owner c' v' hown
      · exact .inl hin
      · refine .inr ⟨hc', k, m, hk, ?_⟩
        cases m with
        | leave => exact hroom k _ c' v' hk ho
        | _ => exact ho
    granted := h.granted }

/-- A claim is granted to a connection in the room. -/
theorem Inv.grant (h : Inv s) (hfree : s.owners v = none) (hin : s.inRoom c v) :
    Inv { s with owners := Function.update s.owners v (some c), winners := s.winners ++ [(v, c)] } := by
  have hearlier : ∀ c', (v, c') ∈ s.winners → s.gone c' = true := by
    intro c' hw
    refine (h.winners v c' hw).resolve_right ?_
    rw [hfree]
    exact nofun
  exact {
    __ := h
    methods := by
      intro k m hk
      have hok := h.methods k m hk
      cases m with
      | leaveRelease c' v' rest =>
        have hne : v' ≠ v := by
          rintro rfl
          rw [Method.OK, hfree] at hok
          cases hok
        simpa [Method.OK, Function.update_of_ne hne] using hok
      | _ => exact hok
    removal := by
      intro c' v' hc' hroom
      obtain ⟨k, m, hk, ho⟩ := h.removal c' v' hc' hroom
      exact ⟨k, m, hk, by cases m <;> exact ho⟩
    owner := by
      intro c' v' hown
      by_cases hv : v' = v
      · subst hv
        obtain rfl : c = c' := by simpa using hown
        cases hc : s.gone c with
        | false => exact .inl ⟨rfl, hin⟩
        | true =>
          obtain ⟨k, m, hk, ho⟩ := h.removal c v' hc hin
          exact .inr ⟨rfl, k, m, hk, owesOwner_of_owesRoom (by cases m <;> exact ho)⟩
      · have hown : s.owners v' = some c' := by simpa [Function.update_of_ne hv] using hown
        obtain hroom | ⟨hc, k, m, hk, ho⟩ := h.owner c' v' hown
        · exact .inl hroom
        · exact .inr ⟨hc, k, m, hk, by cases m <;> exact ho⟩
    winners := by
      intro v' c' hw
      dsimp only at hw ⊢
      obtain hbefore | hnew := List.mem_append.1 hw
      · by_cases hv : v' = v
        · subst hv
          exact .inl (hearlier c' hbefore)
        · rw [Function.update_of_ne hv]
          exact h.winners v' c' hbefore
      · obtain ⟨rfl, rfl⟩ := Prod.mk.inj (List.mem_singleton.1 hnew)
        right
        rw [Function.update_self]
    granted := by
      refine List.pairwise_append.2 ⟨h.granted, List.pairwise_singleton _ _, ?_⟩
      intro a ha b hb hab
      obtain rfl := List.mem_singleton.1 hb
      obtain ⟨v', c'⟩ := a
      obtain rfl : v' = v := hab
      exact hearlier c' ha }

theorem Inv.release (h : Inv s) (hgone : s.gone c = true) (hown : s.owners v = some c)
    (hno : ∀ k c' rest, s.methods k ≠ some (.leaveRelease c' v rest)) :
    Inv { s with owners := Function.update s.owners v none } := by
  have hold : ∀ v' c', Function.update s.owners v none v' = some c' → s.owners v' = some c' := by
    intro v' c' ho
    by_cases hv : v' = v
    · subst hv
      simp at ho
    · rwa [Function.update_of_ne hv] at ho
  exact {
    __ := h
    methods := by
      intro k m hk
      have hok := h.methods k m hk
      cases m with
      | leaveRelease c' v' rest =>
        have hv : v' ≠ v := by
          rintro rfl
          exact hno k c' rest hk
        simpa [Method.OK, Function.update_of_ne hv] using hok
      | _ => exact hok
    removal := by
      intro c' v' hc' hin
      obtain ⟨k, m, hk, ho⟩ := h.removal c' v' hc' hin
      exact ⟨k, m, hk, by cases m <;> exact ho⟩
    owner := by
      intro c' v' ho
      obtain hin | ⟨hc', k, m, hk, ho⟩ := h.owner c' v' (hold v' c' ho)
      · exact .inl hin
      · exact .inr ⟨hc', k, m, hk, by cases m <;> exact ho⟩
    winners := by
      intro v' c' hw
      dsimp only
      obtain hc' | hc' := h.winners v' c' hw
      · exact .inl hc'
      · by_cases hv : v' = v
        · subst hv
          rw [hown] at hc'
          obtain rfl := Option.some.inj hc'
          exact .inl hgone
        · rw [Function.update_of_ne hv]
          exact .inr hc'
    granted := h.granted }

theorem methods_start (h : (s.start m).methods k = some m') : k = s.started ∧ m' = m ∨ s.methods k = some m' := by
  by_cases hk : k = s.started
  · subst hk
    exact .inl ⟨rfl, by simpa [State.start] using h.symm⟩
  · exact .inr (by simpa [State.start, Function.update_of_ne hk] using h)

theorem Inv.methods_of_start (h : Inv s) (hk : s.methods k = some m') : (s.start m).methods k = some m' := by
  have hne : k ≠ s.started := by
    rintro rfl
    rw [h.idle s.started (Nat.le_refl _)] at hk
    cases hk
  simpa [State.start, Function.update_of_ne hne] using hk

theorem Inv.idle_start (h : Inv s) (hk : s.started + 1 ≤ k) : (s.start m).methods k = none := by
  have hne : k ≠ s.started := by omega
  have hle : s.started ≤ k := by omega
  simpa [State.start, Function.update_of_ne hne] using h.idle k hle

theorem Inv.call (h : Inv s) (m : Method γ ν) (hok : m.OK s) (hjoins : ∀ c, m.joins c → s.gone c = false)
    (hleaves : ∀ c, m.leaves c = false) : Inv (s.start m) where
  idle := fun k hk => h.idle_start hk
  __ := h
  methods := by
    intro k m' hk
    obtain ⟨-, rfl⟩ | hk := methods_start hk
    · cases m' <;> exact hok
    · have hok := h.methods k m' hk
      cases m' <;> exact hok
  joining := by
    intro k m' c hk hc
    obtain ⟨-, rfl⟩ | hk := methods_start hk
    · exact hjoins c hc
    · exact h.joining k m' c hk hc
  leaving := by
    intro k m' c hk hc
    obtain ⟨-, rfl⟩ | hk := methods_start hk
    · rw [hleaves] at hc
      cases hc
    · exact h.leaving k m' c hk hc
  alone := by
    intro k k' m₁ m₂ c hk hk' hc hc'
    obtain ⟨-, rfl⟩ | hk := methods_start hk
    · rw [hleaves] at hc
      cases hc
    · obtain ⟨-, rfl⟩ | hk' := methods_start hk'
      · rw [hleaves] at hc'
        cases hc'
      · exact h.alone k k' m₁ m₂ c hk hk' hc hc'
  here := by
    intro c v hc hin
    obtain hj | ⟨k, m', hk, he⟩ := h.here c v hc hin
    · exact .inl hj
    · exact .inr ⟨k, m', h.methods_of_start hk, he⟩
  removal := by
    intro c v hc hin
    obtain ⟨k, m', hk, ho⟩ := h.removal c v hc hin
    exact ⟨k, m', h.methods_of_start hk, by cases m' <;> exact ho⟩
  owner := by
    intro c v hown
    obtain hin | ⟨hc, k, m', hk, ho⟩ := h.owner c v hown
    · exact .inl hin
    · exact .inr ⟨hc, k, m', h.methods_of_start hk, by cases m' <;> exact ho⟩

/-- A connection goes, none of its joins being in progress. -/
theorem Inv.disconnect (h : Inv s) (hc : s.gone c = false)
    (hno : ∀ k m, s.methods k = some m → m.joins c = false) :
    Inv { s.start (.leave c) with gone := Function.update s.gone c true } := by
  have hgone : ∀ c', Function.update s.gone c true c' = false → c' ≠ c ∧ s.gone c' = false := by
    intro c' hc'
    have hne : c' ≠ c := by
      rintro rfl
      simp at hc'
    exact ⟨hne, by rwa [Function.update_of_ne hne] at hc'⟩
  have hstay : ∀ c', s.gone c' = true → Function.update s.gone c true c' = true := by
    intro c' hc'
    by_cases hne : c' = c
    · rw [hne, Function.update_self]
    · rwa [Function.update_of_ne hne]
  have hself : (s.start (.leave c)).methods s.started = some (.leave c) := by
    simp [State.start]
  have hroom : ∀ v, s.inRoom c v → ∃ vaults, s.vaultsByConnection c = some vaults ∧ v ∈ s.vaults vaults := by
    intro v hin
    obtain hj | ⟨k, m, hk, he⟩ := h.here c v hc hin
    · exact (h.entered c v hc hj).2
    · have hjoin := hno k m hk
      cases m <;> simp_all [Method.entering, Method.joins]
  have hleave : ∀ k m, s.methods k = some m → m.leaves c = false := by
    intro k m hk
    by_contra hl
    have hg := h.leaving k m c hk (by simpa using hl)
    rw [hc] at hg
    cases hg
  exact {
    idle := fun k hk => h.idle_start hk
    __ := h
    methods := by
      intro k m hk
      obtain ⟨-, rfl⟩ | hk := methods_start hk
      · trivial
      · have hok := h.methods k m hk
        cases m <;> exact hok
    joining := by
      intro k m c' hk hj
      obtain ⟨-, rfl⟩ | hk := methods_start hk
      · simp [Method.joins] at hj
      · have hne : c' ≠ c := by
          intro heq
          rw [heq, hno k m hk] at hj
          cases hj
        dsimp only
        rw [Function.update_of_ne hne]
        exact h.joining k m c' hk hj
    leaving := by
      intro k m c' hk hl
      obtain ⟨-, rfl⟩ | hk := methods_start hk
      · obtain rfl : c = c' := by simpa [Method.leaves] using hl
        simp
      · exact hstay c' (h.leaving k m c' hk hl)
    alone := by
      intro k k' m₁ m₂ c' hk hk' hl hl'
      obtain ⟨rfl, rfl⟩ | hk := methods_start hk
      · obtain rfl : c = c' := by simpa [Method.leaves] using hl
        obtain ⟨rfl, -⟩ | hk' := methods_start hk'
        · rfl
        · rw [hleave k' m₂ hk'] at hl'
          cases hl'
      · obtain ⟨rfl, rfl⟩ | hk' := methods_start hk'
        · obtain rfl : c = c' := by simpa [Method.leaves] using hl'
          rw [hleave k m₁ hk] at hl
          cases hl
        · exact h.alone k k' m₁ m₂ c' hk hk' hl hl'
    here := by
      intro c' v hc' hin
      obtain hj | ⟨k, m, hk, he⟩ := h.here c' v (hgone c' hc').2 hin
      · exact .inl hj
      · exact .inr ⟨k, m, h.methods_of_start hk, he⟩
    entered := fun c' v hc' hj => h.entered c' v (hgone c' hc').2 hj
    removal := by
      intro c' v hc' hin
      by_cases hne : c' = c
      · subst hne
        exact ⟨s.started, _, hself, rfl, hroom v hin⟩
      · have hold : s.gone c' = true := by simpa [Function.update_of_ne hne] using hc'
        obtain ⟨k, m, hk, ho⟩ := h.removal c' v hold hin
        exact ⟨k, m, h.methods_of_start hk, by cases m <;> exact ho⟩
    owner := by
      intro c' v hown
      by_cases hne : c' = c
      · subst hne
        obtain ⟨-, hin⟩ | ⟨hg, -⟩ := h.owner c' v hown
        · exact .inr ⟨by simp, s.started, _, hself, rfl, hroom v hin⟩
        · rw [hc] at hg
          cases hg
      · dsimp only
        rw [Function.update_of_ne hne]
        obtain hin | ⟨hg, k, m, hk, ho⟩ := h.owner c' v hown
        · exact .inl hin
        · exact .inr ⟨hg, k, m, h.methods_of_start hk, by cases m <;> exact ho⟩
    winners := fun v c' hw => (h.winners v c' hw).imp (hstay c') id
    granted := h.granted.imp fun hab heq => hstay _ (hab heq) }

theorem Inv.moveJoin (h : Inv s) (hm : s.methods n = some m) (m' : Method γ ν) (hok : m'.OK s)
    (hjoins : ∀ c, m'.joins c → m.joins c) (hleaves : ∀ c, m'.leaves c = false)
    (hentering : ∀ c v, m.entering c v → m'.entering c v) (howes : ∀ c v, ¬ m.owesOwner s c v) :
    Inv (s.become n (some m')) := by
  refine h.move hm (some m') ?_ ?_ ?_ ?_ ?_ ?_
  · simpa using hok
  · simpa using hjoins
  · simp [hleaves]
  · exact fun c v he => .inr ⟨m', rfl, hentering c v he⟩
  · exact fun c v ho _ => absurd (owesOwner_of_owesRoom ho) (howes c v)
  · exact fun c v ho _ => absurd ho (howes c v)

theorem Inv.finish (h : Inv s) (hm : s.methods n = some m)
    (hentering : ∀ c v, m.entering c v → s.joined c v)
    (howes : ∀ c v, ¬ m.owesOwner s c v) :
    Inv (s.become n none) := by
  refine h.move hm none nofun nofun nofun (fun c v he => .inl (hentering c v he)) ?_ ?_
  · exact fun c v ho _ => absurd (owesOwner_of_owesRoom ho) (howes c v)
  · exact fun c v ho _ => absurd ho (howes c v)

theorem Inv.moveLeave (h : Inv s) (hm : s.methods n = some m) (m' : Method γ ν) (hok : m'.OK s)
    (hjoins : ∀ c, m'.joins c = false) (hleaves : ∀ c, m'.leaves c → m.leaves c)
    (hentering : ∀ c v, m.entering c v = false)
    (howes : ∀ c v, m.owesRoom s c v → s.inRoom c v → m'.owesRoom s c v)
    (howner : ∀ c v, m.owesOwner s c v → s.owners v = some c → m'.owesOwner s c v) :
    Inv (s.become n (some m')) := by
  refine h.move hm (some m') ?_ ?_ ?_ ?_ ?_ ?_
  · simpa using hok
  · simp [hjoins]
  · simpa using hleaves
  · simp [hentering]
  · exact fun c v ho hin => ⟨m', rfl, howes c v ho hin⟩
  · exact fun c v ho hown => ⟨m', rfl, howner c v ho hown⟩

attribute [local simp] Method.OK Method.joins Method.leaves Method.entering Method.owesRoom Method.owesOwner

theorem Inv.advance_join (h : Inv s) (hm : s.methods n = some m) (hjoins : m.joins c) : Inv (advance s n m) := by
  have hok := h.methods n m hm
  cases m with
  | joinRoom c v =>
    unfold advance
    dsimp only
    cases hroom : s.rooms v with
    | some room =>
      exact h.moveJoin hm (.joinKeys c v room) hroom (by simp) (by simp) (by simp) (by simp)
    | none =>
      exact (h.newRoom hroom).moveJoin hm (.joinKeys c v s.nextRoom) (by simp) (by simp) (by simp) (by simp) (by simp)
  | joinKeys c v room => exact h.moveJoin hm (.joinInsert c v room) hok (by simp) (by simp) (by simp) (by simp)
  | joinInsert c v room =>
    have hin : State.inRoom
        { s with members := Function.update s.members room (insertKey c (s.members room)) } c v := by
      refine inRoom_iff.2 ⟨room, hok, ?_⟩
      simp [mem_insertKey]
    exact (h.enter hm).moveJoin hm (.joinVaults c v) hin (by simp) (by simp) (by simp) (by simp)
  | joinVaults c v =>
    unfold advance
    dsimp only
    cases hvaults : s.vaultsByConnection c with
    | some vaults =>
      exact h.moveJoin hm (.joinRecord c v vaults) ⟨hok, hvaults⟩ (by simp) (by simp) (by simp) (by simp)
    | none =>
      exact (h.newVaults hvaults).moveJoin hm (.joinRecord c v s.nextVaults) ⟨hok, by simp⟩ (by simp) (by simp)
        (by simp) (by simp)
  | joinRecord c v vaults =>
    refine (h.record hok.1 hok.2).finish hm ?_ (by simp)
    intro c' v' he
    obtain ⟨rfl, rfl⟩ : c = c' ∧ v = v' := by simpa using he
    simp
  | _ => simp at hjoins

theorem Inv.advance_claim (h : Inv s) (hok : Undisturbed s (.run n)) (hm : s.methods n = some m)
    (hjoins : ∀ c, m.joins c = false) (hleaves : ∀ c, m.leaves c = false) : Inv (advance s n m) := by
  cases m with
  | claimRoom c v =>
    unfold advance
    dsimp only
    cases s.rooms v with
    | none => exact h.finish hm (by simp) (by simp)
    | some room => exact h.moveJoin hm (.claimMember c v room) trivial (by simp) (by simp) (by simp) (by simp)
  | claimMember c v room =>
    unfold advance
    dsimp only
    split
    · exact h.moveJoin hm (.claimAdd c v) trivial (by simp) (by simp) (by simp) (by simp)
    · exact h.finish hm (by simp) (by simp)
  | claimAdd c v =>
    rw [Undisturbed, hm] at hok
    unfold advance
    dsimp only
    cases hfree : s.owners v with
    | some _ => exact h.finish hm (by simp) (by simp)
    | none => exact (h.grant hfree hok).finish hm (by simp) (by simp)
  | joinRoom c | joinKeys c | joinInsert c | joinVaults c | joinRecord c => simpa using hjoins c
  | leave c | leaveKeys c | leaveVault c | leaveRemove c | leaveEmpty c | leaveDrop c | leaveOwner c
  | leaveRelease c => simpa using hleaves c

theorem Inv.advance_leave (h : Inv s) (hok : Undisturbed s (.run n)) (hm : s.methods n = some m)
    (hleaves : m.leaves c) : Inv (advance s n m) := by
  have hgone := h.leaving n m c hm hleaves
  have hnow := h.methods n m hm
  cases m with
  | leave c' =>
    obtain rfl : c' = c := by simpa using hleaves
    unfold advance
    dsimp only
    cases hvaults : s.vaultsByConnection c' with
    | none =>
      refine h.finish hm (by simp) fun a v ho => ?_
      obtain ⟨rfl, o, hsome, -⟩ := ho
      rw [hvaults] at hsome
      cases hsome
    | some vaults =>
      refine (h.moveLeave hm (.leaveKeys c' vaults) (h.vaultsLt c' vaults hvaults) (by simp) (by simp) (by simp)
        ?_ ?_).takeVaults hgone ?_
      · rintro a v ⟨rfl, o, hsome, hv⟩ -
        obtain rfl : vaults = o := by simpa [hvaults] using hsome
        exact ⟨rfl, hv⟩
      · rintro a v ⟨rfl, o, hsome, hv⟩ -
        obtain rfl : vaults = o := by simpa [hvaults] using hsome
        exact ⟨rfl, hv⟩
      · intro k hk
        obtain ⟨-, hnext⟩ | ⟨hne, hk⟩ := methods_become hk
        · cases hnext
        · exact hne (h.alone k n _ _ c' hk hm (by simp) (by simp))
  | leaveKeys c' vaults =>
    exact h.moveLeave hm (.leaveVault c' (s.vaults vaults)) trivial (by simp) (by simp) (by simp)
      (fun a v ho _ => ho) fun a v ho _ => ho
  | leaveVault c' vaults =>
    cases vaults with
    | nil => exact h.finish hm (by simp) (by simp)
    | cons v rest =>
      unfold advance
      dsimp only
      cases hroom : s.rooms v with
      | some room =>
        refine h.moveLeave hm (.leaveRemove c' v room rest) ?_ (by simp) (by simp) (by simp) ?_ ?_
        · intro room' hroom' _
          exact Option.some.inj (hroom'.symm.trans hroom)
        · exact fun a v' ho _ => ⟨ho.1, List.mem_cons.1 ho.2⟩
        · exact fun a v' ho _ => ⟨ho.1, List.mem_cons.1 ho.2⟩
      | none =>
        refine h.moveLeave hm (.leaveOwner c' v rest) trivial (by simp) (by simp) (by simp) ?_ ?_
        · intro a v' ho hin
          obtain rfl | hrest := List.mem_cons.1 ho.2
          · rw [not_inRoom hroom] at hin
            cases hin
          · exact ⟨ho.1, hrest⟩
        · exact fun a v' ho _ => ⟨ho.1, List.mem_cons.1 ho.2⟩
  | leaveRemove c' v room rest =>
    obtain rfl : c' = c := by simpa using hleaves
    refine (h.remove hgone room).moveLeave hm (.leaveEmpty c' v room rest) trivial (by simp) (by simp) (by simp) ?_ ?_
    · rintro a v' ⟨rfl, rfl | hrest⟩ hin
      · -- Only the room it has found still holds the connection, and not any more.
        obtain ⟨room', hroom', hmem⟩ := inRoom_iff.1 hin
        dsimp only at hroom' hmem
        by_cases heq : room' = room
        · subst heq
          rw [Function.update_self, mem_removeKey] at hmem
          exact absurd rfl hmem.2
        · rw [Function.update_of_ne heq] at hmem
          exact absurd (hnow room' hroom' hmem) heq
      · exact ⟨rfl, hrest⟩
    · exact fun a v' ho _ => ho
  | leaveEmpty c' v room rest =>
    unfold advance
    dsimp only
    split
    · exact h.moveLeave hm (.leaveDrop c' v rest) trivial (by simp) (by simp) (by simp) (fun a v' ho _ => ho)
        fun a v' ho _ => ho
    · exact h.moveLeave hm (.leaveOwner c' v rest) trivial (by simp) (by simp) (by simp) (fun a v' ho _ => ho)
        fun a v' ho _ => ho
  | leaveDrop c' v rest =>
    rw [Undisturbed, hm] at hok
    have hfree : ∀ k m, s.methods k = some m → m.enters v = false := by
      intro k m hk
      by_cases hlt : k < s.started
      · simpa [hk] using hok.2 k hlt
      · rw [h.idle k (by omega)] at hk
        cases hk
    exact (h.dropRoom hok.1 hfree).moveLeave hm (.leaveOwner c' v rest) trivial (by simp) (by simp) (by simp)
      (fun a v' ho _ => ho) fun a v' ho _ => ho
  | leaveOwner c' v rest =>
    unfold advance
    dsimp only
    split
    · rename_i hown
      exact h.moveLeave hm (.leaveRelease c' v rest) hown (by simp) (by simp) (by simp) (fun a v' ho _ => ho)
        fun a v' ho _ => ho
    · rename_i hown
      refine h.moveLeave hm (.leaveVault c' rest) trivial (by simp) (by simp) (by simp) (fun a v' ho _ => ho) ?_
      rintro a v' ⟨rfl, rfl | hrest⟩ ho
      · exact absurd ho hown
      · exact ⟨rfl, hrest⟩
  | leaveRelease c' v rest =>
    obtain rfl : c' = c := by simpa using hleaves
    -- The method stands before the release until the claim is gone from the dictionary.
    have hbefore := h.moveLeave hm (.leaveOwner c' v rest) trivial (by simp) (by simp) (by simp) (fun a v' ho _ => ho)
      fun a v' ho _ => ho
    have hself : (s.become n (some (.leaveOwner c' v rest))).methods n = some (.leaveOwner c' v rest) := by
      simp [State.become]
    have hrelease := hbefore.release (v := v) hgone hnow fun k a rest' hk => by
      obtain ⟨-, hnext⟩ | ⟨hne, hk⟩ := methods_become hk
      · cases hnext
      · have hheld : s.owners v = some a := h.methods k _ hk
        obtain rfl : c' = a := Option.some.inj (hnow.symm.trans hheld)
        exact hne (h.alone k n _ _ c' hk hm (by simp) (by simp))
    have hnext := hrelease.moveLeave hself (.leaveVault c' rest) trivial (by simp) (by simp) (by simp)
      (fun a v' ho _ => ho) (by
        rintro a v' ⟨rfl, rfl | hrest⟩ ho
        · simp at ho
        · exact ⟨rfl, hrest⟩)
    simpa [State.become, advance] using hnext
  | _ => simp at hleaves

theorem inv_step (e : Event γ ν) (s' : State γ ν) (h : Inv s) (hok : Undisturbed s e) (hs : step s e = some s') :
    Inv s' := by
  cases e with
  | join c v =>
    dsimp only [step] at hs
    split at hs
    · cases hs
    · rename_i hc
      obtain rfl := Option.some.inj hs
      exact h.call (.joinRoom c v) trivial (by simpa using hc) (by simp)
  | claimOwner c v =>
    dsimp only [step] at hs
    split at hs
    · cases hs
    · obtain rfl := Option.some.inj hs
      exact h.call (.claimRoom c v) trivial (by simp) (by simp)
  | disconnect c =>
    dsimp only [step] at hs
    split at hs
    · cases hs
    · rename_i hc
      obtain rfl := Option.some.inj hs
      refine h.disconnect (by simpa using hc) fun k m hk => ?_
      by_cases hlt : k < s.started
      · simpa [hk] using hok k hlt
      · rw [h.idle k (by omega)] at hk
        cases hk
  | run n =>
    dsimp only [step] at hs
    cases hm : s.methods n with
    | none => simp [hm] at hs
    | some m =>
      obtain rfl : advance s n m = s' := by simpa [hm] using hs
      by_cases hjoins : ∃ c, m.joins c = true
      · obtain ⟨c, hc⟩ := hjoins
        exact h.advance_join hm hc
      · by_cases hleaves : ∃ c, m.leaves c = true
        · obtain ⟨c, hc⟩ := hleaves
          exact h.advance_leave hok hm hc
        · exact h.advance_claim hok hm (by simpa using hjoins) (by simpa using hleaves)

theorem inv_init : Inv (init : State γ ν) := by
  constructor <;> simp [init, State.inRoom]

/-- Without those crossings, whenever no method is in progress every room holds the connections that
joined it and are still there, and the owner of a vault is in its room; a claim is granted only when
those granted before for the vault are gone. -/
theorem registry_exact (hrun : Run step Undisturbed init s) :
    (s.winners.Pairwise fun a b => a.1 = b.1 → s.gone a.2 = true) ∧
    (∀ v c, (v, c) ∈ s.winners → s.gone c = false → s.owners v = some c) ∧
    ((∀ n, s.methods n = none) →
      (∀ c v, s.inRoom c v = true ↔ s.joined c v = true ∧ s.gone c = false) ∧
      ∀ c v, s.owners v = some c → s.inRoom c v = true) := by
  have h : Inv s := hrun.invariant Inv inv_init fun s e s' h hok hs => inv_step e s' h hok hs
  refine ⟨h.granted, fun v c hw hc => ?_, fun hidle => ⟨fun c v => ?_, fun c v ho => ?_⟩⟩
  · refine (h.winners v c hw).resolve_left ?_
    rw [hc]
    exact nofun
  · constructor
    · intro hin
      cases hc : s.gone c with
      | true =>
        obtain ⟨k, m, hk, -⟩ := h.removal c v hc hin
        rw [hidle] at hk
        cases hk
      | false =>
        obtain hj | ⟨k, m, hk, -⟩ := h.here c v hc hin
        · exact ⟨hj, rfl⟩
        · rw [hidle] at hk
          cases hk
    · exact fun hj => (h.entered c v hj.2 hj.1).1
  · obtain ⟨-, hin⟩ | ⟨-, k, m, hk, -⟩ := h.owner c v ho
    · exact hin
    · rw [hidle] at hk
      cases hk

end

def claimsInTurn : List (Event Bool Unit) :=
  [.join false ()] ++ List.replicate 5 (.run 0) ++ [.claimOwner false ()] ++ List.replicate 3 (.run 1) ++
    [.join true ()] ++ List.replicate 5 (.run 2) ++ [.disconnect false] ++ List.replicate 8 (.run 3) ++
    [.claimOwner true ()] ++ List.replicate 3 (.run 4)

theorem registry_exact_in_turn : ∃ s : State Bool Unit, Run step Undisturbed init s ∧
    s.winners = [((), false), ((), true)] ∧ s.gone false = true ∧ s.owners () = some true ∧
    s.inRoom true () = true := by
  have hrun : ∃ s : State Bool Unit, exec step Undisturbed init claimsInTurn = some s ∧
      (∀ n, s.methods n = none) ∧ s.gone true = false ∧ s.winners = [((), false), ((), true)] := by
    refine ⟨_, rfl, ?_, rfl, rfl⟩
    rintro (_ | _ | _ | _ | _ | n) <;> rfl
  obtain ⟨s, hs, hidle, hthere, hwinners⟩ := hrun
  have h := run_of_exec _ _ s hs
  obtain ⟨hpair, howner, hexact⟩ := registry_exact h
  rw [hwinners] at hpair howner
  have hown := howner () true (by simp) hthere
  exact ⟨s, h, hwinners, by simpa using hpair, hown, (hexact hidle).2 true () hown⟩

/-- A connection enters the room that another one has just found empty and removes: it has joined, and
is in no room. -/
theorem room_lost : ∃ s : State Bool Unit, Run step (fun _ _ => True) init s ∧ (∀ n, s.methods n = none) ∧
    s.joined true () = true ∧ s.gone true = false ∧ s.inRoom true () = false := by
  have hrun : ∃ s : State Bool Unit, exec step (fun _ _ => True) init
      ([.join false ()] ++ List.replicate 5 (.run 0) ++ [.disconnect false] ++ List.replicate 5 (.run 1) ++
        [.join true ()] ++ List.replicate 5 (.run 2) ++ List.replicate 3 (.run 1)) = some s ∧
      (∀ n, s.methods n = none) ∧ s.joined true () = true ∧ s.gone true = false ∧ s.inRoom true () = false := by
    refine ⟨_, rfl, ?_, rfl, rfl, rfl⟩
    rintro (_ | _ | _ | n) <;> rfl
  obtain ⟨s, hs, hrest⟩ := hrun
  exact ⟨s, run_of_exec _ _ s hs, hrest⟩

end
end Savoire.EdgeRooms
