import Savoire.Text
import Savoire.Library.KeyedMap
import Savoire.Library.Transition

/-! The keys of an EdgeSync vault: those that a session mints, is granted and renews, and the copy of its keyring
that its account holds in escrow. -/
namespace Savoire.KeyEscrow
open Transition

/-- What a key is for: the vault itself (`K_vault`), or a channel. -/
inductive Resource
  | vault
  | directory
  | document (docId : Text)
  | index (ns : Text)
  deriving DecidableEq

abbrev Keyring := KeyedMap (Nat × Resource) Nat

namespace Keyring
variable (K : Keyring)

/-- The greatest epoch of which there is a key. -/
def currentEpoch : Option Nat := (K.entries.map (·.1.1)).max?

/-- The keys that it lacks are added. -/
def gain (keys : List ((Nat × Resource) × Nat)) : Keyring :=
  keys.foldl (fun K e => if K.has e.1 then K else K.set e.1 e.2) K

def isGranting : Bool := K.currentEpoch.any fun e => K.has (e, .vault)

/-- `rotate`: a fresh key of the next epoch for each resource that has one. -/
def rotate (epoch minted : Nat) : Keyring :=
  K.gain ((K.entries.map (·.1.2)).dedup.zipIdx.map fun e => ((epoch + 1, e.1), minted + e.2))

def genesis (minted : Nat) : Keyring := (KeyedMap.empty.set (0, .vault) minted).set (0, .directory) (minted + 1)

end Keyring

/-- An account with a session of the vault. `saves` are the requests of the escrow in flight, each with the number
of its call and the keyring it sends; `escrowCall` records the call whose keyring the server has, `sent` the
keyring of the last call, and `used` the keys under which content has been stored. -/
structure Account where
  keyring : Keyring
  opened : List Resource
  escrowedThisSession : Bool
  retryTimers : Nat
  minted : Nat
  unlocked : Bool
  saves : List (Nat × Keyring)
  calls : Nat
  lastFailed : Bool
  escrow : Option Keyring
  escrowCall : Nat
  sent : Keyring
  used : List ((Nat × Resource) × Nat)

namespace Account
variable (s : Account)

/-- `save`: the keyring as it is at the call. Without the account's key nothing is sent. -/
def save : Account := { s with
  saves := if s.unlocked then s.saves ++ [(s.calls + 1, s.keyring)] else s.saves
  calls := s.calls + 1
  lastFailed := !s.unlocked
  sent := s.keyring }

/-- `openDocument`, `openIndex` -/
def openChannel (r : Resource) : Account :=
  if r ∈ s.opened then s
  else
    let s' : Account := { s with opened := s.opened ++ [r] }
    match s.keyring.currentEpoch with
    | some e =>
      if s.keyring.isGranting && !s.keyring.has (e, r) then
        save { s' with keyring := s.keyring.gain [((e, r), s.minted)], minted := s.minted + 1 }
      else s'
    | none => s'

/-- `restore`, then `finalize`: the keyring of the escrow, or that of a founder or of a joiner. -/
def finalize (isOwner : Bool) : Account :=
  let s' : Account := { s with opened := [], retryTimers := 4 }
  match s.escrow with
  | some K => { s' with keyring := K, sent := K, escrowedThisSession := true }
  | none =>
    if isOwner then
      save { s' with keyring := Keyring.genesis s.minted, minted := s.minted + 2, escrowedThisSession := true }
    else { s' with keyring := KeyedMap.empty, sent := KeyedMap.empty, escrowedThisSession := false }

/-- A delay of `HELLO_RETRY_DELAYS_MS` is over. -/
def retry : Account :=
  let s' : Account := { s with retryTimers := s.retryTimers - 1 }
  if !s.escrowedThisSession && s.keyring.isGranting then save { s' with escrowedThisSession := true } else s'

/-- The server stores what the request sends. -/
def store (e : Nat × Keyring) : Account := { s with escrow := some e.2, escrowCall := e.1 }

end Account

inductive Event
  | openDocument (docId : Text)
  | openIndex (ns : Text)
  | closeDocument (docId : Text)
  | closeIndex (ns : Text)
  | grant (keys : List ((Nat × Resource) × Nat))
  | retry
  | renewVaultKey
  /-- The content of a channel is stored. -/
  | persist (r : Resource)
  | saved (k : Nat)
  /-- A request that fails may have been stored. -/
  | saveFails (k : Nat) (stored : Bool)
  | unlock (unlocked : Bool)
  | reload (isOwner : Bool)

def step (s : Account) : Event → Option Account
  | .openDocument docId => some (s.openChannel (.document docId))
  | .openIndex ns => some (s.openChannel (.index ns))
  | .closeDocument docId => some { s with opened := s.opened.filter (· ≠ .document docId) }
  | .closeIndex ns => some { s with opened := s.opened.filter (· ≠ .index ns) }
  | .grant keys => some { s with keyring := s.keyring.gain keys }
  | .retry => if s.retryTimers = 0 then none else some s.retry
  | .renewVaultKey => match s.keyring.currentEpoch with
    | some e =>
      if s.keyring.isGranting then some (Account.save { s with
        keyring := s.keyring.rotate e s.minted, minted := s.minted + s.keyring.entries.length })
      else none
    | none => none
  | .persist r =>
    if r = .directory ∨ r ∈ s.opened then
      match s.keyring.currentEpoch with
      | some e => match s.keyring.get (e, r) with
        | some key => some { s with used := s.used ++ [((e, r), key)] }
        | none => none
      | none => none
    else none
  | .saved k => match s.saves[k]? with
    | some e => some (Account.store { s with saves := s.saves.eraseIdx k } e)
    | none => none
  | .saveFails k stored => match s.saves[k]? with
    | some e =>
      let s' : Account := { s with
        saves := s.saves.eraseIdx k
        lastFailed := s.lastFailed || decide (e.1 = s.calls) }
      some (if stored then s'.store e else s')
    | none => none
  | .unlock unlocked => some { s with unlocked := unlocked }
  | .reload isOwner => if s.escrow.isSome && !s.unlocked then none else some (s.finalize isOwner)

def blank (escrow : Option Keyring) : Account where
  keyring := KeyedMap.empty
  opened := []
  escrowedThisSession := false
  retryTimers := 0
  minted := 0
  unlocked := true
  saves := []
  calls := 0
  lastFailed := false
  escrow := escrow
  escrowCall := 0
  sent := KeyedMap.empty
  used := []

def start (escrow : Option Keyring) (isOwner : Bool) : Account := (blank escrow).finalize isOwner

def Quiet (s : Account) : Prop := s.saves = [] ∧ s.lastFailed = false

/-- The escrow has every key under which there is content, and so has the keyring of a session that is opened
again. -/
structure Recoverable (s : Account) : Prop where
  escrowed : ∀ u ∈ s.used, ∃ K ∈ s.escrow, K.get u.1 = some u.2
  reloaded : ∀ isOwner s', step s (.reload isOwner) = some s' → ∀ u ∈ s.used, s'.keyring.get u.1 = some u.2

/-- Content is stored under a key that the last save has sent, a request does not reach the server after that of
a later call, and the session is opened again when the escrow is quiet. -/
def Clear (s : Account) : Event → Prop
  | .persist r => ∀ e ∈ s.keyring.currentEpoch, s.sent.get (e, r) = s.keyring.get (e, r)
  | .saved k | .saveFails k true => ∀ e ∈ s.saves[k]?, s.escrowCall < e.1
  | .reload _ => Quiet s
  | _ => True

def Within (K L : Keyring) : Prop := ∀ p key, K.get p = some key → L.get p = some key

structure Inv (s : Account) : Prop where
  used : ∀ u ∈ s.used, s.sent.get u.1 = some u.2
  sent : Within s.sent s.keyring
  calls : ∀ e ∈ s.saves, e.1 ≤ s.calls
  last : ∀ e ∈ s.saves, e.1 = s.calls → e.2 = s.sent
  escrowCall : s.escrowCall ≤ s.calls
  settled : s.lastFailed = false → (∃ e ∈ s.saves, e.1 = s.calls) ∨
    (s.escrowCall = s.calls ∧ ∀ p key, s.sent.get p = some key → ∃ K ∈ s.escrow, K.get p = some key)

section Keyring
variable {K L M : Keyring} {keys : List ((Nat × Resource) × Nat)}

theorem Within.trans (h : Within K L) (h' : Within L M) : Within K M := fun p key hkey => h' p key (h p key hkey)

theorem within_gain (K : Keyring) (keys : List ((Nat × Resource) × Nat)) : Within K (K.gain keys) := by
  induction keys generalizing K with
  | nil => exact fun _ _ h => h
  | cons e keys ih =>
    refine Within.trans ?_ (ih (if K.has e.1 then K else K.set e.1 e.2))
    intro p key hkey
    by_cases hhas : K.has e.1
    · rw [if_pos hhas]
      exact hkey
    · have hne : p ≠ e.1 := by
        rintro rfl
        exact hhas (KeyedMap.has_iff.mpr ⟨key, hkey⟩)
      rw [if_neg hhas, KeyedMap.get_set_ne hne]
      exact hkey

end Keyring

section Steps
variable {s s' : Account} {k : Nat}

section
variable (h : Inv s)
include h

theorem Inv.quiet (hq : Quiet s) : s.escrowCall = s.calls ∧
    ∀ u ∈ s.used, ∃ K ∈ s.escrow, K.get u.1 = some u.2 := by
  obtain ⟨hsaves, hlast⟩ := hq
  rcases h.settled hlast with ⟨e, he, -⟩ | ⟨hcall, hsent⟩
  · rw [hsaves] at he
    cases he
  · exact ⟨hcall, fun u hu => hsent u.1 u.2 (h.used u hu)⟩

theorem Inv.save : Inv s.save where
  used u hu := h.sent u.1 u.2 (h.used u hu)
  sent _ _ hkey := hkey
  calls e he := by
    change e ∈ (if s.unlocked then s.saves ++ [(s.calls + 1, s.keyring)] else s.saves) at he
    split at he
    · rcases List.mem_append.mp he with hold | hnew
      · exact (h.calls e hold).trans (Nat.le_succ _)
      · obtain rfl := List.mem_singleton.mp hnew
        exact le_rfl
    · exact (h.calls e he).trans (Nat.le_succ _)
  last e he hcall := by
    change e ∈ (if s.unlocked then s.saves ++ [(s.calls + 1, s.keyring)] else s.saves) at he
    change e.1 = s.calls + 1 at hcall
    split at he
    · rcases List.mem_append.mp he with hold | hnew
      · have hle := h.calls e hold
        omega
      · obtain rfl := List.mem_singleton.mp hnew
        rfl
    · have hle := h.calls e he
      omega
  escrowCall := h.escrowCall.trans (Nat.le_succ _)
  settled hlast := by
    have hunlocked : s.unlocked = true := by simpa [Account.save] using hlast
    simp [Account.save, hunlocked]

theorem Inv.setKeyring {K : Keyring} (hK : Within s.keyring K) : Inv { s with keyring := K } :=
  { h with sent := h.sent.trans hK }

theorem Inv.openChannel (r : Resource) : Inv (s.openChannel r) := by
  unfold Account.openChannel
  split
  · exact h
  · have hopened : Inv { s with opened := s.opened ++ [r] } := { h with }
    split
    · split
      · rename_i e _ _
        have hmint : Inv { s with
            opened := s.opened ++ [r], keyring := s.keyring.gain [((e, r), s.minted)], minted := s.minted + 1 } :=
          { h.setKeyring (within_gain s.keyring [((e, r), s.minted)]) with }
        exact hmint.save
      · exact hopened
    · exact hopened

theorem Inv.retry : Inv s.retry := by
  unfold Account.retry
  split
  · have hflag : Inv { s with retryTimers := s.retryTimers - 1, escrowedThisSession := true } := { h with }
    exact hflag.save
  · exact { h with }

theorem Inv.renew (e n : Nat) :
    Inv (Account.save { s with keyring := s.keyring.rotate e s.minted, minted := n }) := by
  have hrotate : Inv { s with keyring := s.keyring.rotate e s.minted, minted := n } :=
    { h.setKeyring (within_gain s.keyring _) with }
  exact hrotate.save

theorem Inv.finalize (hq : Quiet s) (isOwner : Bool) : Inv (s.finalize isOwner) ∧
    ∀ u ∈ s.used, (s.finalize isOwner).keyring.get u.1 = some u.2 := by
  obtain ⟨hcall, hused⟩ := h.quiet hq
  have hnil : s.saves = [] := hq.1
  unfold Account.finalize
  cases hescrow : s.escrow with
  | some K =>
    have hK : ∀ u ∈ s.used, K.get u.1 = some u.2 := by
      intro u hu
      obtain ⟨K', hK', hkey⟩ := hused u hu
      rw [hescrow] at hK'
      rwa [Option.some.inj hK']
    refine ⟨{ h with used := hK, sent := fun _ _ hkey => hkey, last := ?_, settled := ?_ }, hK⟩
    · intro e he
      rw [show s.saves = [] from hnil] at he
      cases he
    · exact fun _ => .inr ⟨hcall, fun p key hkey => ⟨K, rfl, hkey⟩⟩
  | none =>
    have hempty : ∀ u, u ∉ s.used := by
      intro u hu
      obtain ⟨K, hK, -⟩ := hused u hu
      rw [hescrow] at hK
      cases hK
    have hfresh : ∀ K : Keyring, ∀ u ∈ s.used, K.get u.1 = some u.2 := fun K u hu => absurd hu (hempty u)
    have hno : ∀ e ∈ s.saves, False := by
      intro e he
      rw [hnil] at he
      cases he
    dsimp only
    split
    · have hgenesis : Inv { s with
          opened := [], retryTimers := 4, keyring := Keyring.genesis s.minted, minted := s.minted + 2,
          escrowedThisSession := true, escrow := none, sent := KeyedMap.empty } :=
        { h with
          used := hfresh _
          sent := fun p key hkey => by cases hkey
          last := fun e he => absurd he (hno e)
          settled := fun _ => .inr ⟨hcall, fun p key hkey => by cases hkey⟩ }
      exact ⟨hgenesis.save, hfresh _⟩
    · exact ⟨{ h with
          used := hfresh _
          sent := fun _ _ hkey => hkey
          last := fun e he => absurd he (hno e)
          settled := fun _ => .inr ⟨hcall, fun p key hkey => by cases hkey⟩ }, hfresh _⟩

theorem Inv.store {e : Nat × Keyring} (hk : s.saves[k]? = some e) (hclear : s.escrowCall < e.1) (b : Bool)
    (hb : b = false → s.lastFailed = false) :
    Inv (Account.store { s with saves := s.saves.eraseIdx k, lastFailed := b } e) where
  used := h.used
  sent := h.sent
  calls e' he' := h.calls e' (List.mem_of_mem_eraseIdx he')
  last e' he' := h.last e' (List.mem_of_mem_eraseIdx he')
  escrowCall := h.calls e (List.mem_of_getElem? hk)
  settled hlast := by
    have hmem := List.mem_of_getElem? hk
    rcases h.settled (hb hlast) with ⟨e', he', hcall⟩ | ⟨hcall, -⟩
    · rcases mem_or_mem_eraseIdx hk he' with rfl | hin
      · refine .inr ⟨hcall, fun p key hkey => ⟨e'.2, rfl, ?_⟩⟩
        rw [h.last e' he' hcall]
        exact hkey
      · exact .inl ⟨e', hin, hcall⟩
    · have hle := h.calls e hmem
      omega

theorem Inv.fail {e : Nat × Keyring} (hk : s.saves[k]? = some e) :
    Inv { s with saves := s.saves.eraseIdx k, lastFailed := s.lastFailed || decide (e.1 = s.calls) } :=
  { h with
    calls := fun e' he' => h.calls e' (List.mem_of_mem_eraseIdx he')
    last := fun e' he' => h.last e' (List.mem_of_mem_eraseIdx he')
    settled := fun hlast => by
      obtain ⟨hold, hne⟩ := Bool.or_eq_false_iff.mp hlast
      rcases h.settled hold with ⟨e', he', hcall⟩ | hright
      · rcases mem_or_mem_eraseIdx hk he' with rfl | hin
        · exact absurd hcall (of_decide_eq_false hne)
        · exact .inl ⟨e', hin, hcall⟩
      · exact .inr hright }

theorem step_inv (e : Event) (hclear : Clear s e) (hstep : step s e = some s') : Inv s' := by
  cases e with
  | openDocument docId =>
    obtain rfl := Option.some.inj hstep
    exact h.openChannel _
  | openIndex ns =>
    obtain rfl := Option.some.inj hstep
    exact h.openChannel _
  | closeDocument docId =>
    obtain rfl := Option.some.inj hstep
    exact { h with }
  | closeIndex ns =>
    obtain rfl := Option.some.inj hstep
    exact { h with }
  | grant keys =>
    obtain rfl := Option.some.inj hstep
    exact h.setKeyring (within_gain s.keyring keys)
  | retry =>
    simp only [step, Option.ite_none_left_eq_some, Option.some.injEq] at hstep
    obtain ⟨-, rfl⟩ := hstep
    exact h.retry
  | renewVaultKey =>
    simp only [step] at hstep
    split at hstep
    · rename_i e _
      obtain ⟨-, rfl⟩ := Option.ite_some_none_eq_some.1 hstep
      exact h.renew e _
    · cases hstep
  | persist r =>
    simp only [step] at hstep
    split at hstep
    · split at hstep
      · rename_i e hepoch
        split at hstep
        · rename_i key hkey
          obtain rfl := Option.some.inj hstep
          refine { h with used := ?_ }
          intro u hu
          rcases List.mem_append.mp hu with hold | hnew
          · exact h.used u hold
          · obtain rfl := List.mem_singleton.mp hnew
            exact (hclear e hepoch).trans hkey
        · cases hstep
      · cases hstep
    · cases hstep
  | saved k =>
    simp only [step] at hstep
    split at hstep
    · rename_i e hk
      obtain rfl := Option.some.inj hstep
      exact h.store hk (hclear e hk) s.lastFailed id
    · cases hstep
  | saveFails k stored =>
    simp only [step] at hstep
    split at hstep
    · rename_i e hk
      cases stored with
      | true =>
        obtain rfl := Option.some.inj hstep
        exact h.store hk (hclear e hk) _ fun hlast => (Bool.or_eq_false_iff.mp hlast).1
      | false =>
        obtain rfl := Option.some.inj hstep
        exact h.fail hk
    · cases hstep
  | unlock unlocked =>
    obtain rfl := Option.some.inj hstep
    exact { h with }
  | reload isOwner =>
    simp only [step, Option.ite_none_left_eq_some, Option.some.injEq] at hstep
    obtain ⟨-, rfl⟩ := hstep
    exact (h.finalize hclear isOwner).1

end

theorem blank_inv (escrow : Option Keyring) : Inv (blank escrow) where
  used _ hu := by cases hu
  sent _ _ hkey := by cases hkey
  calls _ he := by cases he
  last _ he := by cases he
  escrowCall := le_rfl
  settled _ := .inr ⟨rfl, fun _ _ hkey => by cases hkey⟩

theorem Inv.recoverable (h : Inv s) (hq : Quiet s) : Recoverable s where
  escrowed := (h.quiet hq).2
  reloaded isOwner s' hstep := by
    simp only [step, Option.ite_none_left_eq_some, Option.some.injEq] at hstep
    obtain ⟨-, rfl⟩ := hstep
    exact (h.finalize hq isOwner).2

end Steps

section Witnesses

instance (s : Account) : Decidable (Quiet s) :=
  decidable_of_iff (s.saves.isEmpty = true ∧ s.lastFailed = false) (by simp [Quiet])

instance : ∀ (s : Account) (e : Event), Decidable (Clear s e)
  | s, .persist r => inferInstanceAs (Decidable
      (∀ e ∈ s.keyring.currentEpoch, s.sent.get (e, r) = s.keyring.get (e, r)))
  | s, .saved k => inferInstanceAs (Decidable (∀ e ∈ s.saves[k]?, s.escrowCall < e.1))
  | s, .saveFails k true => inferInstanceAs (Decidable (∀ e ∈ s.saves[k]?, s.escrowCall < e.1))
  | s, .reload _ => inferInstanceAs (Decidable (Quiet s))
  | _, .saveFails _ false | _, .openDocument _ | _, .openIndex _ | _, .closeDocument _ | _, .closeIndex _
  | _, .grant _ | _, .retry | _, .renewVaultKey | _, .unlock _ => .isTrue trivial

end Witnesses

end Savoire.KeyEscrow
