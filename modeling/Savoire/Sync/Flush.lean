import Savoire.Text
import Savoire.Library.Transition
import Mathlib.Data.Finset.Lattice.Lemmas
import Mathlib.Data.Finset.Insert
import Mathlib.Logic.Function.Basic

/-! The pushes of a session on the server: the directory and the open maps, the pushes that are lost, and the
flushes that make up for them. -/
namespace Savoire.Flush
open Transition

/-- The directory, or the map of a namespace. -/
abbrev Channel := Option Text

/-- What a flush has counted. `seen` and `acked` record how many pushes had been lost by then, and how many of
them acknowledged. -/
structure Count where
  lost : Nat
  seen : Nat
  acked : Nat
  deriving DecidableEq

inductive Stage (U : Type*)
  | settling
  | counted (c : Count)
  /-- The state of the `n`-th channel has been sent. -/
  | pushing (c : Count) (n : Nat) (state : U)
  | resolved
  | rejected

/-- A call of `flush`; `before` records how many changes were made before it. -/
structure FlushCall (U : Type*) where
  before : Nat
  stage : Stage U

/-- `server` is the join of the updates of each channel that the server has accepted. `edits` and `losses`
record the local changes and those whose push was lost, `acked` how many of these are acknowledged. -/
structure Session (U : Type*) where
  connected : Bool
  replica : Channel → U
  indexes : List Text
  inFlight : List (Channel × U)
  lostPushes : Nat
  server : Channel → U
  flushes : List (FlushCall U)
  edits : List (Channel × U)
  losses : List (Channel × U)
  acked : Nat

variable {U : Type*} [SemilatticeSup U]

namespace Session
variable (s : Session U)

def accept (e : Channel × U) : Session U :=
  { s with server := Function.update s.server e.1 (s.server e.1 ⊔ e.2) }

def lose (e : Channel × U) : Session U :=
  { s with lostPushes := s.lostPushes + 1, losses := s.losses ++ [e] }

/-- `pushVaultUpdate`, `pushIndexUpdate` -/
def push (e : Channel × U) : Session U :=
  if s.connected then { s with inFlight := s.inFlight ++ [e] } else s.lose e

/-- A local change, which is pushed at once. A map does not push what its observers write while it applies an
update (`applyingRemote`). -/
def edit (e : Channel × U) (applyingRemote : Bool) : Session U :=
  let s' : Session U :=
    { s with replica := Function.update s.replica e.1 (s.replica e.1 ⊔ e.2), edits := s.edits ++ [e] }
  if e.1.isSome && applyingRemote then s' else s'.push e

def setStage (k : Nat) (stage : Stage U) : Session U :=
  { s with flushes := s.flushes.modify k fun f => { f with stage } }

/-- The channels in the order in which `flush` sends their states. -/
def channelAt : Nat → Option Channel
  | 0 => some none
  | n + 1 => (s.indexes[n]?).map some

/-- `acknowledgeLost` -/
def acknowledgeLost (count : Nat) : Session U :=
  { s with lostPushes := s.lostPushes - count, acked := s.losses.length - (s.lostPushes - count) }

def pushNext (k : Nat) (c : Count) (n : Nat) : Session U :=
  match s.channelAt n with
  | some channel => s.setStage k (.pushing c n (s.replica channel))
  | none => (s.acknowledgeLost c.lost).setStage k .resolved

end Session

inductive Event (U : Type*)
  | edit (channel : Channel) (u : U) (applyingRemote : Bool)
  | openIndex (ns : Text)
  | receive (channel : Channel) (u : U)
  | connect (up : Bool)
  /-- The end of a push; the server may have stored an update whose push fails. -/
  | pushed (k : Nat) (stored ok : Bool)
  | flush
  | settle (k : Nat)
  | proceed (k : Nat)
  | statePushed (k : Nat) (stored ok : Bool)

def step (s : Session U) : Event U → Option (Session U)
  | .edit channel u applyingRemote =>
    if channel.all fun ns => decide (ns ∈ s.indexes) then some (s.edit (channel, u) applyingRemote) else none
  | .openIndex ns => some (if ns ∈ s.indexes then s else { s with indexes := s.indexes ++ [ns] })
  | .receive channel u =>
    some { s with replica := Function.update s.replica channel (s.replica channel ⊔ u) }
  | .connect up => some { s with connected := up }
  | .pushed k stored ok => match s.inFlight[k]? with
    | none => none
    | some e =>
      let s' : Session U := { s with inFlight := s.inFlight.eraseIdx k }
      if ok then some (s'.accept e) else some ((if stored then s'.accept e else s').lose e)
  | .flush => some { s with flushes := s.flushes ++ [⟨s.edits.length, .settling⟩] }
  | .settle k => match s.flushes[k]?, s.inFlight with
    | some ⟨_, .settling⟩, [] => some (s.setStage k (.counted ⟨s.lostPushes, s.losses.length, s.acked⟩))
    | _, _ => none
  | .proceed k => match s.flushes[k]? with
    | some ⟨_, .counted c⟩ => some (if c.lost = 0 then s.setStage k .resolved else s.pushNext k c 0)
    | _ => none
  | .statePushed k stored ok => match s.flushes[k]? with
    | some ⟨_, .pushing c n state⟩ => match s.channelAt n with
      | some channel =>
        if ok then some ((s.accept (channel, state)).pushNext k c (n + 1))
        else some ((if stored then s.accept (channel, state) else s).setStage k .rejected)
      | none => none
    | _ => none

def start [OrderBot U] : Session U := ⟨false, fun _ => ⊥, [], [], 0, fun _ => ⊥, [], [], [], 0⟩

/-- Between the count of a flush and its acknowledgement, no other flush acknowledges or no push is lost. -/
def Session.ClearAt (s : Session U) : Stage U → Prop
  | .pushing c n _ => s.channelAt (n + 1) = none → s.acked = c.acked ∨ s.losses.length = c.seen
  | _ => True

/-- Each acknowledgement is clear, and no observer writes into a map that applies an update. -/
def Clear (s : Session U) : Event U → Prop
  | .edit channel _ applyingRemote => (channel.isSome && applyingRemote) = false
  | .statePushed k _ true => ∀ f ∈ s.flushes[k]?, s.ClearAt f.stage
  | _ => True

def Held (s : Session U) (e : Channel × U) : Prop := e.2 ≤ s.server e.1

/-- A flush that went through, and a count of zero with nothing in flight, mean that nothing is lost. -/
structure Saved (s : Session U) : Prop where
  flush : ∀ f ∈ s.flushes, f.stage = .resolved → ∀ e ∈ s.edits.take f.before, Held s e
  idle : s.lostPushes = 0 → s.inFlight = [] → ∀ e ∈ s.edits, Held s e

structure Counted (s : Session U) (before : Nat) (c : Count) : Prop where
  seen : c.seen ≤ s.losses.length
  sum : c.acked + c.lost = c.seen
  acked : c.acked ≤ s.acked
  made : before ≤ s.edits.length
  edits : ∀ e ∈ s.edits.take before, e ∈ s.losses.take c.seen ∨ Held s e

/-- The losses counted on the `n`-th channel are within `P`. -/
def Covered (s : Session U) (c : Count) (n : Nat) (P : Channel × U → Prop) : Prop :=
  ∃ channel, s.channelAt n = some channel ∧ ∀ e ∈ s.losses.take c.seen, e.1 = channel → P e

def StageInv (s : Session U) (before : Nat) : Stage U → Prop
  | .settling | .rejected => before ≤ s.edits.length
  | .counted c => Counted s before c
  | .pushing c n state =>
    Counted s before c ∧ Covered s c n (·.2 ≤ state) ∧ ∀ m < n, Covered s c m (Held s)
  | .resolved => before ≤ s.edits.length ∧ ∀ e ∈ s.edits.take before, Held s e

structure Ledger (s : Session U) : Prop where
  count : s.acked + s.lostPushes = s.losses.length
  replica : ∀ e ∈ s.edits, e.2 ≤ s.replica e.1
  opened : ∀ e ∈ s.edits, ∀ ns, e.1 = some ns → ns ∈ s.indexes
  ledger : ∀ e ∈ s.edits, e ∈ s.inFlight ∨ e ∈ s.losses ∨ Held s e
  losses : ∀ e ∈ s.losses, e ∈ s.edits
  flying : ∀ e ∈ s.inFlight, e ∈ s.edits
  acked : ∀ e ∈ s.losses.take s.acked, Held s e

structure Inv (s : Session U) : Prop extends Ledger s where
  flushes : ∀ f ∈ s.flushes, StageInv s f.before f.stage

section Steps
variable {s s' : Session U} {e : Channel × U} {k : Nat} {c : Count} {before : Nat} {stage : Stage U}

theorem Held.accept (h : Held s e) (e' : Channel × U) : Held (s.accept e') e := by
  show e.2 ≤ Function.update s.server e'.1 (s.server e'.1 ⊔ e'.2) e.1
  by_cases hc : e.1 = e'.1
  · rw [hc, Function.update_self]
    exact le_sup_of_le_left (hc ▸ h)
  · rw [Function.update_of_ne hc]
    exact h

theorem held_accept (s : Session U) {e e' : Channel × U} (hc : e.1 = e'.1) (hu : e.2 ≤ e'.2) :
    Held (s.accept e') e := by
  show e.2 ≤ Function.update s.server e'.1 (s.server e'.1 ⊔ e'.2) e.1
  rw [hc, Function.update_self]
  exact le_sup_of_le_right hu

/-- What a state extends: more changes, losses, namespaces and accepted updates. -/
structure Extends (s s' : Session U) : Prop where
  edits : s.edits <+: s'.edits
  losses : s.losses <+: s'.losses
  indexes : s.indexes <+: s'.indexes
  acked : s.acked ≤ s'.acked
  held : ∀ e, Held s e → Held s' e

theorem Extends.refl (s : Session U) : Extends s s :=
  ⟨List.prefix_rfl, List.prefix_rfl, List.prefix_rfl, le_rfl, fun _ h => h⟩

theorem take_of_extends {α : Type*} {l l' : List α} (h : l <+: l') {n : Nat} (hn : n ≤ l.length) :
    l'.take n = l.take n := by
  obtain ⟨rest, rfl⟩ := h
  exact List.take_append_of_le_length hn

theorem Extends.counted (h : Extends s s') (hc : Counted s before c) : Counted s' before c where
  seen := hc.seen.trans h.losses.length_le
  sum := hc.sum
  acked := hc.acked.trans h.acked
  made := hc.made.trans h.edits.length_le
  edits e he := by
    rw [take_of_extends h.edits hc.made] at he
    rw [take_of_extends h.losses hc.seen]
    exact (hc.edits e he).imp_right (h.held e)

theorem Extends.channelAt (h : Extends s s') {n : Nat} {ch : Channel} (hn : s.channelAt n = some ch) :
    s'.channelAt n = some ch := by
  cases n with
  | zero => exact hn
  | succ n =>
    obtain ⟨ns, hns, rfl⟩ := Option.map_eq_some_iff.mp hn
    obtain ⟨hlt, rfl⟩ := List.getElem?_eq_some_iff.mp hns
    exact Option.map_eq_some_iff.mpr ⟨_, List.prefix_iff_getElem?.mp h.indexes n hlt, rfl⟩

theorem Extends.covered (h : Extends s s') (hc : Counted s before c) {n : Nat} {P Q : Channel × U → Prop}
    (hPQ : ∀ e, P e → Q e) (hn : Covered s c n P) : Covered s' c n Q := by
  obtain ⟨ch, hch, hP⟩ := hn
  refine ⟨ch, h.channelAt hch, fun e he hech => hPQ e (hP e ?_ hech)⟩
  rwa [take_of_extends h.losses hc.seen] at he

theorem Extends.stageInv (h : Extends s s') (hs : StageInv s before stage) : StageInv s' before stage := by
  cases stage with
  | settling => exact le_trans hs h.edits.length_le
  | rejected => exact le_trans hs h.edits.length_le
  | counted c => exact h.counted hs
  | pushing c n state =>
    obtain ⟨hc, hn, hm⟩ := hs
    exact ⟨h.counted hc, h.covered hc (fun _ h => h) hn, fun m hlt => h.covered hc h.held (hm m hlt)⟩
  | resolved =>
    obtain ⟨hb, he⟩ := hs
    refine ⟨hb.trans h.edits.length_le, fun e hmem => h.held e (he e ?_)⟩
    rwa [take_of_extends h.edits hb] at hmem

theorem StageInv.made (h : StageInv s before stage) : before ≤ s.edits.length := by
  cases stage with
  | settling => exact h
  | rejected => exact h
  | counted c => exact Counted.made h
  | pushing c n state => exact h.1.made
  | resolved => exact h.1

theorem Inv.extend (h : Inv s) (hl : Ledger s') (hx : Extends s s') (hf : s'.flushes = s.flushes) : Inv s' where
  toLedger := hl
  flushes f hmem := hx.stageInv (h.flushes f (hf ▸ hmem))

theorem Ledger.accept (h : Ledger s) (e : Channel × U) : Ledger (s.accept e) where
  __ := h
  ledger e' he' := (h.ledger e' he').imp_right fun hl => hl.imp_right fun hheld => hheld.accept e
  acked e' he' := (h.acked e' he').accept e

theorem Extends.accept (s : Session U) (e : Channel × U) : Extends s (s.accept e) :=
  { Extends.refl s with held := fun _ hheld => hheld.accept e }

theorem Ledger.lose (h : Ledger s) (he : e ∈ s.edits) : Ledger (s.lose e) where
  count := by
    have hcount := h.count
    simp only [Session.lose, List.length_append, List.length_singleton]
    omega
  __ := h
  ledger e' he' := (h.ledger e' he').imp_right fun hl => hl.imp_left (List.mem_append_left [e])
  losses e' he' := by
    rcases List.mem_append.mp he' with he' | he'
    · exact h.losses e' he'
    · rwa [List.mem_singleton.mp he']
  acked := by
    have hle : s.acked ≤ s.losses.length := by have hcount := h.count; omega
    show ∀ e' ∈ (s.losses ++ [e]).take s.acked, Held s e'
    rw [List.take_append_of_le_length hle]
    exact h.acked

theorem Extends.lose (s : Session U) (e : Channel × U) : Extends s (s.lose e) :=
  { Extends.refl s with losses := List.prefix_append s.losses [e] }

theorem Ledger.land (h : Ledger s) (hk : s.inFlight[k]? = some e) (he : e ∈ s.losses ∨ Held s e) :
    Ledger { s with inFlight := s.inFlight.eraseIdx k } where
  __ := h
  ledger e' he' := by
    rcases h.ledger e' he' with hmem | hmem
    · rcases mem_or_mem_eraseIdx hk hmem with rfl | hmem
      · exact .inr he
      · exact .inl hmem
    · exact .inr hmem
  flying e' he' := h.flying e' (List.mem_of_mem_eraseIdx he')

theorem Ledger.send (h : Ledger s) (hopen : ∀ ns, e.1 = some ns → ns ∈ s.indexes) :
    Ledger { s with
      replica := Function.update s.replica e.1 (s.replica e.1 ⊔ e.2)
      edits := s.edits ++ [e]
      inFlight := s.inFlight ++ [e] } where
  count := h.count
  replica e' he' := by
    show e'.2 ≤ Function.update s.replica e.1 (s.replica e.1 ⊔ e.2) e'.1
    rcases List.mem_append.mp he' with he' | he'
    · by_cases hc : e'.1 = e.1
      · rw [hc, Function.update_self]
        exact le_sup_of_le_left (hc ▸ h.replica e' he')
      · rw [Function.update_of_ne hc]
        exact h.replica e' he'
    · rw [List.mem_singleton.mp he', Function.update_self]
      exact le_sup_right
  opened e' he' := by
    rcases List.mem_append.mp he' with he' | he'
    · exact h.opened e' he'
    · rwa [List.mem_singleton.mp he']
  ledger e' he' := by
    rcases List.mem_append.mp he' with he' | he'
    · exact (h.ledger e' he').imp_left (List.mem_append_left [e])
    · exact .inl (List.mem_append_right _ he')
  losses e' he' := List.mem_append_left [e] (h.losses e' he')
  flying e' he' := by
    rcases List.mem_append.mp he' with he' | he'
    · exact List.mem_append_left [e] (h.flying e' he')
    · exact List.mem_append_right _ he'
  acked := h.acked

section
variable (h : Inv s)
include h

theorem Inv.edit (hopen : ∀ ns, e.1 = some ns → ns ∈ s.indexes) {applyingRemote : Bool}
    (happ : (e.1.isSome && applyingRemote) = false) : Inv (s.edit e applyingRemote) := by
  have hsent := h.toLedger.send hopen
  have hx : Extends s { s with
      replica := Function.update s.replica e.1 (s.replica e.1 ⊔ e.2), edits := s.edits ++ [e] } :=
    { Extends.refl s with edits := List.prefix_append s.edits [e] }
  simp only [Session.edit, happ, Bool.false_eq_true, if_false, Session.push]
  split
  · exact h.extend hsent { hx with } rfl
  · -- the loss of a change that was never in flight: sent, then lost, then landed
    have hlost := hsent.lose (e := e) (List.mem_append_right _ (List.mem_singleton.mpr rfl))
    have hlanded := hlost.land (k := s.inFlight.length) (e := e) List.getElem?_concat_length
      (.inl (List.mem_append_right _ (List.mem_singleton.mpr rfl)))
    refine h.extend ?_ { hx with losses := List.prefix_append s.losses [e] } rfl
    simpa [Session.lose, List.eraseIdx_append_of_length_le] using hlanded

theorem Inv.setStage {f : FlushCall U} (hk : s.flushes[k]? = some f)
    (hst : StageInv s f.before stage) : Inv (s.setStage k stage) where
  __ := h
  flushes f' hf' := by
    have hx : Extends s (s.setStage k stage) := { Extends.refl s with }
    obtain ⟨i, hi⟩ := List.mem_iff_getElem?.mp hf'
    rw [Session.setStage, List.getElem?_modify] at hi
    by_cases hik : k = i
    · subst hik
      simp only [hk, if_true, Option.map_eq_map, Option.map_some, Option.some.injEq] at hi
      subst hi
      exact hx.stageInv hst
    · simp only [hik, if_false, Option.map_eq_map, Option.map_id'] at hi
      exact hx.stageInv (h.flushes f' (List.mem_of_getElem? hi))

theorem Inv.recovered {n : Nat} (hn : s.channelAt n = none)
    (hcov : ∀ m < n, Covered s c m (Held s)) : ∀ e ∈ s.losses.take c.seen, Held s e := by
  intro e he
  have hmade := h.losses e (List.mem_of_mem_take he)
  cases n with
  | zero => cases hn
  | succ n =>
    have hlen : s.indexes.length ≤ n := by simpa [Session.channelAt] using hn
    obtain ⟨m, hm, hch⟩ : ∃ m < n + 1, s.channelAt m = some e.1 := by
      cases hns : e.1 with
      | none => exact ⟨0, by omega, rfl⟩
      | some ns =>
        obtain ⟨i, hi⟩ := List.mem_iff_getElem?.mp (h.opened e hmade ns hns)
        have hlt : i < s.indexes.length := (List.getElem?_eq_some_iff.mp hi).1
        exact ⟨i + 1, by omega, by simp [Session.channelAt, hi]⟩
    obtain ⟨ch, hch', hheld⟩ := hcov m hm
    exact hheld e he (Option.some.inj (hch.symm.trans hch'))

theorem Inv.acknowledgeLost (hc : Counted s before c)
    (hclear : s.acked = c.acked ∨ s.losses.length = c.seen)
    (hheld : ∀ e ∈ s.losses.take c.seen, Held s e) : Inv (s.acknowledgeLost c.lost) := by
  have hcount := h.count
  have hsum := hc.sum
  have hle : s.losses.length - (s.lostPushes - c.lost) ≤ c.seen := by
    omega
  have hl : Ledger (s.acknowledgeLost c.lost) :=
    { count := by
        simp only [Session.acknowledgeLost]
        omega
      __ := h
      acked := fun e he => hheld e (List.take_subset_take_left s.losses hle he) }
  refine h.extend hl { Extends.refl s with acked := ?_ } rfl
  simp only [Session.acknowledgeLost]
  omega

theorem Inv.pushNext {f : FlushCall U} (hk : s.flushes[k]? = some f) (hc : Counted s f.before c)
    {n : Nat} (hcov : ∀ m < n, Covered s c m (Held s))
    (hclear : s.channelAt n = none → s.acked = c.acked ∨ s.losses.length = c.seen) :
    Inv (s.pushNext k c n) := by
  unfold Session.pushNext
  split
  · rename_i ch hch
    refine h.setStage hk ⟨hc, ⟨ch, hch, fun e he hech => ?_⟩, hcov⟩
    exact hech ▸ h.replica e (h.losses e (List.mem_of_mem_take he))
  · rename_i hch
    have hheld := h.recovered hch hcov
    have hack := h.acknowledgeLost hc (hclear hch) hheld
    refine hack.setStage hk ⟨hc.made, fun e he => ?_⟩
    exact (hc.edits e he).elim (hheld e) id

theorem Inv.settle {f : FlushCall U} (hk : s.flushes[k]? = some f) (hidle : s.inFlight = []) :
    Inv (s.setStage k (.counted ⟨s.lostPushes, s.losses.length, s.acked⟩)) := by
  refine h.setStage hk ⟨le_rfl, h.count, le_rfl, ?_, fun e he => ?_⟩
  · exact (h.flushes f (List.mem_of_getElem? hk)).made
  · have hl := h.ledger e (List.mem_of_mem_take he)
    simpa [hidle] using hl

theorem Inv.none_lost (hc : Counted s before c) (hlost : c.lost = 0) :
    ∀ e ∈ s.edits.take before, Held s e := by
  intro e he
  have hle : c.seen ≤ s.acked := by
    have hsum := hc.sum
    have hacked := hc.acked
    omega
  exact (hc.edits e he).elim (fun hl => h.acked e (List.take_subset_take_left s.losses hle hl)) id

theorem step_inv {ev : Event U} (hclear : Clear s ev) (hstep : step s ev = some s') : Inv s' := by
  cases ev with
  | edit channel u applyingRemote =>
    simp only [step] at hstep
    obtain ⟨hopen, rfl⟩ := Option.ite_some_none_eq_some.1 hstep
    exact h.edit (fun ns hns => by simpa [show channel = some ns from hns] using hopen) hclear
  | openIndex ns =>
    obtain rfl := Option.some.inj hstep
    split
    · exact h
    · refine h.extend { h.toLedger with opened := fun e he ns' hns' => ?_ }
        { Extends.refl s with indexes := List.prefix_append s.indexes [ns] } rfl
      exact List.mem_append_left [ns] (h.opened e he ns' hns')
  | receive channel u =>
    obtain rfl := Option.some.inj hstep
    refine h.extend { h.toLedger with replica := fun e he => (h.replica e he).trans ?_ } { Extends.refl s with } rfl
    show s.replica e.1 ≤ Function.update s.replica channel (s.replica channel ⊔ u) e.1
    by_cases hc : e.1 = channel
    · rw [hc, Function.update_self]
      exact le_sup_left
    · rw [Function.update_of_ne hc]
  | connect up =>
    obtain rfl := Option.some.inj hstep
    exact h.extend { h.toLedger with } { Extends.refl s with } rfl
  | pushed k stored ok =>
    simp only [step] at hstep
    split at hstep
    · cases hstep
    · rename_i e hk
      have hmade : e ∈ s.edits := h.flying e (List.mem_of_getElem? hk)
      have hacc := h.toLedger.accept e
      have hx := Extends.accept s e
      split at hstep
      · obtain rfl := Option.some.inj hstep
        exact h.extend (hacc.land hk (.inr (held_accept s rfl le_rfl))) { hx with } rfl
      · obtain rfl := Option.some.inj hstep
        have hin : e ∈ s.losses ++ [e] := List.mem_append_right _ (List.mem_singleton.mpr rfl)
        split
        · exact h.extend ((hacc.lose hmade).land hk (.inl hin))
            { hx with losses := List.prefix_append s.losses [e] } rfl
        · exact h.extend ((h.toLedger.lose hmade).land hk (.inl hin)) { Extends.lose s e with } rfl
  | flush =>
    obtain rfl := Option.some.inj hstep
    have hx : Extends s { s with flushes := s.flushes ++ [⟨s.edits.length, .settling⟩] } := { Extends.refl s with }
    refine ⟨{ h.toLedger with }, fun f hf => ?_⟩
    rcases List.mem_append.mp hf with hf | hf
    · exact hx.stageInv (h.flushes f hf)
    · rw [List.mem_singleton.mp hf]
      exact le_refl s.edits.length
  | settle k =>
    simp only [step] at hstep
    split at hstep
    · rename_i hk hidle
      obtain rfl := Option.some.inj hstep
      exact h.settle hk hidle
    · cases hstep
  | proceed k =>
    simp only [step] at hstep
    split at hstep
    · rename_i before c hk
      obtain rfl := Option.some.inj hstep
      have hc : Counted s before c := h.flushes _ (List.mem_of_getElem? hk)
      split
      · rename_i hlost
        exact h.setStage hk ⟨hc.made, h.none_lost hc hlost⟩
      · exact h.pushNext hk hc (fun m hm => absurd hm (Nat.not_lt_zero m)) (by simp [Session.channelAt])
    · cases hstep
  | statePushed k stored ok =>
    simp only [step] at hstep
    split at hstep
    · rename_i before c n state hk
      obtain ⟨hc, ⟨ch, hch, hstate⟩, hcov⟩ := h.flushes _ (List.mem_of_getElem? hk)
      have hx := Extends.accept s (ch, state)
      have hacc : Inv (s.accept (ch, state)) := h.extend (h.toLedger.accept _) hx rfl
      simp only [hch] at hstep
      split at hstep
      · rename_i hok
        obtain rfl := Option.some.inj hstep
        subst hok
        refine hacc.pushNext hk (hx.counted hc) (fun m hm => ?_) (hclear _ hk)
        rcases Nat.lt_succ_iff_lt_or_eq.mp hm with hm | rfl
        · exact hx.covered hc hx.held (hcov m hm)
        · exact ⟨ch, hx.channelAt hch, fun e he hech => held_accept s hech (hstate e he hech)⟩
      · obtain rfl := Option.some.inj hstep
        split
        · exact hacc.setStage hk (hx.counted hc).made
        · exact h.setStage hk hc.made
    · cases hstep

theorem Inv.saved : Saved s where
  flush f hf hres := by
    have hst := h.flushes f hf
    rw [hres] at hst
    exact hst.2
  idle hlost hidle e he := by
    have hall : s.acked = s.losses.length := by
      have hcount := h.count
      omega
    have hheld := h.acked
    rw [hall, List.take_length] at hheld
    rcases h.ledger e he with hfly | hloss | hs
    · simp [hidle] at hfly
    · exact hheld e hloss
    · exact hs

end

theorem start_inv [OrderBot U] : Inv (start : Session U) := by
  refine ⟨⟨rfl, ?_, ?_, ?_, ?_, ?_, ?_⟩, ?_⟩ <;> simp [start]

end Steps

instance (s : Session U) : DecidablePred s.ClearAt
  | .pushing _ n _ => inferInstanceAs (Decidable (s.channelAt (n + 1) = none → _ ∨ _))
  | .settling | .counted _ | .resolved | .rejected => isTrue trivial

instance (s : Session U) : DecidablePred (Clear s)
  | .edit channel _ applyingRemote => inferInstanceAs (Decidable ((channel.isSome && applyingRemote) = false))
  | .statePushed k _ true => inferInstanceAs (Decidable (∀ f ∈ s.flushes[k]?, s.ClearAt f.stage))
  | .statePushed _ _ false | .openIndex _ | .receive .. | .connect _ | .pushed .. | .flush | .settle _
  | .proceed _ => isTrue trivial

/-- A flush that resolves, and a count of zero with nothing in flight, mean that the server has every change. -/
theorem flush_saves [OrderBot U] (s : Session U) (hrun : Run step Clear start s) : Saved s :=
  (hrun.invariant Inv start_inv fun _ _ _ h hclear hstep => step_inv h hclear hstep).saved

/-- A change whose push finds the hub disconnected, and the flush that makes up for it. -/
theorem flush_saves_lost :
    ∃ s : Session (Finset ℕ), (s.flushes.map (·.before), s.lostPushes, s.acked) = ([1], 0, 1) ∧ Saved s :=
  ⟨_, by decide +kernel, flush_saves _ (run_of_exec
    [.edit none {0} false, .flush, .settle 0, .proceed 0, .connect true, .statePushed 0 true true] _ _ rfl)⟩

/-- Two flushes count the same loss and send the same state; a change lost after that state was taken is
acknowledged by the second of them. -/
theorem loss_acknowledged_unsaved :
    ¬ ∀ s : Session (Finset ℕ), Run step (fun _ _ => True) start s → Saved s := by
  intro h
  have hrun : Run (step (U := Finset ℕ)) (fun _ _ => True) start _ := run_of_exec
    [.edit none {0} false, .flush, .flush, .settle 0, .settle 1, .proceed 0, .proceed 1, .edit none {1} false, .connect true,
      .statePushed 0 true true, .statePushed 1 true true] _ _ rfl
  have hheld : ({1} : Finset ℕ) ≤ _ := (h _ hrun).idle rfl rfl (none, {1}) (by decide +kernel)
  revert hheld
  decide +kernel

end Savoire.Flush
