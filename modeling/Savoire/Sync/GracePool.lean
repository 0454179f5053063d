import Savoire.Library.KeyedMap
import Savoire.Library.Transition
import Savoire.Text

/-! The grace pool: one live resource a key, shared by its leases, and disposed of a while after the last of
them. The timers are those of the host; one that was set fires at any time until it is cleared. -/
namespace Savoire.Grace

structure PoolEntry (ν : Type) where
  key : Text
  value : ν
  refs : Int
  timer : Option Nat

/-- A lease knows its entry, also when another one has its key. -/
structure Lease where
  entry : Nat
  released : Bool
  deriving DecidableEq

/-- The pool with the entries that were ever made, in their order, and the leases given. Beside it what became
of the values: disposed of, or abandoned by `evict` when no lease was live. -/
structure GracePool (ν : Type) where
  entries : KeyedMap Text Nat
  made : List (PoolEntry ν)
  leases : List Lease
  timers : KeyedMap Nat Nat
  handles : Nat
  disposed : List Nat
  abandoned : List Nat

namespace GracePool
variable {ν : Type}

def empty : GracePool ν := ⟨.empty, [], [], .empty, 0, [], []⟩

def isLive (e : Nat) (l : Lease) : Bool := l.entry = e && !l.released

/-- The leases on an entry that were not released. -/
def live (s : GracePool ν) (e : Nat) : Nat := s.leases.countP (isLive e)

def clearTimeout (s : GracePool ν) : Option Nat → GracePool ν
  | none => s
  | some h => { s with timers := s.timers.delete h }

def lease (s : GracePool ν) (e : Nat) : GracePool ν := { s with leases := s.leases ++ [⟨e, false⟩] }

/-- `create` is called when the key has no entry; it gives a value or throws. -/
def acquire (s : GracePool ν) (key : Text) (create : Option ν) : GracePool ν :=
  match s.entries.get key with
  | none => match create with
    | none => s
    | some value =>
      lease { s with
        entries := s.entries.set key s.made.length
        made := s.made ++ [⟨key, value, 1, none⟩] } s.made.length
  | some e => match s.made[e]? with
    | none => s
    | some r =>
      let s := s.clearTimeout r.timer
      lease { s with made := s.made.set e { r with refs := r.refs + 1, timer := none } } e

def releaseEntry (s : GracePool ν) (e : Nat) : GracePool ν :=
  match s.made[e]? with
  | none => s
  | some r =>
    if 0 < r.refs - 1 then { s with made := s.made.set e { r with refs := r.refs - 1 } }
    else
      { s with
        made := s.made.set e { r with refs := r.refs - 1, timer := some s.handles }
        timers := s.timers.set s.handles e
        handles := s.handles + 1 }

def release (s : GracePool ν) (l : Nat) : GracePool ν :=
  match s.leases[l]? with
  | none => s
  | some lease =>
    if lease.released then s
    else releaseEntry { s with leases := s.leases.set l { lease with released := true } } lease.entry

/-- The callback of a timer. -/
def fire (s : GracePool ν) (h : Nat) : GracePool ν :=
  match s.timers.get h with
  | none => s
  | some e => match s.made[e]? with
    | none => s
    | some r =>
      { s with
        timers := s.timers.delete h
        entries := if s.entries.get r.key = some e then s.entries.delete r.key else s.entries
        disposed := s.disposed ++ [e] }

def evict [DecidableEq ν] (s : GracePool ν) (key : Text) (ifValue : Option ν) : GracePool ν :=
  match s.entries.get key with
  | none => s
  | some e => match s.made[e]? with
    | none => s
    | some r =>
      if ∃ v ∈ ifValue, r.value ≠ v then s
      else
        let s := s.clearTimeout r.timer
        { s with
          entries := s.entries.delete key
          abandoned := if s.live e = 0 then s.abandoned ++ [e] else s.abandoned }

inductive PoolOp (ν : Type)
  | acquire (key : Text) (create : Option ν)
  | release (l : Nat)
  | fire (h : Nat)
  | evict (key : Text) (ifValue : Option ν)

def apply [DecidableEq ν] (s : GracePool ν) : PoolOp ν → GracePool ν
  | .acquire key create => s.acquire key create
  | .release l => s.release l
  | .fire h => s.fire h
  | .evict key ifValue => s.evict key ifValue

/-- Nothing became of the value yet. -/
def Kept (s : GracePool ν) (e : Nat) : Prop := e ∉ s.disposed ∧ e ∉ s.abandoned

inductive Phase (s : GracePool ν) (e : Nat) (r : PoolEntry ν) : Prop
  | held : 0 < s.live e → r.timer = none → s.Kept e → Phase s e r
  | waits (h : Nat) : s.live e = 0 → r.timer = some h → s.timers.get h = some e → s.Kept e → Phase s e r
  | gone : s.live e = 0 → s.entries.get r.key ≠ some e → (e ∈ s.disposed ∨ e ∈ s.abandoned) → Phase s e r

structure Sound (s : GracePool ν) (e : Nat) (r : PoolEntry ν) : Prop where
  refs : r.refs = s.live e
  phase : Phase s e r
  timer (h : Nat) : s.timers.get h = some e → h < s.handles ∧ r.timer = some h ∧ s.live e = 0 ∧ s.Kept e
  key (k : Text) : s.entries.get k = some e → r.key = k

structure Inv (s : GracePool ν) : Prop where
  sound (e : Nat) (r : PoolEntry ν) : s.made[e]? = some r → s.Sound e r
  bound (e : Nat) : 0 < s.live e ∨ (∃ h, s.timers.get h = some e) ∨ (∃ k, s.entries.get k = some e) ∨ ¬s.Kept e →
    e < s.made.length
  once : s.disposed.Nodup
  apart (e : Nat) : e ∈ s.disposed → e ∉ s.abandoned

variable {s s' : GracePool ν} {e : Nat} {r : PoolEntry ν}

theorem Sound.held (h : s.Sound e r) (hlive : 0 < s.live e) : r.timer = none ∧ s.Kept e := by
  cases h.phase with
  | held _ htimer hkept => exact ⟨htimer, hkept⟩
  | waits _ hzero => omega
  | gone hzero => omega

theorem Sound.kept (h : s.Sound e r) {key : Text} (hkey : s.entries.get key = some e) : s.Kept e := by
  cases h.phase with
  | held _ _ hkept => exact hkept
  | waits _ _ _ _ hkept => exact hkept
  | gone _ hgone =>
    rw [h.key key hkey] at hgone
    exact absurd hkey hgone

/-- A step at one entry: the others see nothing of it. -/
structure Frame (s s' : GracePool ν) (e : Nat) : Prop where
  made (e' : Nat) : e' ≠ e → s'.made[e']? = s.made[e']?
  live (e' : Nat) : e' ≠ e → s'.live e' = s.live e'
  timers (h e' : Nat) : e' ≠ e → (s'.timers.get h = some e' ↔ s.timers.get h = some e')
  handles : s.handles ≤ s'.handles
  entries (key : Text) (e' : Nat) : e' ≠ e → s'.entries.get key = some e' → s.entries.get key = some e'
  disposed (e' : Nat) : e' ≠ e → (e' ∈ s'.disposed ↔ e' ∈ s.disposed)
  abandoned (e' : Nat) : e' ≠ e → (e' ∈ s'.abandoned ↔ e' ∈ s.abandoned)

theorem Frame.sound (f : Frame s s' e) {e' : Nat} (hne : e' ≠ e) (h : s.Sound e' r) : s'.Sound e' r := by
  have hlive := f.live e' hne
  have hkept : s'.Kept e' ↔ s.Kept e' := and_congr (f.disposed e' hne).not (f.abandoned e' hne).not
  refine ⟨by rw [hlive]; exact h.refs, ?_, ?_, fun k hk => h.key k (f.entries k e' hne hk)⟩
  · cases h.phase with
    | held hpos htimer hk => exact .held (hlive ▸ hpos) htimer (hkept.mpr hk)
    | waits t hzero htimer hget hk => exact .waits t (hlive ▸ hzero) htimer ((f.timers t e' hne).mpr hget) (hkept.mpr hk)
    | gone hzero hentry hgone =>
      exact .gone (hlive ▸ hzero) (fun hk => hentry (f.entries _ e' hne hk))
        (hgone.imp (f.disposed e' hne).mpr (f.abandoned e' hne).mpr)
  · intro t ht
    obtain ⟨hlt, htimer, hzero, hk⟩ := h.timer t ((f.timers t e' hne).mp ht)
    exact ⟨hlt.trans_le f.handles, htimer, hlive ▸ hzero, hkept.mpr hk⟩

theorem Frame.inv (f : Frame s s' e) (h : s.Inv) {r' : PoolEntry ν} (hr' : s'.made[e]? = some r')
    (hlen : s.made.length ≤ s'.made.length) (hsound : s'.Sound e r') (honce : s'.disposed.Nodup)
    (hapart : e ∈ s'.disposed → e ∉ s'.abandoned) : s'.Inv where
  sound e' r he' := by
    by_cases hne : e' = e
    · subst hne
      exact Option.some.inj (hr'.symm.trans he') ▸ hsound
    · rw [f.made e' hne] at he'
      exact f.sound hne (h.sound e' r he')
  bound e' hsome := by
    by_cases hne : e' = e
    · subst hne
      exact (List.getElem?_eq_some_iff.mp hr').1
    · refine (h.bound e' ?_).trans_le hlen
      rw [← f.live e' hne]
      refine hsome.imp id (Or.imp ?_ (Or.imp ?_ ?_))
      · exact fun ⟨t, ht⟩ => ⟨t, (f.timers t e' hne).mp ht⟩
      · exact fun ⟨k, hk⟩ => ⟨k, f.entries k e' hne hk⟩
      · exact fun hk hk' => hk ⟨fun hd => hk'.1 ((f.disposed e' hne).mp hd), fun ha => hk'.2 ((f.abandoned e' hne).mp ha)⟩
  once := honce
  apart e' hd := by
    by_cases hne : e' = e
    · subst hne
      exact hapart hd
    · rw [f.abandoned e' hne]
      exact h.apart e' ((f.disposed e' hne).mp hd)

theorem live_lease (s : GracePool ν) (e e' : Nat) : (s.lease e).live e' = s.live e' + if e' = e then 1 else 0 := by
  have hone : [Lease.mk e false].countP (isLive e') = if e' = e then 1 else 0 := by
    by_cases he : e' = e
    · subst he
      simp [isLive]
    · simp [isLive, he, Ne.symm he]
  change (s.leases ++ [Lease.mk e false]).countP (isLive e') = _
  rw [List.countP_append, hone]
  rfl

theorem live_set {l : Nat} {a : Lease} (ha : s.leases[l]? = some a) (hlive : a.released = false) (e' : Nat) :
    s.live e' = (s.leases.set l { a with released := true }).countP (isLive e') + if e' = a.entry then 1 else 0 := by
  obtain ⟨hl, rfl⟩ := List.getElem?_eq_some_iff.mp ha
  rw [List.countP_set hl]
  have hoff : isLive e' { s.leases[l] with released := true } = false := by simp [isLive]
  simp only [hoff, Bool.false_eq_true, if_false, Nat.add_zero]
  by_cases he : e' = s.leases[l].entry
  · have hon : isLive e' s.leases[l] = true := by simp [isLive, he, hlive]
    have hpos : 0 < s.live e' := List.countP_pos_iff.mpr ⟨_, List.getElem_mem hl, hon⟩
    rw [if_pos hon, if_pos he]
    unfold live at *
    omega
  · have hother : isLive e' s.leases[l] = false := by simp [isLive, Ne.symm he]
    rw [hother, if_neg (by simp), if_neg he]
    rfl

theorem Inv.entry (h : s.Inv) {key : Text} (hkey : s.entries.get key = some e) :
    ∃ r, s.made[e]? = some r ∧ s.Sound e r ∧ r.key = key ∧ s.Kept e := by
  have hlt := h.bound e (.inr (.inr (.inl ⟨key, hkey⟩)))
  have hr := List.getElem?_eq_getElem hlt
  have hsound := h.sound e _ hr
  exact ⟨_, hr, hsound, hsound.key key hkey, hsound.kept hkey⟩

theorem Inv.new (h : s.Inv) (key : Text) (value : ν) :
    (lease { s with
      entries := s.entries.set key s.made.length
      made := s.made ++ [⟨key, value, 1, none⟩] } s.made.length).Inv := by
  have hfresh := fun hsome => lt_irrefl _ (h.bound s.made.length hsome)
  have hlive : s.live s.made.length = 0 := by
    by_contra hpos
    exact hfresh (.inl (by omega))
  have hkept : s.Kept s.made.length := by
    by_contra hgone
    exact hfresh (.inr (.inr (.inr hgone)))
  have hframe : Frame s (lease { s with
      entries := s.entries.set key s.made.length
      made := s.made ++ [⟨key, value, 1, none⟩] } s.made.length) s.made.length := by
    refine ⟨?_, ?_, fun _ _ _ => Iff.rfl, le_refl _, ?_, fun _ _ => Iff.rfl, fun _ _ => Iff.rfl⟩
    · intro e' hne
      change (s.made ++ [_])[e']? = _
      obtain hlt | hge := Nat.lt_or_ge e' s.made.length
      · exact List.getElem?_append_left hlt
      · rw [List.getElem?_append_right hge, List.getElem?_eq_none hge, List.getElem?_eq_none]
        rw [List.length_singleton]
        omega
    · intro e' hne
      rw [live_lease, if_neg hne]
      rfl
    · intro k e' hne hk
      change (s.entries.set key _).get k = some e' at hk
      rw [KeyedMap.get_set] at hk
      split at hk
      · exact absurd (Option.some.inj hk).symm hne
      · exact hk
  have hmade : (s.made ++ [⟨key, value, 1, none⟩])[s.made.length]? = some ⟨key, value, 1, none⟩ :=
    List.getElem?_concat_length
  refine hframe.inv h hmade ?_ ?_ h.once (h.apart _)
  · exact (List.sublist_append_left _ _).length_le
  · have hone : (lease { s with
        entries := s.entries.set key s.made.length
        made := s.made ++ [⟨key, value, 1, none⟩] } s.made.length).live s.made.length = 1 := by
      rw [live_lease, if_pos rfl]
      change s.live _ + 1 = 1
      rw [hlive]
    refine ⟨by rw [hone]; rfl, .held (by rw [hone]; exact Nat.one_pos) rfl hkept, ?_, ?_⟩
    · intro t ht
      exact absurd (.inr (.inl ⟨t, ht⟩)) hfresh
    · intro k hk
      change (s.entries.set key _).get k = some _ at hk
      rw [KeyedMap.get_set] at hk
      split at hk
      · rename_i heq
        exact heq.symm
      · exact absurd (.inr (.inr (.inl ⟨k, hk⟩))) hfresh

theorem Sound.clear (h : s.Sound e r) (hkept : s.Kept e) : ∃ timers, s.clearTimeout r.timer = { s with timers := timers } ∧
    ∀ t e', timers.get t = some e' ↔ s.timers.get t = some e' ∧ e' ≠ e := by
  have hmine : ∀ t, s.timers.get t = some e → r.timer = some t := fun t ht => (h.timer t ht).2.1
  cases h.phase with
  | held hpos hnone =>
    refine ⟨s.timers, by rw [hnone]; rfl, fun t e' => ⟨fun ht => ⟨ht, ?_⟩, And.left⟩⟩
    rintro rfl
    cases hnone.symm.trans (hmine t ht)
  | waits t' _ htimer hget =>
    refine ⟨s.timers.delete t', by rw [htimer]; rfl, fun t e' => ?_⟩
    rw [KeyedMap.get_delete]
    by_cases ht : t = t'
    · subst ht
      rw [if_pos rfl, hget]
      simp [eq_comm]
    · rw [if_neg ht]
      refine ⟨fun hget' => ⟨hget', ?_⟩, And.left⟩
      rintro rfl
      exact ht (Option.some.inj (htimer.symm.trans (hmine t hget'))).symm
  | gone _ _ hgone => exact absurd hkept fun hk => hgone.elim hk.1 hk.2

theorem Inv.again (h : s.Inv) {key : Text} (hkey : s.entries.get key = some e) (hr : s.made[e]? = some r)
    {timers : KeyedMap Nat Nat} (hclear : ∀ t e', timers.get t = some e' ↔ s.timers.get t = some e' ∧ e' ≠ e) :
    (lease { s with timers := timers, made := s.made.set e { r with refs := r.refs + 1, timer := none } } e).Inv := by
  obtain ⟨r', hr', hsound, -, hkept⟩ := h.entry hkey
  obtain rfl := Option.some.inj (hr.symm.trans hr')
  have hlive : ∀ e', (lease { s with
      timers := timers, made := s.made.set e { r with refs := r.refs + 1, timer := none } } e).live e' =
      s.live e' + if e' = e then 1 else 0 := fun e' => live_lease _ e e'
  have hframe : Frame s (lease { s with
      timers := timers, made := s.made.set e { r with refs := r.refs + 1, timer := none } } e) e := by
    refine ⟨?_, ?_, fun t e' hne => (hclear t e').trans (and_iff_left hne), le_refl _, fun _ _ _ hk => hk,
      fun _ _ => Iff.rfl, fun _ _ => Iff.rfl⟩
    · exact fun e' hne => List.getElem?_set_ne (Ne.symm hne)
    · intro e' hne
      rw [hlive, if_neg hne, Nat.add_zero]
  refine hframe.inv h (List.getElem?_set_self (List.getElem?_eq_some_iff.mp hr).1) ?_ ?_ h.once (h.apart e)
  · exact (List.length_set).ge
  · have hpos := hlive e
    rw [if_pos rfl] at hpos
    refine ⟨?_, .held (by omega) rfl hkept, ?_, hsound.key⟩
    · rw [hpos, hsound.refs]
      rfl
    · intro t ht
      exact absurd rfl ((hclear t e).mp ht).2

theorem Inv.acquire (h : s.Inv) (key : Text) (create : Option ν) : (s.acquire key create).Inv := by
  unfold GracePool.acquire
  cases hkey : s.entries.get key with
  | none =>
    cases create with
    | none => exact h
    | some value => exact h.new key value
  | some e =>
    obtain ⟨r, hr, hsound, -, hkept⟩ := h.entry hkey
    obtain ⟨timers, hclear, htimers⟩ := hsound.clear hkept
    dsimp only
    rw [hr]
    dsimp only
    rw [hclear]
    exact h.again hkey hr htimers

theorem Inv.less (h : s.Inv) {leases : List Lease} {timers : KeyedMap Nat Nat} {handles : Nat} {r' : PoolEntry ν}
    (hr : s.made[e]? = some r)
    (hlive : ∀ e', s.live e' = leases.countP (isLive e') + if e' = e then 1 else 0)
    (htimers : ∀ t e', e' ≠ e → (timers.get t = some e' ↔ s.timers.get t = some e')) (hhandles : s.handles ≤ handles)
    (hsound : Sound { s with leases := leases, made := s.made.set e r', timers := timers, handles := handles } e r') :
    Inv { s with leases := leases, made := s.made.set e r', timers := timers, handles := handles } := by
  have hframe : Frame s { s with leases := leases, made := s.made.set e r', timers := timers, handles := handles } e := by
    refine ⟨?_, ?_, htimers, hhandles, fun _ _ _ hk => hk, fun _ _ => Iff.rfl, fun _ _ => Iff.rfl⟩
    · exact fun e' hne => List.getElem?_set_ne (Ne.symm hne)
    · intro e' hne
      rw [hlive, if_neg hne]
      rfl
  exact hframe.inv h (List.getElem?_set_self (List.getElem?_eq_some_iff.mp hr).1) (List.length_set).ge hsound h.once
    (h.apart e)

theorem Inv.release (h : s.Inv) (l : Nat) : (s.release l).Inv := by
  unfold GracePool.release
  cases ha : s.leases[l]? with
  | none => exact h
  | some a =>
    dsimp only
    split
    · exact h
    · rename_i hreleased
      have hlive := live_set ha (by simpa using hreleased)
      have hone := hlive a.entry
      rw [if_pos rfl] at hone
      have hlt := h.bound a.entry (.inl (by omega))
      have hr := List.getElem?_eq_getElem hlt
      have hsound := h.sound a.entry _ hr
      obtain ⟨htimer, hkept⟩ := hsound.held (by omega)
      have hrefs := hsound.refs
      have hnone : ∀ t, s.timers.get t ≠ some a.entry := by
        intro t ht
        exact Option.some_ne_none t ((hsound.timer t ht).2.1.symm.trans htimer)
      unfold releaseEntry
      rw [hr]
      dsimp only
      split
      · refine h.less hr hlive (fun _ _ _ => Iff.rfl) (le_refl _) ⟨?_, .held ?_ htimer hkept, ?_, hsound.key⟩
        · change _ - 1 = ((s.leases.set l _).countP (isLive a.entry) : Int)
          omega
        · change 0 < (s.leases.set l _).countP (isLive a.entry)
          omega
        · exact fun t ht => absurd ht (hnone t)
      · have hzero : (s.leases.set l { a with released := true }).countP (isLive a.entry) = 0 := by omega
        refine h.less hr hlive ?_ (Nat.le_succ _) ⟨?_, .waits s.handles hzero rfl KeyedMap.get_set_self hkept, ?_, hsound.key⟩
        · intro t e' hne
          rw [KeyedMap.get_set]
          split
          · rename_i heq
            subst heq
            refine ⟨fun hget => absurd (Option.some.inj hget).symm hne, fun hget => ?_⟩
            obtain ⟨hlt, -⟩ := (h.sound e' _ (List.getElem?_eq_getElem (h.bound e' (.inr (.inl ⟨_, hget⟩))))).timer _ hget
            exact absurd hlt (lt_irrefl _)
          · exact Iff.rfl
        · change _ - 1 = ((s.leases.set l _).countP (isLive a.entry) : Int)
          omega
        · intro t ht
          rw [KeyedMap.get_set] at ht
          split at ht
          · rename_i heq
            subst heq
            exact ⟨Nat.lt_succ_self _, rfl, hzero, hkept⟩
          · exact absurd ht (hnone t)

theorem get_remove {entries : KeyedMap Text Nat} {key k : Text} {e' : Nat}
    (hk : (if entries.get key = some e then entries.delete key else entries).get k = some e') :
    entries.get k = some e' ∧ ¬(k = key ∧ e' = e) := by
  split at hk
  · rw [KeyedMap.get_delete] at hk
    split at hk
    · cases hk
    · rename_i hne
      exact ⟨hk, fun hboth => hne hboth.1⟩
  · rename_i hother
    refine ⟨hk, ?_⟩
    rintro ⟨rfl, rfl⟩
    exact hother hk

theorem Inv.fire (h : s.Inv) (t : Nat) : (s.fire t).Inv := by
  unfold GracePool.fire
  cases ht : s.timers.get t with
  | none => exact h
  | some e =>
    have hlt := h.bound e (.inr (.inl ⟨t, ht⟩))
    have hr := List.getElem?_eq_getElem hlt
    have hsound := h.sound e _ hr
    obtain ⟨-, htimer, hzero, hkept⟩ := hsound.timer t ht
    dsimp only
    rw [hr]
    have hframe : Frame s { s with
        timers := s.timers.delete t
        entries := if s.entries.get s.made[e].key = some e then s.entries.delete s.made[e].key else s.entries
        disposed := s.disposed ++ [e] } e := by
      refine ⟨fun _ _ => rfl, fun _ _ => rfl, ?_, le_refl _, fun _ _ _ hk => (get_remove hk).1, ?_, fun _ _ => Iff.rfl⟩
      · intro t' e' hne
        rw [KeyedMap.get_delete]
        split
        · rename_i heq
          rw [heq, ht]
          simp [Ne.symm hne]
        · exact Iff.rfl
      · intro e' hne
        simp [hne]
    refine hframe.inv h hr (le_refl _) ⟨hsound.refs, .gone hzero ?_ (.inl (by simp)), ?_, fun k hk => hsound.key k (get_remove hk).1⟩
      ?_ fun _ => hkept.2
    · exact fun hk => (get_remove hk).2 ⟨rfl, rfl⟩
    · intro t' ht'
      rw [KeyedMap.get_delete] at ht'
      split at ht'
      · cases ht'
      · rename_i hne
        exact absurd (Option.some.inj ((hsound.timer t' ht').2.1.symm.trans htimer)) hne
    · exact List.nodup_append.mpr ⟨h.once, List.nodup_singleton e, fun a ha b hb heq => hkept.1 (List.mem_singleton.mp hb ▸ heq ▸ ha)⟩

theorem Inv.evict [DecidableEq ν] (h : s.Inv) (key : Text) (ifValue : Option ν) : (s.evict key ifValue).Inv := by
  unfold GracePool.evict
  cases hkey : s.entries.get key with
  | none => exact h
  | some e =>
    obtain ⟨r, hr, hsound, rfl, hkept⟩ := h.entry hkey
    obtain ⟨timers, hclear, htimers⟩ := hsound.clear hkept
    dsimp only
    rw [hr]
    dsimp only
    split
    · exact h
    · rw [hclear]
      have hlive : ∀ e', live { s with timers := timers } e' = s.live e' := fun _ => rfl
      have hentries : ∀ k e', (s.entries.delete r.key).get k = some e' → s.entries.get k = some e' ∧ k ≠ r.key := by
        intro k e' hk
        rw [KeyedMap.get_delete] at hk
        split at hk
        · cases hk
        · rename_i hne
          exact ⟨hk, hne⟩
      have hframe : Frame s { s with
          timers := timers
          entries := s.entries.delete r.key
          abandoned := if s.live e = 0 then s.abandoned ++ [e] else s.abandoned } e := by
        refine ⟨fun _ _ => rfl, fun _ _ => rfl, fun t e' hne => (htimers t e').trans (and_iff_left hne), le_refl _,
          fun k e' _ hk => (hentries k e' hk).1, fun _ _ => Iff.rfl, ?_⟩
        intro e' hne
        split
        · simp [hne]
        · exact Iff.rfl
      refine hframe.inv h hr (le_refl _) ⟨hsound.refs, ?_, ?_, fun k hk => hsound.key k (hentries k e hk).1⟩ h.once ?_
      · by_cases hzero : s.live e = 0
        · refine .gone hzero (fun hk => (hentries _ e hk).2 rfl) (.inr ?_)
          rw [if_pos hzero]
          simp
        · refine .held (Nat.pos_of_ne_zero hzero) (hsound.held (Nat.pos_of_ne_zero hzero)).1 ⟨hkept.1, ?_⟩
          rw [if_neg hzero]
          exact hkept.2
      · exact fun t ht => absurd rfl ((htimers t e).mp ht).2
      · exact fun hd => absurd hd hkept.1

theorem inv_empty : (empty : GracePool ν).Inv where
  sound e r hr := by cases hr
  bound e hsome := by
    obtain hpos | ⟨t, ht⟩ | ⟨k, hk⟩ | hgone := hsome
    · exact absurd hpos (lt_irrefl 0)
    · cases ht
    · cases hk
    · exact absurd ⟨List.not_mem_nil, List.not_mem_nil⟩ hgone
  once := List.nodup_nil
  apart e he := by cases he

theorem Inv.apply [DecidableEq ν] (h : s.Inv) (op : PoolOp ν) : (s.apply op).Inv := by
  cases op with
  | acquire key create => exact h.acquire key create
  | release l => exact h.release l
  | fire t => exact h.fire t
  | evict key ifValue => exact h.evict key ifValue

theorem inv_foldl [DecidableEq ν] (ops : List (PoolOp ν)) : (ops.foldl GracePool.apply empty).Inv := by
  induction ops using List.reverseRecOn with
  | nil => exact inv_empty
  | append_singleton ops op ih =>
    rw [List.foldl_append]
    exact ih.apply op

/-- After any operations: each value was disposed of at most once, and none of those has a live lease. When all
leases are released and no timer is set, every value that was made is disposed of, but for those that `evict`
dropped while no lease on them was live. -/
theorem values_disposed [DecidableEq ν] (ops : List (PoolOp ν)) :
    let s := ops.foldl GracePool.apply empty
    s.disposed.Nodup ∧ (∀ e ∈ s.disposed, s.live e = 0) ∧ (∀ e ∈ s.abandoned, e ∉ s.disposed) ∧
      ((∀ l ∈ s.leases, l.released = true) → (∀ t, s.timers.get t = none) →
        ∀ e < s.made.length, e ∈ s.disposed ∨ e ∈ s.abandoned) := by
  intro s
  have h : s.Inv := inv_foldl ops
  refine ⟨h.once, ?_, fun e ha hd => h.apart e hd ha, ?_⟩
  · intro e he
    have hlt := h.bound e (.inr (.inr (.inr fun hkept => hkept.1 he)))
    cases (h.sound e _ (List.getElem?_eq_getElem hlt)).phase with
    | held _ _ hkept => exact absurd he hkept.1
    | waits _ hzero => exact hzero
    | gone hzero => exact hzero
  · intro hreleased hnone e he
    cases (h.sound e _ (List.getElem?_eq_getElem he)).phase with
    | held hpos =>
      obtain ⟨l, hl, hlive⟩ := List.countP_pos_iff.mp hpos
      simp [isLive, hreleased l hl] at hlive
    | waits t _ _ hget =>
      rw [hnone t] at hget
      cases hget
    | gone _ _ hgone => exact hgone

/-- A value that is evicted during its grace is never disposed of. -/
theorem evicted_in_grace : ¬ ∀ (ops : List (PoolOp Nat)),
    (∀ l ∈ (ops.foldl GracePool.apply empty).leases, l.released = true) →
      (∀ t, (ops.foldl GracePool.apply empty).timers.get t = none) →
        ∀ e < (ops.foldl GracePool.apply empty).made.length, e ∈ (ops.foldl GracePool.apply empty).disposed := by
  intro hall
  have hlost := hall [.acquire ['k'] (some 7), .release 0, .evict ['k'] none]
    (by decide) (fun t => by rfl) 0 (by decide)
  exact absurd hlost (by decide)

end GracePool
end Savoire.Grace
