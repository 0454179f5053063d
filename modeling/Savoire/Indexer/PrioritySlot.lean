import Savoire.Library.Transition
import Mathlib.Data.List.Range
import Mathlib.Logic.Function.Basic

/-! The slot of SQLite in one thread: one task at a time, and the choice of the next one by priority. A low
priority that has waited too long passes in front, once in a while. -/
namespace Savoire.Sched

inductive Priority
  | interactive | live | build
  deriving DecidableEq

namespace Priority
def all : List Priority := [interactive, live, build]

/-- The priorities that go first. -/
def higher : Priority → List Priority
  | interactive => []
  | live => [interactive]
  | build => [interactive, live]

/-- `AGING_MS`: an interactive task never ages. -/
def agingMs : Priority → Option Int
  | interactive => none
  | live => some 300
  | build => some 2000

end Priority

def agedEvery : Nat := 3

/-- The task waits since `since`. -/
structure Waiter where
  id : Nat
  since : Int
  deriving DecidableEq

structure PrioritySlot where
  busy : Bool
  queues : Priority → List Waiter
  sinceAged : Nat
  done : Priority → Nat

namespace PrioritySlot
def empty : PrioritySlot := ⟨false, fun _ => [], 0, fun _ => 0⟩

def setQueue (s : PrioritySlot) (p : Priority) (q : List Waiter) : PrioritySlot :=
  { s with queues := Function.update s.queues p q }

def agedHead (s : PrioritySlot) (now : Int) (p : Priority) : Option Waiter :=
  match (s.queues p).head?, p.agingMs with
  | some head, some ms => if ms < now - head.since then some head else none
  | _, _ => none

structure Pick where
  priority : Priority
  waiter : Waiter
  aged : Bool

def pickAged (s : PrioritySlot) (now : Int) : Option Pick :=
  if agedEvery ≤ s.sinceAged then
    [Priority.live, .build].findSome? fun p => (s.agedHead now p).map fun w => ⟨p, w, true⟩
  else none

def pickFirst (s : PrioritySlot) : Option Pick :=
  Priority.all.findSome? fun p => (s.queues p).head?.map fun w => ⟨p, w, false⟩

def taken (s : PrioritySlot) (k : Pick) : PrioritySlot :=
  { s.setQueue k.priority (s.queues k.priority).tail with sinceAged := if k.aged then 0 else s.sinceAged + 1 }

def pick (s : PrioritySlot) (now : Int) : Option Pick := (s.pickAged now).or s.pickFirst

/-- All that wait, in the order of `cancelAll`. -/
def waiting (s : PrioritySlot) : List Waiter := Priority.all.flatMap s.queues

end PrioritySlot

structure Start where
  id : Nat
  priority : Priority
  aged : Bool
  waited : Int
  ahead : List Waiter

/-- The slot and what became of the tasks, numbered in the order in which they came. -/
structure System where
  slot : PrioritySlot
  submitted : Nat
  running : List Start
  started : List Start
  rejected : List Nat

inductive Event
  | run (p : Priority) (aborted : Bool) (since now : Int)
  | abort (p : Priority) (id : Nat)
  | settled (id : Nat) (now : Int)
  | cancelAll

namespace System
def init : System := ⟨.empty, 0, [], [], []⟩

def next (s : System) (now : Int) : System :=
  if s.slot.busy then s
  else match s.slot.pick now with
    | none => s
    | some k =>
      let r : Start :=
        ⟨k.waiter.id, k.priority, k.aged, now - k.waiter.since, k.priority.higher.flatMap s.slot.queues⟩
      { s with
        slot := { s.slot.taken k with busy := true }
        running := s.running ++ [r]
        started := s.started ++ [r] }

def run (s : System) (p : Priority) (aborted : Bool) (since now : Int) : System :=
  if aborted then { s with submitted := s.submitted + 1, rejected := s.rejected ++ [s.submitted] }
  else next
    { s with
      submitted := s.submitted + 1
      slot := s.slot.setQueue p (s.slot.queues p ++ [⟨s.submitted, since⟩]) } now

/-- `onAbort`: only a task that waits is taken out. -/
def abort (s : System) (p : Priority) (id : Nat) : System :=
  if id ∈ (s.slot.queues p).map (·.id) then
    { s with
      slot := s.slot.setQueue p ((s.slot.queues p).eraseP fun w => w.id = id)
      rejected := s.rejected ++ [id] }
  else s

/-- The end of a task that runs, with its result or its error. -/
def settled (s : System) (id : Nat) (now : Int) : Option System :=
  match s.running.find? (·.id = id) with
  | none => none
  | some r =>
    some (next
      { s with
        slot := { s.slot with
          busy := false
          done := Function.update s.slot.done r.priority (s.slot.done r.priority + 1) }
        running := s.running.filter (·.id ≠ id) } now)

def cancelAll (s : System) : System :=
  { s with
    slot := { s.slot with queues := fun _ => [] }
    rejected := s.rejected ++ s.slot.waiting.map (·.id) }

def step (s : System) : Event → Option System
  | .run p aborted since now => some (s.run p aborted since now)
  | .abort p id => some (s.abort p id)
  | .settled id now => s.settled id now
  | .cancelAll => some s.cancelAll

end System

namespace PrioritySlot
variable {s : PrioritySlot} {k : Pick} {now : Int}

def others (s : PrioritySlot) (p : Priority) : List Waiter := (Priority.all.filter (· ≠ p)).flatMap s.queues

theorem waiting_perm (s : PrioritySlot) (p : Priority) : s.waiting.Perm (s.queues p ++ s.others p) := by
  cases p with
  | interactive => exact List.Perm.refl _
  | live => simpa [waiting, others, Priority.all] using List.perm_append_comm_assoc ..
  | build =>
    have hcomm : (s.queues .interactive ++ s.queues .live ++ s.queues .build).Perm
        (s.queues .build ++ (s.queues .interactive ++ s.queues .live)) := List.perm_append_comm
    simpa [waiting, others, Priority.all] using hcomm

theorem waiting_setQueue (s : PrioritySlot) (p : Priority) (q : List Waiter) :
    (s.setQueue p q).waiting.Perm (q ++ s.others p) := by
  have hperm := (s.setQueue p q).waiting_perm p
  have hothers : (s.setQueue p q).others p = s.others p := by
    refine List.flatMap_congr fun p' hp' => ?_
    exact Function.update_of_ne (by simpa using (List.mem_filter.mp hp').2) _ _
  have hqueue : (s.setQueue p q).queues p = q := Function.update_self ..
  rwa [hothers, hqueue] at hperm

theorem pickFirst_eq_none : s.pickFirst = none ↔ s.waiting = [] := by
  simp [pickFirst, waiting, Priority.all]

theorem pickAged_spec (h : s.pickAged now = some k) : k.aged = true ∧ agedEvery ≤ s.sinceAged ∧
    (s.queues k.priority).head? = some k.waiter ∧ ∃ ms, k.priority.agingMs = some ms ∧ ms < now - k.waiter.since := by
  unfold pickAged at h
  split at h
  · rename_i hturn
    obtain ⟨p, -, hp⟩ := List.exists_of_findSome?_eq_some h
    obtain ⟨w, hw, rfl⟩ := Option.map_eq_some_iff.mp hp
    refine ⟨rfl, hturn, ?_⟩
    unfold agedHead at hw
    split at hw
    · rename_i head ms hhead hms
      obtain ⟨hlate, rfl⟩ := Option.ite_some_none_eq_some.1 hw
      exact ⟨hhead, ms, hms, hlate⟩
    · cases hw
  · cases h

theorem pickFirst_spec (h : s.pickFirst = some k) : k.aged = false ∧
    (s.queues k.priority).head? = some k.waiter ∧ k.priority.higher.flatMap s.queues = [] := by
  cases hi : s.queues .interactive with
  | cons w rest =>
    obtain rfl : ⟨.interactive, w, false⟩ = k := by simpa [pickFirst, Priority.all, hi] using h
    exact ⟨rfl, by rw [hi]; rfl, rfl⟩
  | nil =>
    cases hl : s.queues .live with
    | cons w rest =>
      obtain rfl : ⟨.live, w, false⟩ = k := by simpa [pickFirst, Priority.all, hi, hl] using h
      exact ⟨rfl, by rw [hl]; rfl, by simp [Priority.higher, hi]⟩
    | nil =>
      cases hb : s.queues .build with
      | cons w rest =>
        obtain rfl : ⟨.build, w, false⟩ = k := by simpa [pickFirst, Priority.all, hi, hl, hb] using h
        exact ⟨rfl, by rw [hb]; rfl, by simp [Priority.higher, hi, hl]⟩
      | nil => simp [pickFirst, Priority.all, hi, hl, hb] at h

theorem pick_spec (h : s.pick now = some k) : (s.queues k.priority).head? = some k.waiter ∧
    (k.aged = false → k.priority.higher.flatMap s.queues = []) ∧
    (k.aged = true → agedEvery ≤ s.sinceAged ∧
      ∃ ms, k.priority.agingMs = some ms ∧ ms < now - k.waiter.since) := by
  obtain haged | ⟨-, hfirst⟩ := Option.or_eq_some_iff.mp h
  · obtain ⟨htrue, hturn, hhead, hlate⟩ := pickAged_spec haged
    exact ⟨hhead, fun hfalse => absurd (htrue.symm.trans hfalse) (by simp), fun _ => ⟨hturn, hlate⟩⟩
  · obtain ⟨hfalse, hhead, hnone⟩ := pickFirst_spec hfirst
    exact ⟨hhead, fun _ => hnone, fun htrue => absurd (hfalse.symm.trans htrue) (by simp)⟩

end PrioritySlot

def sinceLastAged (started : List Start) : Nat := (started.reverse.takeWhile fun r => !r.aged).length

def InTurn (before : List Start) (r : Start) : Prop :=
  (r.aged = false → r.ahead = []) ∧
    (r.aged = true → agedEvery ≤ sinceLastAged before ∧ ∃ ms, r.priority.agingMs = some ms ∧ ms < r.waited)

theorem sinceLastAged_concat (started : List Start) (r : Start) :
    sinceLastAged (started ++ [r]) = if r.aged then 0 else sinceLastAged started + 1 := by
  rw [sinceLastAged, List.reverse_concat, List.takeWhile_cons]
  cases r.aged <;> rfl

namespace System

/-- The tasks of a priority, those that started and those that wait. -/
def ids (s : System) (p : Priority) : List Nat :=
  (s.started.filter (·.priority = p)).map (·.id) ++ (s.slot.queues p).map (·.id)

structure Inv (s : System) : Prop where
  one : if s.slot.busy then ∃ r ∈ s.started, s.running = [r] else s.running = []
  split : (s.started.map (·.id) ++ s.rejected ++ s.slot.waiting.map (·.id)).Perm (List.range s.submitted)
  ordered (p : Priority) : (s.ids p).Pairwise (· < ·)
  since : s.slot.sinceAged = sinceLastAged s.started
  turns (before : List Start) (r : Start) (after : List Start) : s.started = before ++ r :: after → InTurn before r

def Idle (s : System) : Prop := s.slot.busy = false → s.slot.waiting = []

variable {s : System} {now : Int}

theorem Inv.start (h : s.Inv) (hrunning : s.running = []) {k : PrioritySlot.Pick} {r : Start}
    (hid : r.id = k.waiter.id) (hpriority : r.priority = k.priority) (haged : r.aged = k.aged)
    (hhead : (s.slot.queues k.priority).head? = some k.waiter) (hturn : InTurn s.started r) :
    Inv { s with
      slot := { s.slot.taken k with busy := true }
      running := s.running ++ [r]
      started := s.started ++ [r] } := by
  obtain ⟨rest, hqueue⟩ := List.head?_eq_some_iff.mp hhead
  refine ⟨?_, ?_, ?_, ?_, ?_⟩
  · exact ⟨r, List.mem_append_right _ List.mem_cons_self, by rw [hrunning]; rfl⟩
  · -- the head of its queue goes over to the started ones
    have hbefore : (s.slot.waiting.map (·.id)).Perm (r.id :: (rest ++ s.slot.others k.priority).map (·.id)) := by
      have hperm := (s.slot.waiting_perm k.priority).map (·.id)
      rwa [hqueue, List.cons_append, List.map_cons, ← hid] at hperm
    have hafter : (s.slot.taken k).waiting.Perm (rest ++ s.slot.others k.priority) := by
      have hrest : (s.slot.queues k.priority).tail = rest := by
        rw [hqueue]
        rfl
      rw [← hrest]
      exact s.slot.waiting_setQueue k.priority _
    have hmove : (r.id :: (s.rejected ++ (s.slot.taken k).waiting.map (·.id))).Perm
        (s.rejected ++ s.slot.waiting.map (·.id)) := by
      refine List.Perm.trans ?_ (List.Perm.append_left _ hbefore.symm)
      exact ((List.Perm.append_left _ (hafter.map (·.id))).cons r.id).trans List.perm_middle.symm
    have hall := List.Perm.append_left (s.started.map (·.id)) hmove
    refine List.Perm.trans ?_ h.split
    change ((s.started ++ [r]).map (·.id) ++ s.rejected ++ (s.slot.taken k).waiting.map (·.id)).Perm _
    simpa using hall
  · intro p
    have hold := h.ordered p
    unfold ids at *
    by_cases hp : p = k.priority
    · subst hp
      have htaken : (s.slot.taken k).queues k.priority = rest := by
        have hupdate : (s.slot.taken k).queues k.priority = (s.slot.queues k.priority).tail := Function.update_self ..
        rw [hupdate, hqueue]
        rfl
      rw [hqueue, List.map_cons, ← hid] at hold
      simpa [List.filter_append, hpriority, htaken] using hold
    · have htaken : (s.slot.taken k).queues p = s.slot.queues p := Function.update_of_ne hp _ _
      have hne : r.priority ≠ p := fun heq => hp (heq.symm.trans hpriority)
      simpa [List.filter_append, hne, htaken] using hold
  · rw [sinceLastAged_concat, haged, ← h.since]
    rfl
  · intro before r' after hsplit
    obtain rfl | ⟨after', x, rfl⟩ := List.eq_nil_or_concat after
    · obtain ⟨rfl, hlast⟩ := List.append_inj' hsplit rfl
      obtain rfl := List.singleton_inj.mp hlast
      exact hturn
    · rw [List.concat_eq_append, ← List.cons_append, ← List.append_assoc] at hsplit
      exact h.turns before r' after' (List.append_inj' hsplit rfl).1

theorem Inv.next (h : s.Inv) (now : Int) : (s.next now).Inv ∧ (s.next now).Idle := by
  unfold System.next
  cases hbusy : s.slot.busy with
  | true =>
    rw [if_pos rfl]
    refine ⟨h, ?_⟩
    intro hidle
    rw [hbusy] at hidle
    cases hidle
  | false =>
    have hone := h.one
    rw [hbusy, if_neg (by simp)] at hone
    cases hpick : s.slot.pick now with
    | none =>
      refine ⟨h, ?_⟩
      intro _
      exact PrioritySlot.pickFirst_eq_none.mp (Option.or_eq_none_iff.mp hpick).2
    | some k =>
      obtain ⟨hhead, hfirst, hlate⟩ := PrioritySlot.pick_spec hpick
      refine ⟨h.start hone rfl rfl rfl hhead ⟨hfirst, ?_⟩, fun hidle => by cases hidle⟩
      rw [← h.since]
      exact hlate

theorem Inv.push (h : s.Inv) (p : Priority) (since : Int) :
    Inv { s with
      submitted := s.submitted + 1
      slot := s.slot.setQueue p (s.slot.queues p ++ [Waiter.mk s.submitted since]) } where
  __ := h
  split := by
    have hwaiting : ((s.slot.setQueue p (s.slot.queues p ++ [Waiter.mk s.submitted since])).waiting.map (·.id)).Perm
        (s.slot.waiting.map (·.id) ++ [s.submitted]) := by
      refine ((s.slot.waiting_setQueue p _).map (·.id)).trans ?_
      have hcomm : (s.slot.queues p ++ [Waiter.mk s.submitted since] ++ s.slot.others p).Perm
          (s.slot.queues p ++ s.slot.others p ++ [Waiter.mk s.submitted since]) := by
        rw [List.append_assoc, List.append_assoc]
        exact List.Perm.append_left _ List.perm_append_comm
      have hall := (hcomm.trans (List.Perm.append_right _ (s.slot.waiting_perm p).symm)).map (·.id)
      have hlast : (s.slot.waiting ++ [Waiter.mk s.submitted since]).map (·.id) =
          s.slot.waiting.map (·.id) ++ [s.submitted] := List.map_append
      rwa [hlast] at hall
    refine (List.Perm.append_left _ hwaiting).trans ?_
    rw [← List.append_assoc, List.range_succ]
    exact List.Perm.append_right _ h.split
  ordered p' := by
    have hold := h.ordered p'
    unfold ids at *
    by_cases hp : p' = p
    · subst hp
      have hqueue : (s.slot.setQueue p' (s.slot.queues p' ++ [Waiter.mk s.submitted since])).queues p' =
          s.slot.queues p' ++ [Waiter.mk s.submitted since] := Function.update_self ..
      rw [hqueue, List.map_append, ← List.append_assoc]
      refine List.pairwise_append.mpr ⟨hold, List.pairwise_singleton _ _, ?_⟩
      intro id hid last hlast
      obtain rfl := List.mem_singleton.mp hlast
      rw [← List.mem_range, ← h.split.mem_iff]
      obtain hstarted | hwaits := List.mem_append.mp hid
      · rw [List.append_assoc]
        refine List.mem_append_left _ ?_
        obtain ⟨r, hr, rfl⟩ := List.mem_map.mp hstarted
        exact List.mem_map_of_mem (List.mem_filter.mp hr).1
      · obtain ⟨w, hw, rfl⟩ := List.mem_map.mp hwaits
        refine List.mem_append_right _ (List.mem_map_of_mem ?_)
        exact (s.slot.waiting_perm p').mem_iff.mpr (List.mem_append_left _ hw)
    · have hqueue : (s.slot.setQueue p (s.slot.queues p ++ [Waiter.mk s.submitted since])).queues p' = s.slot.queues p' :=
        Function.update_of_ne hp _ _
      rwa [hqueue]

theorem Inv.refuse (h : s.Inv) :
    Inv { s with submitted := s.submitted + 1, rejected := s.rejected ++ [s.submitted] } where
  __ := h
  split := by
    rw [List.range_succ]
    refine List.Perm.trans ?_ (List.Perm.append_right _ h.split)
    rw [← List.append_assoc, List.append_assoc _ [_]]
    refine (List.Perm.append_left _ List.perm_append_comm).trans ?_
    rw [← List.append_assoc]

theorem Inv.abort (h : s.Inv) (p : Priority) (id : Nat) : (s.abort p id).Inv := by
  unfold System.abort
  split
  · rename_i hmem
    obtain ⟨w, hw, rfl⟩ := List.mem_map.mp hmem
    obtain ⟨w', l₁, l₂, -, hid, hqueue, herase⟩ := List.exists_of_eraseP (p := fun w' => w'.id = w.id) hw (by simp)
    have hwid : w'.id = w.id := by simpa using hid
    refine ⟨h.one, ?_, ?_, h.since, h.turns⟩
    · have hold : (s.slot.waiting.map (·.id)).Perm (w.id ::
          (s.slot.setQueue p ((s.slot.queues p).eraseP fun w' => w'.id = w.id)).waiting.map (·.id)) := by
        rw [← hwid, ← List.map_cons]
        refine List.Perm.map _ ((s.slot.waiting_perm p).trans ?_)
        refine List.Perm.trans ?_ ((s.slot.waiting_setQueue p _).symm.cons w')
        rw [hwid, herase, hqueue, List.append_assoc, List.append_assoc, List.cons_append]
        exact List.perm_middle
      refine List.Perm.trans ?_ h.split
      refine List.Perm.trans ?_ (List.Perm.append_left _ hold.symm)
      rw [← List.append_assoc, List.append_assoc _ [w.id]]
      exact List.Perm.refl _
    · intro p'
      refine (h.ordered p').sublist ?_
      refine List.Sublist.append_left (List.Sublist.map _ ?_) _
      by_cases hp : p' = p
      · subst hp
        rw [show (s.slot.setQueue p' _).queues p' = _ from Function.update_self ..]
        exact List.eraseP_sublist
      · rw [show (s.slot.setQueue p _).queues p' = _ from Function.update_of_ne hp _ _]
  · exact h

theorem Inv.finish (h : s.Inv) {r : Start} {id : Nat} (hr : s.running.find? (·.id = id) = some r)
    (done : Priority → Nat) :
    Inv { s with
      slot := { s.slot with busy := false, done := done }
      running := s.running.filter (·.id ≠ id) } where
  one := by
    have hone := h.one
    split at hone
    · obtain ⟨r', -, hrunning⟩ := hone
      rw [hrunning] at hr ⊢
      have hid := List.find?_some hr
      obtain rfl := List.mem_singleton.mp (List.mem_of_find?_eq_some hr)
      simpa using hid
    · rw [hone] at hr
      cases hr
  __ := h

theorem Inv.cancelAll (h : s.Inv) : s.cancelAll.Inv where
  __ := h
  split := by
    have hnone : s.cancelAll.slot.waiting = [] := rfl
    rw [hnone, List.map_nil, List.append_nil]
    have hsplit := h.split
    rwa [List.append_assoc] at hsplit
  ordered p := by
    have hids : s.cancelAll.ids p = (s.started.filter (·.priority = p)).map (·.id) := List.append_nil _
    rw [hids]
    exact (h.ordered p).sublist (List.sublist_append_left _ _)

theorem Inv.step {s' : System} {e : Event} (h : s.Inv ∧ s.Idle) (hstep : s.step e = some s') : s'.Inv ∧ s'.Idle := by
  obtain ⟨hinv, hidle⟩ := h
  cases e with
  | run p aborted since now =>
    obtain rfl := Option.some.inj hstep
    unfold System.run
    split
    · exact ⟨hinv.refuse, hidle⟩
    · exact (hinv.push p since).next now
  | abort p id =>
    obtain rfl := Option.some.inj hstep
    refine ⟨hinv.abort p id, ?_⟩
    unfold System.abort
    split
    · rename_i hmem
      intro hbusy
      obtain ⟨w, hw, -⟩ := List.mem_map.mp hmem
      have hwaits := (s.slot.waiting_perm p).mem_iff.mpr (List.mem_append_left _ hw)
      rw [hidle hbusy] at hwaits
      cases hwaits
    · exact hidle
  | settled id now =>
    change s.settled id now = some s' at hstep
    unfold System.settled at hstep
    split at hstep
    · cases hstep
    · rename_i r hr
      obtain rfl := Option.some.inj hstep
      exact (hinv.finish hr _).next now
  | cancelAll =>
    obtain rfl := Option.some.inj hstep
    exact ⟨hinv.cancelAll, fun _ => rfl⟩

theorem inv_init : init.Inv ∧ init.Idle where
  left := {
    one := rfl
    split := List.Perm.refl _
    ordered _ := List.Pairwise.nil
    since := rfl
    turns before r after h := by simp [init] at h }
  right _ := rfl

/-- The events that can happen, from the start on. -/
abbrev Reachable (s : System) : Prop := Transition.Run step (fun _ _ => True) init s

/-- After any events: one task runs at most; every task was started once, or rejected once without a start, or
waits; those of one priority start in their order; nothing waits while the slot is free. A task passes a
higher priority only when it has waited too long, three starts after the last one that did. -/
theorem slot_discipline (h : Reachable s) :
    (s.running.length ≤ 1 ∧ ∀ r ∈ s.running, r ∈ s.started) ∧
    (s.started.map (·.id) ++ s.rejected ++ s.slot.waiting.map (·.id)).Perm (List.range s.submitted) ∧
    (∀ p, ((s.started.filter (·.priority = p)).map (·.id)).Pairwise (· < ·)) ∧
    (∀ before r after, s.started = before ++ r :: after → InTurn before r) ∧
    (s.running = [] → s.slot.waiting = []) := by
  obtain ⟨hinv, hidle⟩ := h.invariant (fun s => s.Inv ∧ s.Idle) inv_init fun _ _ _ hs _ hstep => Inv.step hs hstep
  have hone := hinv.one
  refine ⟨?_, hinv.split, fun p => (hinv.ordered p).sublist (List.sublist_append_left _ _), hinv.turns, ?_⟩
  · split at hone
    · obtain ⟨r, hr, hrunning⟩ := hone
      rw [hrunning]
      exact ⟨le_refl 1, fun r' hr' => List.mem_singleton.mp hr' ▸ hr⟩
    · rw [hone]
      exact ⟨Nat.zero_le 1, by simp⟩
  · intro hrunning
    refine hidle ?_
    split at hone
    · obtain ⟨r, -, hone⟩ := hone
      rw [hrunning] at hone
      cases hone
    · rename_i hbusy
      simpa using hbusy

/-- A live task waits behind interactive ones for more than its time. -/
def sampleEvents : List Event :=
  [.run .interactive false 0 0, .run .live false 0 0, .run .interactive false 0 0, .run .interactive false 0 0,
    .run .interactive false 0 0, .settled 0 1, .settled 2 2, .settled 3 301]

def startsOf (s : System) : List (Nat × Nat) := s.started.map fun r => (r.id, r.ahead.length)

theorem exists_sample : ∃ s, Reachable s ∧ s.startsOf = [(0, 0), (2, 0), (3, 0), (1, 1)] := by
  have hexec : (Transition.exec step (fun _ _ => True) init sampleEvents).map startsOf =
      some [(0, 0), (2, 0), (3, 0), (1, 1)] := by decide +kernel
  obtain ⟨s, hs, hstarts⟩ := Option.map_eq_some_iff.mp hexec
  exact ⟨s, Transition.run_of_exec sampleEvents init s hs, hstarts⟩

theorem slot_discipline_sample : ∃ s, Reachable s ∧ s.startsOf = [(0, 0), (2, 0), (3, 0), (1, 1)] ∧
    s.running.length ≤ 1 ∧ (s.running = [] → s.slot.waiting = []) := by
  obtain ⟨s, hs, hstarts⟩ := exists_sample
  obtain ⟨⟨hone, -⟩, -, -, -, hidle⟩ := slot_discipline hs
  exact ⟨s, hs, hstarts, hone, hidle⟩

/-- The live task starts although an interactive one waits. -/
theorem aged_passes : ¬ ∀ s, Reachable s → ∀ r ∈ s.started, r.ahead = [] := by
  intro hnever
  obtain ⟨s, hs, hstarts⟩ := exists_sample
  have hmem : (1, 1) ∈ s.startsOf := by
    rw [hstarts]
    decide
  obtain ⟨r, hr, heq⟩ := List.mem_map.mp hmem
  have hahead : r.ahead.length = 1 := congrArg Prod.snd heq
  rw [hnever s hs r hr] at hahead
  cases hahead

end System
end Savoire.Sched
