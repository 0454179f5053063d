import Savoire.Board.Host

/-! When a board stays within its limits: what the host does not look at again after an await must still
hold there. -/
namespace Savoire.Board
open Transition

section
variable {ι : Type}

/-- Every write that began in the last minute is still counted. -/
def Counted (s : State ι) : Prop := ∀ b ∈ s.begun, s.now < b.time + minute → s.now < b.stamp + minute

instance (s : State ι) : Decidable (Counted s) := by unfold Counted; infer_instance

/-- What the limits need of the state in which a watch starts or a write begins. -/
def Rechecked [DecidableEq ι] (o : BoardHostOptions) (s : State ι) : Event ι → Prop
  | .resolved i false => s.disposed = false → ∀ r ∈ s.resolving[i]?,
    r.ended = false ∧ s.watches.get r.id = none ∧ s.watches.entries.length < maxWatches
  | .reach i => ∀ c ∈ s.called[i]?, c.target = .note → o.readOnly = false → s.grants = some true →
    s.expire.writes.length < maxWritesPerMinute → Counted s
  | .answer i true => ∀ a ∈ s.asked[i]?, a.call.target = .note →
    Counted s ∧ s.expire.writes.length < maxWritesPerMinute
  | .opened i => ∀ p ∈ s.opening[i]?,
    Counted s ∧ s.now < p.stamp + minute ∧ s.expire.writes.length ≤ maxWritesPerMinute
  | _ => True

instance [DecidableEq ι] (o : BoardHostOptions) (s : State ι) (e : Event ι) : Decidable (Rechecked o s e) := by
  unfold Rechecked
  split <;> infer_instance

/-- Nothing changes for the writes. -/
structure SameWrites (s s' : State ι) : Prop where
  now : s'.now = s.now
  grants : s'.grants = s.grants
  accepted : s'.accepted = s.accepted
  writes : s'.writes = s.writes
  asked : s'.asked = s.asked
  opening : s'.opening = s.opening
  begun : s'.begun = s.begun

/-- Nothing changes for the watches. -/
structure SameWatches (s s' : State ι) : Prop where
  watches : s'.watches = s.watches
  live : s'.live = s.live
  tokens : s'.tokens = s.tokens

theorem dispose_same (s : State ι) : SameWrites s s.dispose := by
  unfold State.dispose
  split <;> exact ⟨rfl, rfl, rfl, rfl, rfl, rfl, rfl⟩

theorem admit_same (s : State ι) (c : Call ι) (granted : Bool) (now : Nat) :
    SameWatches s (s.enter c granted now) := by
  unfold State.enter
  split
  · split <;> exact ⟨rfl, rfl, rfl⟩
  · exact ⟨rfl, rfl, rfl⟩

theorem allowWrite_same (o : BoardHostOptions) (s : State ι) (c : Call ι) : SameWatches s (s.allowWrite o c) := by
  unfold State.allowWrite
  split
  · exact ⟨rfl, rfl, rfl⟩
  · split
    · exact ⟨rfl, rfl, rfl⟩
    · split
      · rename_i granted _
        obtain ⟨hwatches, hlive, htokens⟩ := admit_same s.expire c granted s.now
        exact ⟨hwatches, hlive, htokens⟩
      · split <;> exact ⟨rfl, rfl, rfl⟩

theorem allowWrite_cases (o : BoardHostOptions) (s : State ι) (c : Call ι) :
    (∃ writes grants errors, s.allowWrite o c = { s with writes := writes, grants := grants, errors := errors } ∧
      (writes = s.writes ∨ writes = s.expire.writes) ∧ (grants = some true → s.grants = some true)) ∨
    (o.readOnly = false ∧ s.allowWrite o c = { s.expire with asked := s.asked ++ [⟨c, s.now⟩] }) ∨
    (o.readOnly = false ∧ s.grants = some true ∧ s.expire.writes.length < maxWritesPerMinute ∧
      s.allowWrite o c = s.expire.enter c true s.now) := by
  unfold State.allowWrite
  split
  · exact .inl ⟨_, _, _, rfl, .inl rfl, id⟩
  · rename_i hread
    have hread' : o.readOnly = false := by simpa using hread
    split
    · exact .inl ⟨_, _, _, rfl, .inr rfl, id⟩
    · split
      · rename_i granted hgrants
        cases granted with
        | true => exact .inr (.inr ⟨hread', hgrants, by omega, rfl⟩)
        | false => exact .inl ⟨_, _, _, rfl, .inr rfl, id⟩
      · split
        · exact .inr (.inl ⟨hread', rfl⟩)
        · exact .inl ⟨_, some false, _, rfl, .inr rfl, by simp⟩

structure Confirmed (o : BoardHostOptions) (s : State ι) : Prop where
  begun (b : Begun) : b ∈ s.begun → o.readOnly = false ∧ b.accepted = true
  asked (a : Asked ι) : a ∈ s.asked → o.readOnly = false
  opening (p : Opening ι) : p ∈ s.opening → o.readOnly = false ∧ s.accepted = true
  grants : s.grants = some true → s.accepted = true

theorem confirmed_start (o : BoardHostOptions) : Confirmed o (start : State ι) := by
  constructor <;> simp [start]

variable {o : BoardHostOptions} {s s' : State ι}

theorem Confirmed.same (h : Confirmed o s) (hs : SameWrites s s') :
    Confirmed o s' := by
  obtain ⟨-, hgrants, haccepted, -, hasked, hopening, hbegun⟩ := hs
  constructor
  · rw [hbegun]
    exact h.begun
  · rw [hasked]
    exact h.asked
  · rw [hopening, haccepted]
    exact h.opening
  · rw [hgrants, haccepted]
    exact h.grants

theorem Confirmed.enter (h : Confirmed o s) (c : Call ι) (granted : Bool)
    (now : Nat) (hread : o.readOnly = false) (hgranted : granted = true → s.accepted = true) :
    Confirmed o (s.enter c granted now) := by
  unfold State.enter
  split
  · rename_i hyes
    have haccepted := hgranted hyes
    split
    · refine ⟨?_, h.asked, h.opening, h.grants⟩
      intro b hb
      obtain hold | hnew := List.mem_append.1 hb
      · exact h.begun b hold
      · obtain rfl := List.mem_singleton.1 hnew
        exact ⟨hread, haccepted⟩
    · refine ⟨h.begun, h.asked, ?_, h.grants⟩
      intro p hp
      obtain hold | hnew := List.mem_append.1 hp
      · exact h.opening p hold
      · exact ⟨hread, haccepted⟩
  · exact ⟨h.begun, h.asked, h.opening, h.grants⟩

theorem Confirmed.grant (h : Confirmed o s) (granted : Bool) :
    Confirmed o (s.grant granted) := by
  refine ⟨h.begun, h.asked, ?_, ?_⟩
  · intro p hp
    obtain ⟨hread, haccepted⟩ := h.opening p hp
    exact ⟨hread, by simp [State.grant, haccepted]⟩
  · intro hgrants
    have hyes : granted = true := Option.some.inj hgrants
    simp [State.grant, hyes]

theorem Confirmed.allowWrite (h : Confirmed o s) (c : Call ι) :
    Confirmed o (s.allowWrite o c) := by
  obtain ⟨writes, grants, errors, heq, -, hgrants⟩ | ⟨hread, heq⟩ | ⟨hread, hgrants, -, heq⟩ :=
    allowWrite_cases o s c
  · rw [heq]
    exact ⟨h.begun, h.asked, h.opening, fun hyes => h.grants (hgrants hyes)⟩
  · rw [heq]
    refine ⟨h.begun, ?_, h.opening, h.grants⟩
    intro a ha
    obtain hold | - := List.mem_append.1 ha
    · exact h.asked a hold
    · exact hread
  · rw [heq]
    have hexpire : Confirmed o s.expire := ⟨h.begun, h.asked, h.opening, h.grants⟩
    exact hexpire.enter c true s.now hread fun _ => h.grants hgrants

structure Counting (s : State ι) : Prop where
  covers : Windows.Covers minute s.now s.writes (s.opening.map Opening.stamp ++ s.begun.map Begun.stamp)
  rate (first : Nat) : (Windows.within minute first (s.begun.map Begun.time)).length ≤ maxWritesPerMinute

theorem counting_start : Counting (start : State ι) := by
  constructor
  · intro t ht
    simp [start]
  · simp [start, Windows.within]

theorem Counting.same (h : Counting s) (hs : SameWrites s s') : Counting s' := by
  obtain ⟨hnow, -, -, hwrites, -, hopening, hbegun⟩ := hs
  constructor
  · rw [hnow, hwrites, hopening, hbegun]
    exact h.covers
  · rw [hbegun]
    exact h.rate

theorem Counting.expire (h : Counting s) : Counting s.expire := ⟨h.covers.lapse, h.rate⟩

theorem Counted.recent_le (hcounted : Counted s) :
    (Windows.recent minute s.now (s.begun.map Begun.time)).length ≤
      (Windows.recent minute s.now (s.begun.map Begun.stamp)).length := by
  rw [Windows.recent, Windows.recent, List.filter_map, List.filter_map, List.length_map, List.length_map,
    ← List.countP_eq_length_filter, ← List.countP_eq_length_filter]
  refine List.countP_mono_left ?_
  intro b hb hrecent
  simpa using hcounted b hb (by simpa using hrecent)

theorem Counting.begin {stamp : Nat} (hcovers : Windows.Covers minute s.now s.writes
      (stamp :: (s.opening.map Opening.stamp ++ s.begun.map Begun.stamp)))
    (hrate : ∀ first, (Windows.within minute first (s.begun.map Begun.time)).length ≤ maxWritesPerMinute)
    (hroom : (Windows.recent minute s.now (s.begun.map Begun.time)).length < maxWritesPerMinute) :
    Counting (s.begin stamp) := by
  constructor
  · refine hcovers.perm ?_
    show (s.opening.map Opening.stamp ++ (s.begun ++ [_]).map Begun.stamp).Perm _
    rw [List.map_append, ← List.append_assoc]
    exact List.perm_append_singleton stamp _
  · intro first
    show (Windows.within minute first ((s.begun ++ [_]).map Begun.time)).length ≤ _
    rw [List.map_append]
    exact Windows.within_concat_le hrate hroom first

theorem Counting.recent_le (h : Counting s) (hcounted : Counted s) :
    (Windows.recent minute s.now (s.begun.map Begun.time)).length ≤ s.expire.writes.length := by
  have hstamps : (Windows.recent minute s.now (s.begun.map Begun.stamp)).length ≤ s.expire.writes.length :=
    (h.covers.sublist (List.sublist_append_right _ _)).length_le
  have hrecent := hcounted.recent_le
  omega

theorem Counting.enter (h : Counting s) (c : Call ι) (granted : Bool) (now : Nat)
    (hroom : granted = true → c.target = .note → Counted s ∧ s.expire.writes.length < maxWritesPerMinute) :
    Counting (s.enter c granted now) := by
  have hpush := h.covers.push now
  unfold State.enter
  split
  · rename_i hyes
    split
    · rename_i hnote
      obtain ⟨hcounted, hlt⟩ := hroom hyes hnote
      have hle := h.recent_le hcounted
      exact Counting.begin hpush h.rate (by simp only; omega)
    · refine ⟨hpush.perm ?_, h.rate⟩
      show ((s.opening ++ [_]).map Opening.stamp ++ _).Perm _
      rw [List.map_append, List.append_assoc]
      exact List.perm_middle
  · exact ⟨h.covers, h.rate⟩

theorem Counting.allowWrite (h : Counting s) (c : Call ι)
    (hcounted : c.target = .note → o.readOnly = false → s.grants = some true →
      s.expire.writes.length < maxWritesPerMinute → Counted s) : Counting (s.allowWrite o c) := by
  obtain ⟨writes, grants, errors, heq, hwrites, -⟩ | ⟨-, heq⟩ | ⟨hread, hgrants, hlt, heq⟩ := allowWrite_cases o s c
  · rw [heq]
    obtain rfl | rfl := hwrites
    · exact ⟨h.covers, h.rate⟩
    · exact ⟨h.covers.lapse, h.rate⟩
  · rw [heq]
    exact ⟨h.covers.lapse, h.rate⟩
  · rw [heq]
    refine h.expire.enter c true s.now ?_
    intro _ hnote
    refine ⟨hcounted hnote hread hgrants hlt, ?_⟩
    have hsame : s.expire.expire.writes = s.expire.writes := Windows.recent_recent
    rw [hsame]
    exact hlt

theorem perm_of_getElem? {α : Type} {l : List α} {i : Nat} {a : α} (h : l[i]? = some a) :
    (a :: l.eraseIdx i).Perm l := by
  obtain ⟨hi, rfl⟩ := List.getElem?_eq_some_iff.1 h
  exact List.getElem_cons_eraseIdx_perm hi

theorem Counting.opened (h : Counting s) {i : Nat} {p : Opening ι} (hp : s.opening[i]? = some p)
    (hcounted : Counted s) (hstamp : s.now < p.stamp + minute) (hle : s.expire.writes.length ≤ maxWritesPerMinute) :
    Counting (State.begin { s with opening := s.opening.eraseIdx i } p.stamp) := by
  have hperm := ((perm_of_getElem? hp).map Opening.stamp).append_right (s.begun.map Begun.stamp)
  have hcovers := h.covers.perm hperm
  refine Counting.begin hcovers h.rate ?_
  -- its own stamp is among those that have not lapsed
  have hlen : (Windows.recent minute s.now (p.stamp :: s.begun.map Begun.stamp)).length ≤ s.expire.writes.length :=
    (hcovers.sublist ((List.sublist_append_right _ _).cons_cons p.stamp)).length_le
  have hown : Windows.recent minute s.now (p.stamp :: s.begun.map Begun.stamp) =
      p.stamp :: Windows.recent minute s.now (s.begun.map Begun.stamp) := by
    simp [Windows.recent, hstamp]
  rw [hown, List.length_cons] at hlen
  have hrecent := hcounted.recent_le
  simp only
  omega

theorem Counting.openFails (h : Counting s) (i : Nat) :
    Counting { s with opening := s.opening.eraseIdx i } :=
  ⟨h.covers.sublist (((List.eraseIdx_sublist s.opening i).map Opening.stamp).append_right _), h.rate⟩

/-- The watches held are the live ones, none of them to be stopped. -/
structure Watching (s : State ι) : Prop where
  keys : s.watches.entries = s.live.map fun w => (w.id, w.token)
  tokens : (s.live.map Watch.token).Nodup
  known (w : Watch ι) : w ∈ s.live → w.token < s.tokens
  going (w : Watch ι) : w ∈ s.live → w.ended = false
  count : s.live.length ≤ maxWatches

theorem watching_start : Watching (start : State ι) := by
  constructor <;> simp [start, KeyedMap.empty]

theorem Watching.same (h : Watching s) (hs : SameWatches s s') : Watching s' := by
  obtain ⟨hwatches, hlive, htokens⟩ := hs
  constructor
  · rw [hwatches, hlive]
    exact h.keys
  · rw [hlive]
    exact h.tokens
  · rw [hlive, htokens]
    exact h.known
  · rw [hlive]
    exact h.going
  · rw [hlive]
    exact h.count

theorem Watching.stop (h : Watching s) : s.stopWatches.live = [] := by
  refine List.filter_eq_nil_iff.mpr ?_
  intro w hw
  have hmem : w.token ∈ s.watches.entries.map Prod.snd := by
    rw [h.keys]
    exact List.mem_map.2 ⟨(w.id, w.token), List.mem_map.2 ⟨w, hw, rfl⟩, rfl⟩
  simpa using hmem

theorem Watching.load (h : Watching s) : Watching s.load := by
  have hlive : s.load.live = [] := by simp [State.load, State.endAll, h.stop]
  refine ⟨?_, ?_, ?_, ?_, ?_⟩
  · rw [hlive]
    rfl
  all_goals simp [hlive]

theorem Watching.dispose (h : Watching s) : Watching s.dispose := by
  unfold State.dispose
  split
  · exact h
  · exact h.load.same ⟨rfl, rfl, rfl⟩

theorem watch_same (s : State ι) (id : ι) : SameWrites s (s.watch id) := by
  unfold State.watch
  split <;> exact ⟨rfl, rfl, rfl, rfl, rfl, rfl, rfl⟩

variable [DecidableEq ι]

theorem startWatch_same (s : State ι) (r : Request ι) (gone : Bool) : SameWrites s (s.startWatch r gone) := by
  unfold State.startWatch
  split
  · exact ⟨rfl, rfl, rfl, rfl, rfl, rfl, rfl⟩
  · split
    · obtain ⟨hnow, hgrants, haccepted, hwrites, hasked, hopening, hbegun⟩ := dispose_same s
      exact ⟨hnow, hgrants, haccepted, hwrites, hasked, hopening, hbegun⟩
    · exact ⟨rfl, rfl, rfl, rfl, rfl, rfl, rfl⟩

theorem step_same {e : Event ι} (hstep : step o s e = some s') (he : match e with
      | .watch _ | .unwatch _ | .load | .dispose | .resolved _ _ | .resolveFails _ _ | .call _ | .callFails _ _ => True
      | _ => False) : SameWrites s s' := by
  have hrefl : SameWrites s s := ⟨rfl, rfl, rfl, rfl, rfl, rfl, rfl⟩
  cases e with
  | watch id =>
    obtain rfl := Option.some.inj hstep
    split
    · exact hrefl
    · exact watch_same s id
  | unwatch id =>
    obtain rfl := Option.some.inj hstep
    split <;> exact ⟨rfl, rfl, rfl, rfl, rfl, rfl, rfl⟩
  | load =>
    obtain rfl := Option.some.inj hstep
    exact ⟨rfl, rfl, rfl, rfl, rfl, rfl, rfl⟩
  | dispose =>
    obtain rfl := Option.some.inj hstep
    exact dispose_same s
  | resolved i gone =>
    obtain ⟨r, -, rfl⟩ := Option.map_eq_some_iff.1 hstep
    obtain ⟨hnow, hgrants, haccepted, hwrites, hasked, hopening, hbegun⟩ :=
      startWatch_same { s with resolving := s.resolving.eraseIdx i } r gone
    exact ⟨hnow, hgrants, haccepted, hwrites, hasked, hopening, hbegun⟩
  | resolveFails i text =>
    obtain ⟨r, -, rfl⟩ := Option.map_eq_some_iff.1 hstep
    exact ⟨rfl, rfl, rfl, rfl, rfl, rfl, rfl⟩
  | call c =>
    obtain rfl := Option.some.inj hstep
    split <;> exact ⟨rfl, rfl, rfl, rfl, rfl, rfl, rfl⟩
  | callFails i text =>
    obtain ⟨c, -, rfl⟩ := Option.map_eq_some_iff.1 hstep
    exact ⟨rfl, rfl, rfl, rfl, rfl, rfl, rfl⟩
  | reach | answer | confirmFails | opened | openFails | otherHost | tick => exact he.elim

theorem step_confirmed (h : Confirmed o s) (e : Event ι) (hstep : step o s e = some s') : Confirmed o s' := by
  cases e with
  | reach i =>
    obtain ⟨c, -, rfl⟩ := Option.map_eq_some_iff.1 hstep
    have hrest : Confirmed o { s with called := s.called.eraseIdx i } := ⟨h.begun, h.asked, h.opening, h.grants⟩
    exact hrest.allowWrite c
  | answer i granted =>
    obtain ⟨a, ha, rfl⟩ := Option.map_eq_some_iff.1 hstep
    have hrest : Confirmed o { s with asked := s.asked.eraseIdx i } :=
      ⟨h.begun, fun b hb => h.asked b (List.mem_of_mem_eraseIdx hb), h.opening, h.grants⟩
    refine (hrest.grant granted).enter a.call granted a.now (h.asked a (List.mem_of_getElem? ha)) ?_
    intro hyes
    simp [State.grant, hyes]
  | confirmFails i text =>
    obtain ⟨a, -, rfl⟩ := Option.map_eq_some_iff.1 hstep
    exact ⟨h.begun, fun b hb => h.asked b (List.mem_of_mem_eraseIdx hb), h.opening, h.grants⟩
  | opened i =>
    obtain ⟨p, hp, rfl⟩ := Option.map_eq_some_iff.1 hstep
    refine ⟨?_, h.asked, fun q hq => h.opening q (List.mem_of_mem_eraseIdx hq), h.grants⟩
    intro b hb
    obtain hold | hnew := List.mem_append.1 hb
    · exact h.begun b hold
    · obtain rfl := List.mem_singleton.1 hnew
      exact h.opening p (List.mem_of_getElem? hp)
  | openFails i text =>
    obtain ⟨p, -, rfl⟩ := Option.map_eq_some_iff.1 hstep
    exact ⟨h.begun, h.asked, fun q hq => h.opening q (List.mem_of_mem_eraseIdx hq), h.grants⟩
  | otherHost granted =>
    obtain rfl := Option.some.inj hstep
    exact h.grant granted
  | tick ms =>
    obtain rfl := Option.some.inj hstep
    exact ⟨h.begun, h.asked, h.opening, h.grants⟩
  | watch | unwatch | load | dispose | resolved | resolveFails | call | callFails =>
    exact h.same (step_same hstep trivial)

theorem step_counting (h : Counting s) (e : Event ι) (hok : Rechecked o s e)
    (hstep : step o s e = some s') : Counting s' := by
  cases e with
  | reach i =>
    obtain ⟨c, hc, rfl⟩ := Option.map_eq_some_iff.1 hstep
    have hrest : Counting { s with called := s.called.eraseIdx i } := ⟨h.covers, h.rate⟩
    exact hrest.allowWrite c (hok c hc)
  | answer i granted =>
    obtain ⟨a, ha, rfl⟩ := Option.map_eq_some_iff.1 hstep
    have hrest : Counting ({ s with asked := s.asked.eraseIdx i }.grant granted) := ⟨h.covers, h.rate⟩
    refine hrest.enter a.call granted a.now ?_
    rintro rfl hnote
    exact hok a ha hnote
  | confirmFails i text =>
    obtain ⟨a, -, rfl⟩ := Option.map_eq_some_iff.1 hstep
    exact ⟨h.covers, h.rate⟩
  | opened i =>
    obtain ⟨p, hp, rfl⟩ := Option.map_eq_some_iff.1 hstep
    obtain ⟨hcounted, hstamp, hle⟩ := hok p hp
    exact h.opened hp hcounted hstamp hle
  | openFails i text =>
    obtain ⟨p, -, rfl⟩ := Option.map_eq_some_iff.1 hstep
    exact ⟨(h.openFails i).covers, h.rate⟩
  | otherHost granted =>
    obtain rfl := Option.some.inj hstep
    exact ⟨h.covers, h.rate⟩
  | tick ms =>
    obtain rfl := Option.some.inj hstep
    exact ⟨h.covers.later ms, h.rate⟩
  | watch | unwatch | load | dispose | resolved | resolveFails | call | callFails =>
    exact h.same (step_same hstep trivial)

theorem Watching.get_of_live (h : Watching s) {w : Watch ι} (hw : w ∈ s.live) :
    s.watches.get w.id = some w.token := by
  rw [← KeyedMap.mem_iff, h.keys]
  exact List.mem_map.2 ⟨w, hw, rfl⟩

theorem Watching.stopped (h : Watching s) (id : ι) {w : Watch ι} (hw : w ∈ s.live) :
    some w.token = s.watches.get id ↔ w.id = id := by
  constructor
  · intro htoken
    have hmem : (id, w.token) ∈ s.watches.entries := KeyedMap.mem_iff.2 htoken.symm
    rw [h.keys] at hmem
    obtain ⟨w', hw', heq⟩ := List.mem_map.1 hmem
    obtain ⟨hid, hsame⟩ := Prod.mk.inj heq
    have hww : w' = w := List.inj_on_of_nodup_map h.tokens hw' hw hsame
    rw [← hww]
    exact hid
  · rintro rfl
    exact (h.get_of_live hw).symm

theorem Watching.unwatch (h : Watching s) (id : ι) : Watching (s.unwatch id) := by
  have hlive : (s.unwatch id).live = s.live.filter fun w => w.id ≠ id := by
    have hfilter : s.live.filter (fun w => some w.token ≠ s.watches.get id) = s.live.filter fun w => w.id ≠ id := by
      refine List.filter_congr ?_
      intro w hw
      simp [h.stopped id hw]
    show (s.live.filter _).map _ = _
    rw [hfilter]
    conv_rhs => rw [← List.map_id (s.live.filter _)]
    refine List.map_congr_left ?_
    intro w hw
    obtain ⟨-, hne⟩ := List.mem_filter.1 hw
    have hid : w.id ≠ id := by simpa using hne
    simp [hid]
  have hsub : ∀ w, w ∈ (s.unwatch id).live → w ∈ s.live := by
    intro w hw
    rw [hlive] at hw
    exact List.mem_of_mem_filter hw
  refine ⟨?_, ?_, fun w hw => h.known w (hsub w hw), fun w hw => h.going w (hsub w hw), ?_⟩
  · rw [hlive]
    show s.watches.entries.filter _ = _
    rw [h.keys, List.filter_map]
    refine congrArg _ (List.filter_congr ?_)
    intro w _
    by_cases hid : w.id = id <;> simp [hid]
  · rw [hlive]
    exact h.tokens.sublist (List.filter_sublist.map _)
  · rw [hlive]
    have hle := List.length_filter_le (fun w : Watch ι => w.id ≠ id) s.live
    have hcount := h.count
    omega

theorem Watching.startWatch (h : Watching s) (r : Request ι) (gone : Bool)
    (hok : gone = false → s.disposed = false →
      r.ended = false ∧ s.watches.get r.id = none ∧ s.watches.entries.length < maxWatches) :
    Watching (s.startWatch r gone) := by
  unfold State.startWatch
  split
  · exact h
  · rename_i hdisposed
    split
    · have hall := h.dispose
      refine ⟨hall.keys, hall.tokens, ?_, hall.going, hall.count⟩
      intro w hw
      have htokens : s.dispose.tokens = s.tokens := by
        unfold State.dispose
        split <;> rfl
      have hlt := hall.known w hw
      show w.token < s.tokens + 1
      omega
    · rename_i hgone
      obtain ⟨hended, hnew, hroom⟩ := hok (by simpa using hgone) (by simpa using hdisposed)
      have hlen : s.watches.entries.length = s.live.length := by rw [h.keys, List.length_map]
      refine ⟨?_, ?_, ?_, ?_, ?_⟩
      · have hkey : r.id ∉ s.watches.entries.map Prod.fst := by
          rw [KeyedMap.mem_keys]
          simpa using hnew
        show (s.watches.set r.id s.tokens).entries = (s.live ++ [_]).map _
        rw [KeyedMap.entries_set hkey, h.keys, List.map_append]
        rfl
      · show ((s.live ++ [_]).map Watch.token).Nodup
        rw [List.map_append, List.nodup_append]
        refine ⟨h.tokens, List.nodup_singleton _, ?_⟩
        intro t ht t' ht'
        obtain ⟨w, hw, rfl⟩ := List.mem_map.1 ht
        obtain rfl := List.mem_singleton.1 ht'
        have hlt := h.known w hw
        exact hlt.ne
      · intro w hw
        show w.token < s.tokens + 1
        obtain hold | hnewest := List.mem_append.1 hw
        · have hlt := h.known w hold
          omega
        · obtain rfl := List.mem_singleton.1 hnewest
          exact Nat.lt_succ_self _
      · intro w hw
        obtain hold | hnewest := List.mem_append.1 hw
        · exact h.going w hold
        · obtain rfl := List.mem_singleton.1 hnewest
          exact hended
      · show (s.live ++ [_]).length ≤ maxWatches
        rw [List.length_append, List.length_singleton]
        omega

theorem step_watching (h : Watching s) (e : Event ι) (hok : Rechecked o s e)
    (hstep : step o s e = some s') : Watching s' := by
  cases e with
  | watch id =>
    obtain rfl := Option.some.inj hstep
    split
    · exact h
    · unfold State.watch
      split <;> exact h.same ⟨rfl, rfl, rfl⟩
  | unwatch id =>
    obtain rfl := Option.some.inj hstep
    split
    · exact h
    · exact h.unwatch id
  | call c =>
    obtain rfl := Option.some.inj hstep
    split
    · exact h
    · exact h.same ⟨rfl, rfl, rfl⟩
  | load =>
    obtain rfl := Option.some.inj hstep
    exact h.load
  | dispose =>
    obtain rfl := Option.some.inj hstep
    exact h.dispose
  | resolved i gone =>
    obtain ⟨r, hr, rfl⟩ := Option.map_eq_some_iff.1 hstep
    have hrest : Watching { s with resolving := s.resolving.eraseIdx i } := h.same ⟨rfl, rfl, rfl⟩
    refine hrest.startWatch r gone ?_
    rintro rfl hdisposed
    exact hok hdisposed r hr
  | reach i =>
    obtain ⟨c, -, rfl⟩ := Option.map_eq_some_iff.1 hstep
    obtain ⟨hwatches, hlive, htokens⟩ := allowWrite_same o { s with called := s.called.eraseIdx i } c
    exact h.same ⟨hwatches, hlive, htokens⟩
  | answer i granted =>
    obtain ⟨a, -, rfl⟩ := Option.map_eq_some_iff.1 hstep
    obtain ⟨hwatches, hlive, htokens⟩ :=
      admit_same ({ s with asked := s.asked.eraseIdx i }.grant granted) a.call granted a.now
    exact h.same ⟨hwatches, hlive, htokens⟩
  | resolveFails i text | callFails i text | confirmFails i text | openFails i text | opened i =>
    obtain ⟨_, -, rfl⟩ := Option.map_eq_some_iff.1 hstep
    exact h.same ⟨rfl, rfl, rfl⟩
  | otherHost granted =>
    obtain rfl := Option.some.inj hstep
    exact h.same ⟨rfl, rfl, rfl⟩
  | tick ms =>
    obtain rfl := Option.some.inj hstep
    exact h.same ⟨rfl, rfl, rfl⟩

theorem run_confirmed (hrun : Run (step o) (fun _ _ => True) start s) :
    Confirmed o s :=
  hrun.invariant (Confirmed o) (confirmed_start o) fun _ e _ h _ hstep => step_confirmed h e hstep

theorem run_limits (hrun : Run (step o) (Rechecked o) start s) :
    Counting s ∧ Watching s :=
  hrun.invariant (fun s => Counting s ∧ Watching s) ⟨counting_start, watching_start⟩ fun _ e _ h hok hstep =>
    ⟨step_counting h.1 e hok hstep, step_watching h.2 e hok hstep⟩

/-- As long as what the host looked at before an await still holds after it, the board stays within its
limits. -/
theorem withinLimits_of_rechecked (o : BoardHostOptions) (s : State ι)
    (hrun : Run (step o) (Rechecked o) start s) : WithinLimits o s := by
  have hconfirmed := run_confirmed (hrun.weaken fun _ _ _ => trivial)
  obtain ⟨hcounting, hwatching⟩ := run_limits hrun
  refine ⟨hconfirmed.begun, hcounting.rate, hwatching.count, ?_⟩
  intro w hw
  refine ⟨?_, hwatching.going w hw⟩
  rw [hwatching.keys]
  exact List.mem_map.2 ⟨w, hw, rfl⟩

end

/-- A watch stopped by its unwatch, a page written once confirmed, a light row once its lots are open. -/
theorem withinLimits_of_rechecked_run : ∃ s : State Nat,
    exec (step ⟨false, true⟩) (Rechecked ⟨false, true⟩) start [.watch 1, .watch 2, .resolved 0 false, .call ⟨3, .note⟩,
      .reach 0, .resolved 0 false, .tick 500, .answer 0 true, .unwatch 1, .call ⟨4, .lightRow⟩, .reach 0, .load,
      .opened 0] = some s ∧ WithinLimits ⟨false, true⟩ s :=
  ⟨_, rfl, withinLimits_of_rechecked ⟨false, true⟩ _ (run_of_exec [.watch 1, .watch 2, .resolved 0 false,
    .call ⟨3, .note⟩, .reach 0, .resolved 0 false, .tick 500, .answer 0 true, .unwatch 1, .call ⟨4, .lightRow⟩,
    .reach 0, .load, .opened 0] _ _ rfl)⟩

/-- Two watches of one id: the first is never stopped, not even when the board is disposed of. -/
theorem watch_left_live : ¬ ∀ s : State Nat,
    Run (step ⟨false, true⟩) (fun _ _ => True) start s → WithinLimits ⟨false, true⟩ s := by
  intro h
  have hrun : Run (step ⟨false, true⟩) (fun _ _ => True) (start : State Nat) _ := run_of_exec [.watch 1, .watch 1,
    .resolved 0 false, .resolved 0 false, .dispose] _ _ rfl
  obtain ⟨-, hended⟩ := (h _ hrun).held ⟨1, 0, true⟩ (List.Mem.head _)
  cases hended

end Savoire.Board
