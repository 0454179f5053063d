import Savoire.Sync.RemoteIndexer

/-! What the watched queries of a vault on the server can rely on: a run that failed is made again, as long as
no check ends with a block that was lifted while it ran. -/
namespace Savoire.RemoteIndexer
open Transition Indexer

def runCount (calls : List Call) (resumes : List Resume) (id : Nat) : Nat :=
  calls.count (.watch id) + resumes.count (.watch id)

structure Flights (watches : List RemoteWatch) (nextWatch : Nat) (calls : List Call) (resumes : List Resume) :
    Prop where
  nodup : (watches.map RemoteWatch.id).Nodup
  fresh : ∀ w ∈ watches, w.id < nextWatch
  runs : ∀ id, runCount calls resumes id ≤ 1
  idle : ∀ id, nextWatch ≤ id → runCount calls resumes id = 0
  running : ∀ w ∈ watches, runCount calls resumes w.id = if w.running then 1 else 0

structure Inv (s : Indexer) : Prop where
  flights : Flights s.watches s.nextWatch s.calls s.resumes
  /-- A run that is due comes after the block, after the check or after the run that goes on. -/
  owed : ∀ w ∈ s.watches, w.owed = true → 0 < s.blockedUntil ∨ s.lifted = true ∨ (w.running = true ∧ w.again = true)
  lifted : s.lifted = true → s.checking.isSome
  timer : s.checking = none → s.watches ≠ [] → s.timer.isSome
  probe : s.probe = true → s.blockedUntil = 0 ∨ s.now < s.blockedUntil
  began : s.checking.isSome → s.probe = false
  seq : s.probe = true → s.st.seq = none
  first : ∀ c, s.checking = some c → c.firstProbe = true → c.prevSeq = none

/-- The clock does not pass the end of a block before the first check has begun, and no check ends with a block
that was lifted while it ran and after which it has not run the queries again. -/
def Clear (s : Indexer) : Event → Prop
  | .clock t => s.probe = true → s.blockedUntil = 0 ∨ t < s.blockedUntil
  | .endCheck => s.lifted = false
  | _ => True

section Steps
variable {o : Options} {s s' : Indexer} {w : RemoteWatch}

theorem schedule_eq (o : Options) (s : Indexer) : ∃ timer, s.schedule o = { s with timer } := by
  unfold schedule
  split
  · exact ⟨s.timer, rfl⟩
  · exact ⟨_, rfl⟩

theorem schedule_timer (hcheck : s.checking = none) (hw : s.watches ≠ []) : (s.schedule o).timer.isSome := by
  have hinterested : s.interested = true := by simp [interested, hw]
  simp only [schedule, hcheck, Option.isSome_none, Bool.false_eq_true, if_false, Option.isSome_map, nextCheck,
    hinterested, if_true]
  split
  · rfl
  · split <;> rfl

theorem Inv.schedule (hflights : Flights s.watches s.nextWatch s.calls s.resumes)
    (howed : ∀ w ∈ s.watches, w.owed = true →
      0 < s.blockedUntil ∨ s.lifted = true ∨ (w.running = true ∧ w.again = true))
    (hlifted : s.lifted = true → s.checking.isSome)
    (hprobe : s.probe = true → s.blockedUntil = 0 ∨ s.now < s.blockedUntil)
    (hbegan : s.checking.isSome → s.probe = false) (hseq : s.probe = true → s.st.seq = none)
    (hfirst : ∀ c, s.checking = some c → c.firstProbe = true → c.prevSeq = none) : Inv (s.schedule o) := by
  have htimer : s.checking = none → s.watches ≠ [] → (s.schedule o).timer.isSome := schedule_timer
  obtain ⟨timer, heq⟩ := schedule_eq o s
  rw [heq] at htimer ⊢
  exact ⟨hflights, howed, hlifted, htimer, hprobe, hbegan, hseq, hfirst⟩

theorem runOne_id (s : Indexer) (w : RemoteWatch) : (s.runOne w).id = w.id := by
  unfold runOne
  split
  · rfl
  · split <;> rfl

theorem blocked_pos (h : s.blocked = true) : 0 < s.blockedUntil := by
  have hlt : s.now < s.blockedUntil := of_decide_eq_true h
  omega

theorem runOne_owed (h : (s.runOne w).owed = true) :
    0 < s.blockedUntil ∨ ((s.runOne w).running = true ∧ (s.runOne w).again = true) := by
  unfold runOne at h ⊢
  by_cases hrunning : w.running = true
  · rw [if_pos hrunning]
    exact .inr ⟨hrunning, rfl⟩
  · by_cases hblocked : s.blocked = true
    · exact .inl (blocked_pos hblocked)
    · rw [if_neg hrunning, if_neg hblocked] at h
      cases h

theorem count_watch (q : RemoteWatch → Bool) (id : Nat) (l : List RemoteWatch) :
    ((l.filter q).map fun w => Call.watch w.id).count (.watch id) = (l.filter fun w => q w && w.id == id).length := by
  induction l with
  | nil => rfl
  | cons w l ih =>
    rw [List.filter_cons, List.filter_cons]
    by_cases hq : q w = true
    · simp only [hq, Bool.true_and, if_true, List.map_cons, List.count_cons, ih, beq_iff_eq, Call.watch.injEq]
      split <;> simp
    · simp [hq, ih]

theorem filter_id {l : List RemoteWatch} (hnodup : (l.map RemoteWatch.id).Nodup) (hw : w ∈ l) (q : RemoteWatch → Bool) :
    (l.filter fun x => q x && x.id == w.id).length = if q w then 1 else 0 := by
  induction l with
  | nil => cases hw
  | cons x l ih =>
    rw [List.map_cons, List.nodup_cons] at hnodup
    rw [List.filter_cons]
    obtain rfl | hw := List.mem_cons.mp hw
    · have hrest : (l.filter fun x => q x && x.id == w.id) = [] := by
        refine List.filter_eq_nil_iff.mpr fun x hx hid => hnodup.1 ?_
        simp only [Bool.and_eq_true, beq_iff_eq] at hid
        exact hid.2 ▸ List.mem_map_of_mem hx
      cases q w <;> simp [hrest]
    · have hne : (x.id == w.id) = false := by
        refine beq_false_of_ne fun hid => hnodup.1 ?_
        exact hid ▸ List.mem_map_of_mem hw
      rw [hne, Bool.and_false, if_neg Bool.false_ne_true]
      exact ih hnodup.2 hw

theorem runCount_runWatches (s : Indexer) (p : RemoteWatch → Bool) (id : Nat) :
    runCount (s.runWatches p).calls s.resumes id =
      runCount s.calls s.resumes id + (s.watches.filter fun w => (p w && s.starts w) && w.id == id).length := by
  simp only [runCount, runWatches, List.count_append, count_watch]
  omega

theorem Flights.runWatches (h : Flights s.watches s.nextWatch s.calls s.resumes) (p : RemoteWatch → Bool) :
    Flights (s.runWatches p).watches s.nextWatch (s.runWatches p).calls s.resumes := by
  have hnone : ∀ id, (∀ w ∈ s.watches, w.id ≠ id) →
      runCount (s.runWatches p).calls s.resumes id = runCount s.calls s.resumes id := by
    intro id hid
    rw [runCount_runWatches, List.filter_eq_nil_iff.mpr, List.length_nil, Nat.add_zero]
    intro w hw hcond
    simp only [Bool.and_eq_true, beq_iff_eq] at hcond
    exact hid w hw hcond.2
  have hid : ∀ w : RemoteWatch, (if p w then s.runOne w else w).id = w.id := by
    intro w
    split
    · exact runOne_id s w
    · rfl
  have hrunning : ∀ w ∈ s.watches, runCount (s.runWatches p).calls s.resumes w.id =
      if (if p w then s.runOne w else w).running then 1 else 0 := by
    intro w hw
    have hbefore := h.running w hw
    rw [runCount_runWatches, filter_id h.nodup hw fun w => p w && s.starts w, hbefore]
    unfold starts runOne
    cases p w <;> cases hr : w.running <;> cases s.blocked <;> simp [hr]
  exact {
    nodup := by
      have heq : (s.runWatches p).watches.map RemoteWatch.id = s.watches.map RemoteWatch.id := by
        simp [Indexer.runWatches, Function.comp_def, hid]
      rw [heq]
      exact h.nodup
    fresh := fun w hw => by
      obtain ⟨v, hv, rfl⟩ := List.mem_map.mp hw
      rw [hid]
      exact h.fresh v hv
    runs := fun id => by
      by_cases hlive : ∃ w ∈ s.watches, w.id = id
      · obtain ⟨w, hw, rfl⟩ := hlive
        rw [hrunning w hw]
        generalize (if p w then s.runOne w else w).running = running
        cases running <;> decide
      · rw [hnone id fun w hw hid => hlive ⟨w, hw, hid⟩]
        exact h.runs id
    idle := fun id hlt => by
      rw [hnone id fun w hw hid => by have hlt' := h.fresh w hw; omega]
      exact h.idle id hlt
    running := fun w hw => by
      obtain ⟨v, hv, rfl⟩ := List.mem_map.mp hw
      rw [hid]
      exact hrunning v hv }

theorem Flights.of_eq {watches watches' : List RemoteWatch} {nextWatch : Nat} {calls calls' : List Call}
    {resumes resumes' : List Resume} (h : Flights watches nextWatch calls resumes)
    (hwatches : watches'.map (fun w => (w.id, w.running)) = watches.map fun w => (w.id, w.running))
    (hcount : ∀ id, runCount calls' resumes' id = runCount calls resumes id) :
    Flights watches' nextWatch calls' resumes' := by
  have hids : watches'.map RemoteWatch.id = watches.map RemoteWatch.id := by
    simpa [Function.comp_def] using congrArg (List.map Prod.fst) hwatches
  have hold : ∀ w ∈ watches', ∃ v ∈ watches, v.id = w.id ∧ v.running = w.running := by
    intro w hw
    have hmem : (w.id, w.running) ∈ watches'.map fun w => (w.id, w.running) :=
      List.mem_map_of_mem (f := fun w : RemoteWatch => (w.id, w.running)) hw
    rw [hwatches] at hmem
    obtain ⟨v, hv, heq⟩ := List.mem_map.mp hmem
    exact ⟨v, hv, congrArg Prod.fst heq, congrArg Prod.snd heq⟩
  exact {
    nodup := hids ▸ h.nodup
    fresh := fun w hw => by
      obtain ⟨v, hv, hid, -⟩ := hold w hw
      rw [← hid]
      exact h.fresh v hv
    runs := fun id => by rw [hcount]; exact h.runs id
    idle := fun id hlt => by rw [hcount]; exact h.idle id hlt
    running := fun w hw => by
      obtain ⟨v, hv, hid, hrunning⟩ := hold w hw
      rw [hcount, ← hid, ← hrunning]
      exact h.running v hv }

theorem Inv.watch (h : Inv s) : Inv (s.watch o) := by
  let s' : Indexer :=
    { s with watches := s.watches ++ [⟨s.nextWatch, false, false, false⟩], nextWatch := s.nextWatch + 1 }
  have hflights : Flights s'.watches s'.nextWatch s'.calls s'.resumes := {
    nodup := by
      have hnew : s.nextWatch ∉ s.watches.map RemoteWatch.id := fun hmem => by
        obtain ⟨w, hw, hid⟩ := List.mem_map.mp hmem
        have hlt := h.flights.fresh w hw
        omega
      simp only [s', List.map_append, List.map_cons, List.map_nil]
      exact List.nodup_append.mpr ⟨h.flights.nodup, List.nodup_singleton _, fun a ha b hb hab => by
        rw [List.mem_singleton.mp hb] at hab
        exact hnew (hab ▸ ha)⟩
    fresh := fun w hw => by
      show w.id < s.nextWatch + 1
      obtain hw | hw := List.mem_append.mp hw
      · exact Nat.lt_succ_of_lt (h.flights.fresh w hw)
      · rw [List.mem_singleton.mp hw]
        exact Nat.lt_succ_self _
    runs := h.flights.runs
    idle := fun id hlt => h.flights.idle id (Nat.le_of_succ_le hlt)
    running := fun w hw => by
      obtain hw | hw := List.mem_append.mp hw
      · exact h.flights.running w hw
      · rw [List.mem_singleton.mp hw]
        exact h.flights.idle s.nextWatch (Nat.le_refl _) }
  refine Inv.schedule (hflights.runWatches _) (fun w hw howed => ?_) h.lifted h.probe h.began h.seq h.first
  obtain ⟨v, hv, rfl⟩ := List.mem_map.mp hw
  split at howed
  · rename_i hid
    rw [if_pos hid]
    obtain hpos | hagain := runOne_owed howed
    · exact .inl hpos
    · exact .inr (.inr hagain)
  · rename_i hid
    rw [if_neg hid]
    obtain hv | hv := List.mem_append.mp hv
    · exact h.owed v hv howed
    · rw [List.mem_singleton.mp hv] at hid
      simp at hid

theorem Inv.unwatch (h : Inv s) (id : Nat) : Inv (s.unwatch o id) := by
  have hmem : ∀ {w}, w ∈ s.watches.filter (fun w => w.id != id) → w ∈ s.watches := fun hw => (List.mem_filter.mp hw).1
  exact Inv.schedule ⟨h.flights.nodup.sublist (List.filter_sublist.map _), fun w hw => h.flights.fresh w (hmem hw),
    h.flights.runs, h.flights.idle, fun w hw => h.flights.running w (hmem hw)⟩
    (fun w hw => h.owed w (hmem hw)) h.lifted h.probe h.began h.seq h.first

theorem Inv.succeeded (h : Inv s) (state : Option IndexStatus) : Inv (s.succeeded o state) := by
  unfold Indexer.succeeded
  dsimp only
  split
  · refine Inv.schedule (Flights.runWatches (s := { s with failures := 0, blockedUntil := 0, st := _ }) h.flights _)
      (fun w hw howed => ?_)
      (fun hlifted => by cases hlifted) (fun _ => .inl rfl) h.began h.seq h.first
    obtain ⟨v, -, rfl⟩ := List.mem_map.mp hw
    obtain hpos | hagain := runOne_owed howed
    · exact absurd hpos (Nat.lt_irrefl 0)
    · exact .inr (.inr hagain)
  · rename_i hcond
    have hchecking : 0 < s.blockedUntil → s.checking.isSome := fun hpos => by
      by_contra hnone
      exact hcond (by simpa [hpos] using hnone)
    exact {
      __ := h
      owed := fun w hw howed => by
        obtain hpos | hlifted | hagain := h.owed w hw howed
        · exact .inr (.inl (by simp [hpos]))
        · exact .inr (.inl (by simp [hlifted]))
        · exact .inr (.inr hagain)
      lifted := fun hlifted => by
        obtain hlifted | hpos : s.lifted = true ∨ 0 < s.blockedUntil := by simpa using hlifted
        · exact h.lifted hlifted
        · exact hchecking hpos
      probe := fun _ => .inl rfl
      first := h.first }

theorem Inv.failed (h : Inv s) (call : Call) (e : Option HttpError) : Inv (s.failed o call e) := by
  have hblock : ∀ (st : VaultIndexerStatus) (failures wait : Nat), 0 < wait → st.seq = s.st.seq →
      Inv ({ s with failures, blockedUntil := s.now + wait, st, watches := s.watches.map (owe call), lifted := false :
        Indexer }.schedule o) := by
    intro st failures wait hwait hseq
    refine Inv.schedule (h.flights.of_eq ?_ fun _ => rfl) (fun _ _ _ => .inl (by show 0 < s.now + wait; omega))
      (fun hlifted => by cases hlifted) (fun _ => .inr (by show s.now < s.now + wait; omega))
      h.began (fun hprobe => hseq.trans (h.seq hprobe)) h.first
    rw [List.map_map]
    refine List.map_congr_left fun w _ => ?_
    simp only [Function.comp_apply, owe]
    split <;> rfl
  have hbackoff : 0 < min o.retryMaxMs (o.retryBaseMs * 2 ^ s.failures) :=
    Nat.lt_min.mpr ⟨o.retryMax_pos, Nat.mul_pos o.retryBase_pos (Nat.pow_pos (by decide))⟩
  cases e with
  | none => exact h
  | some e =>
    simp only [Indexer.failed]
    split
    · exact h
    · split
      · exact hblock _ _ _ o.modeRetry_pos rfl
      · split
        · exact hblock _ _ _ o.modeRetry_pos rfl
        · split
          · exact hblock _ _ _ o.modeRetry_pos rfl
          · exact hblock _ _ _ (by omega) rfl

theorem runCount_answer {k : Nat} {call : Call} (hcall : s.calls[k]? = some call) (info : Option IndexStatusInfo)
    (id : Nat) : runCount (s.calls.eraseIdx k) (s.resumes ++ resumeOf info call) id =
      runCount s.calls s.resumes id := by
  obtain ⟨hlt, rfl⟩ := List.getElem?_eq_some_iff.mp hcall
  have hcount : s.calls.count (.watch id) = (s.calls.eraseIdx k).count (.watch id) +
      if s.calls[k] = .watch id then 1 else 0 := by
    rw [(List.getElem_cons_eraseIdx_perm hlt).symm.count_eq, List.count_cons]
    simp
  simp only [runCount, List.count_append]
  cases hc : s.calls[k] with
  | watch id' =>
    rw [hc] at hcount
    simp only [resumeOf, List.count_cons, List.count_nil, beq_iff_eq, Resume.watch.injEq, Call.watch.injEq] at hcount ⊢
    omega
  | status =>
    rw [hc] at hcount
    simp [resumeOf, hcount]
  | other =>
    rw [hc] at hcount
    simp [resumeOf, hcount]

theorem Inv.answer (h : Inv s) {k : Nat} {call : Call} (hcall : s.calls[k]? = some call) (r : Answer) :
    Inv ({ s with calls := s.calls.eraseIdx k : Indexer }.answer o call r) := by
  have hbefore : ∀ info, Inv { s with calls := s.calls.eraseIdx k, resumes := s.resumes ++ resumeOf info call } :=
    fun info => ⟨h.flights.of_eq rfl (runCount_answer hcall info), h.owed, h.lifted, h.timer, h.probe, h.began, h.seq,
      h.first⟩
  cases r with
  | ok state info => exact (hbefore (some info)).succeeded state
  | error e => exact (hbefore none).failed call e

theorem runCount_resume {k : Nat} {r : Resume} (hr : s.resumes[k]? = some r) (id : Nat) :
    runCount s.calls s.resumes id = runCount s.calls (s.resumes.eraseIdx k) id + if r = .watch id then 1 else 0 := by
  obtain ⟨hlt, rfl⟩ := List.getElem?_eq_some_iff.mp hr
  have hcount : s.resumes.count (.watch id) = (s.resumes.eraseIdx k).count (.watch id) +
      if s.resumes[k] = .watch id then 1 else 0 := by
    rw [(List.getElem_cons_eraseIdx_perm hlt).symm.count_eq, List.count_cons]
    simp
  simp only [runCount, hcount]
  omega

theorem Flights.update {watches : List RemoteWatch} {nextWatch : Nat} {calls calls' : List Call}
    {resumes resumes' : List Resume} (h : Flights watches nextWatch calls resumes) {id : Nat}
    {f : RemoteWatch → RemoteWatch} (hid : ∀ w : RemoteWatch, (f w).id = w.id)
    (hothers : ∀ id', id' ≠ id → runCount calls' resumes' id' = runCount calls resumes id')
    (hle : runCount calls' resumes' id ≤ runCount calls resumes id)
    (hrunning : ∀ w ∈ watches, w.id = id → runCount calls' resumes' id = if (f w).running then 1 else 0) :
    Flights (watches.map fun w => if w.id == id then f w else w) nextWatch calls' resumes' where
  nodup := by
    have heq : (watches.map fun w => if w.id == id then f w else w).map RemoteWatch.id =
        watches.map RemoteWatch.id := by
      rw [List.map_map]
      refine List.map_congr_left fun w _ => ?_
      simp only [Function.comp_apply]
      split
      · exact hid w
      · rfl
    rw [heq]
    exact h.nodup
  fresh w hw := by
    obtain ⟨v, hv, rfl⟩ := List.mem_map.mp hw
    split
    · rw [hid]
      exact h.fresh v hv
    · exact h.fresh v hv
  runs id' := by
    by_cases heq : id' = id
    · subst heq
      exact hle.trans (h.runs id')
    · rw [hothers id' heq]
      exact h.runs id'
  idle id' hlt := by
    by_cases heq : id' = id
    · subst heq
      exact Nat.le_zero.mp (hle.trans (Nat.le_zero.mpr (h.idle id' hlt)))
    · rw [hothers id' heq]
      exact h.idle id' hlt
  running w hw := by
    obtain ⟨v, hv, rfl⟩ := List.mem_map.mp hw
    by_cases heq : v.id = id
    · rw [if_pos (beq_iff_eq.mpr heq), hid, heq]
      exact hrunning v hv heq
    · rw [if_neg (by simpa using heq), hothers v.id heq]
      exact h.running v hv

theorem Inv.resumeWatch (h : Inv s) {k id : Nat} (hr : s.resumes[k]? = some (.watch id)) :
    Inv ({ s with resumes := s.resumes.eraseIdx k : Indexer }.resumeWatch id) := by
  have hbefore : ∀ id', runCount s.calls s.resumes id' =
      runCount s.calls (s.resumes.eraseIdx k) id' + if Resume.watch id = .watch id' then 1 else 0 := runCount_resume hr
  have hzero : runCount s.calls (s.resumes.eraseIdx k) id = 0 ∧ runCount s.calls s.resumes id = 1 := by
    have h1 := hbefore id
    have h2 := h.flights.runs id
    rw [if_pos rfl] at h1
    omega
  have hle : runCount s.calls (s.resumes.eraseIdx k) id ≤ runCount s.calls s.resumes id := by omega
  have hothers : ∀ id', id' ≠ id →
      runCount s.calls (s.resumes.eraseIdx k) id' = runCount s.calls s.resumes id' := fun id' hne => by
    rw [hbefore id', if_neg (by simpa using fun heq => hne heq.symm)]
    rfl
  have hchecking : ∀ f : Check → Check, (∀ c, (f c).firstProbe = c.firstProbe ∧ (f c).prevSeq = c.prevSeq) →
      ∀ c, s.checking.map f = some c → c.firstProbe = true → c.prevSeq = none := by
    intro f hf c hc hfirst
    obtain ⟨c', hc', rfl⟩ := Option.map_eq_some_iff.mp hc
    rw [(hf c').1] at hfirst
    rw [(hf c').2]
    exact h.first c' hc' hfirst
  unfold Indexer.resumeWatch
  split
  · rename_i w hw
    have hmem : w ∈ s.watches := List.mem_of_find?_eq_some hw
    have hwid : w.id = id := by simpa using List.find?_some hw
    have hunique : ∀ v ∈ s.watches, v.id = id → v = w := fun v hv hvid =>
      List.inj_on_of_nodup_map h.flights.nodup hv hmem (hvid.trans hwid.symm)
    have hwrunning : w.running = true := by
      have hcount := h.flights.running w hmem
      rw [hwid, hzero.2] at hcount
      by_contra hno
      rw [if_neg hno] at hcount
      cases hcount
    split
    · have hone : runCount (s.calls ++ [.watch id]) (s.resumes.eraseIdx k) id = 1 := by
        have h0 := hzero.1
        simp only [runCount, List.count_append, List.count_singleton_self] at h0 ⊢
        omega
      exact {
        flights := h.flights.update (f := fun w => { w with again := false, owed := false }) (fun _ => rfl)
          (fun id' hne => by
            rw [← hothers id' hne]
            simp [runCount, List.count_append, Ne.symm hne])
          (by rw [hone, hzero.2])
          (fun v hv hvid => by
            obtain rfl := hunique v hv hvid
            rw [hone, if_pos hwrunning])
        owed := fun v hv howed => by
          obtain ⟨u, hu, rfl⟩ := List.mem_map.mp hv
          split at howed
          · cases howed
          · rename_i hne
            rw [if_neg hne]
            exact h.owed u hu howed
        __ := h
        timer := fun hnone hne => h.timer hnone fun hnil => hne (by simp [hnil])
        first := h.first }
    · rename_i hagain
      exact {
        flights := h.flights.update (f := fun w => { w with running := false }) (fun _ => rfl) hothers
          hle (fun v _ _ => hzero.1)
        owed := fun v hv howed => by
          obtain ⟨u, hu, rfl⟩ := List.mem_map.mp hv
          split at howed
          · rename_i huid
            have heq : u = w := hunique u hu (by simpa using huid)
            obtain hpos | hlifted | ⟨-, hag⟩ := h.owed u hu howed
            · exact .inl hpos
            · exact .inr (.inl hlifted)
            · -- The loop stops with a run to make only where the indexer is blocked.
              rw [heq] at hag
              have hblocked : s.blocked = true := by simpa [hag, Indexer.blocked] using hagain
              exact .inl (blocked_pos hblocked)
          · rename_i hne
            rw [if_neg hne]
            exact h.owed u hu howed
        lifted := fun hlifted => by
          rw [Option.isSome_map]
          exact h.lifted hlifted
        timer := fun hnone hne => h.timer (Option.map_eq_none_iff.mp hnone) fun hnil => hne (by simp [hnil])
        probe := h.probe
        began := fun hsome => h.began (by rwa [Option.isSome_map] at hsome)
        seq := h.seq
        first := hchecking _ fun _ => ⟨rfl, rfl⟩ }
  · rename_i hnone
    have hdead : ∀ w ∈ s.watches, w.id ≠ id := fun w hw hwid => by
      have hall := List.find?_eq_none.mp hnone w hw
      simp [hwid] at hall
    exact {
      flights := by
        have hsame := h.flights.update (f := fun w => w) (fun _ => rfl) hothers hle
          fun w hw hwid => absurd hwid (hdead w hw)
        simpa using hsame
      __ := h
      lifted := fun hlifted => by
        rw [Option.isSome_map]
        exact h.lifted hlifted
      timer := fun hnone hne => h.timer (Option.map_eq_none_iff.mp hnone) hne
      began := fun hsome => h.began (by rwa [Option.isSome_map] at hsome)
      first := hchecking _ fun _ => ⟨rfl, rfl⟩ }

theorem announces_reruns {c : Check} {seq : Option Nat} (hfirst : c.firstProbe = true → c.prevSeq = none)
    (h : announces c seq = true) (status : IndexStatus) : reruns c (s.advanced c seq) status = true := by
  unfold announces at h
  split at h
  · rename_i q p hp
    have hnot : c.firstProbe = false := by
      by_contra htrue
      rw [hfirst (by simpa using htrue)] at hp
      cases hp
    have hadvanced : s.advanced c (some q) = true := by
      simp only [advanced, hp]
      exact h
    simp [reruns, hnot, hadvanced]
  · cases h

theorem Inv.resumeStatus (h : Inv s) {k : Nat} {info : Option IndexStatusInfo} {c : Check}
    (hr : s.resumes[k]? = some (.status info)) (hc : s.checking = some c) :
    Inv ({ s with resumes := s.resumes.eraseIdx k : Indexer }.resumeStatus o c info) := by
  have hcount : ∀ id, runCount s.calls (s.resumes.eraseIdx k) id = runCount s.calls s.resumes id := fun id => by
    rw [runCount_resume hr id, if_neg (by simp)]
    rfl
  have hprobe : s.probe = false := h.began (by rw [hc]; rfl)
  have hfirst : ∀ waiting c', some { c with waiting } = some c' → c'.firstProbe = true → c'.prevSeq = none :=
    fun waiting c' hc' => by
      obtain rfl := Option.some.inj hc'
      exact h.first c hc
  cases info with
  | none =>
    exact {
      flights := h.flights.of_eq rfl hcount
      __ := h
      lifted := fun _ => rfl
      timer := fun hnone => by cases hnone
      began := fun _ => hprobe
      first := hfirst _ }
  | some info =>
    have hflights : ∀ b : Bool, Flights (s.watches.map fun w => { w with owed := w.owed || b }) s.nextWatch s.calls
        (s.resumes.eraseIdx k) := fun _ => h.flights.of_eq (by rw [List.map_map]; rfl) hcount
    simp only [Indexer.resumeStatus]
    split
    · exact {
        flights := Flights.runWatches (hflights _) _
        owed := fun w hw howed => by
          obtain ⟨v, -, rfl⟩ := List.mem_map.mp hw
          obtain hpos | hagain := runOne_owed howed
          · exact .inl hpos
          · exact .inr (.inr hagain)
        lifted := fun _ => rfl
        timer := fun hnone => by cases hnone
        probe := fun htrue => by rw [show _ = false from hprobe] at htrue; cases htrue
        began := fun _ => hprobe
        seq := fun htrue => by rw [show _ = false from hprobe] at htrue; cases htrue
        first := hfirst _ }
    · rename_i hreruns
      have hannounces : announces c info.seq = false := by
        by_contra htrue
        exact hreruns (announces_reruns (h.first c hc) (by simpa using htrue) info.status)
      exact {
        flights := hflights _
        owed := fun w hw howed => by
          obtain ⟨v, hv, rfl⟩ := List.mem_map.mp hw
          refine h.owed v hv ?_
          simpa [hannounces] using howed
        lifted := fun _ => rfl
        timer := fun hnone => by cases hnone
        probe := fun htrue => by rw [show _ = false from hprobe] at htrue; cases htrue
        began := fun _ => hprobe
        seq := fun htrue => by rw [show _ = false from hprobe] at htrue; cases htrue
        first := hfirst _ }

theorem Inv.beginCheck (h : Inv s) (force : Bool) : Inv (s.beginCheck force) := by
  have hfirst : ∀ (startedAt : Nat) (wasBlocked wasBuilding : Bool) (c : Check),
      some ⟨force, s.probe, startedAt, wasBlocked, wasBuilding, s.st.seq, none⟩ = some c →
        c.firstProbe = true → c.prevSeq = none := by
    intro startedAt wasBlocked wasBuilding c hc hprobe
    obtain rfl := Option.some.inj hc
    exact h.seq hprobe
  unfold Indexer.beginCheck
  split
  · exact ⟨h.flights.of_eq rfl fun id => by simp [runCount, List.count_append], h.owed, fun _ => rfl,
      (fun hnone => by cases hnone), (fun hprobe => by cases hprobe), fun _ => rfl, (fun hprobe => by cases hprobe),
      hfirst _ _ _⟩
  · exact ⟨h.flights.of_eq rfl fun id => by simp [runCount, List.count_append], h.owed, fun _ => rfl,
      (fun hnone => by cases hnone), (fun hprobe => by cases hprobe), fun _ => rfl, (fun hprobe => by cases hprobe),
      hfirst _ _ _⟩

theorem Inv.start (o : Options) (now : Nat) : Inv (start o now) :=
  Inv.schedule ⟨List.nodup_nil, (fun _ hw => by cases hw), fun _ => Nat.zero_le 1, fun _ _ => rfl,
    fun _ hw => by cases hw⟩
    (fun _ hw => by cases hw) (fun hlifted => by cases hlifted) (fun _ => .inl rfl) (fun hsome => by cases hsome)
    (fun _ => rfl) fun _ hc => by cases hc

theorem Inv.step {e : Event} (h : Inv s) (hclear : Clear s e) (hstep : step o s e = some s') : Inv s' := by
  cases e with
  | clock t =>
    simp only [RemoteIndexer.step] at hstep
    split at hstep
    · cases hstep
      exact ⟨h.flights, h.owed, h.lifted, h.timer, hclear, h.began, h.seq, h.first⟩
    · cases hstep
  | watch =>
    cases hstep
    exact h.watch
  | unwatch id =>
    cases hstep
    exact h.unwatch id
  | call =>
    simp only [RemoteIndexer.step] at hstep
    split at hstep
    · cases hstep
      exact h
    · cases hstep
      exact ⟨h.flights.of_eq rfl fun id => by simp [runCount, List.count_append], h.owed, h.lifted, h.timer,
        h.probe, h.began, h.seq, h.first⟩
  | answer k r =>
    simp only [RemoteIndexer.step] at hstep
    split at hstep
    · cases hstep
    · rename_i call hcall
      cases hstep
      exact h.answer hcall r
  | resume k =>
    simp only [RemoteIndexer.step] at hstep
    split at hstep
    · cases hstep
    · rename_i id hr
      cases hstep
      exact h.resumeWatch hr
    · rename_i info hr
      split at hstep
      · cases hstep
      · rename_i c hc
        cases hstep
        exact h.resumeStatus hr hc
  | timer =>
    simp only [RemoteIndexer.step] at hstep
    split at hstep
    · cases hstep
    · split at hstep
      · cases hstep
      · split at hstep
        · rename_i hsome
          cases hstep
          exact ⟨h.flights, h.owed, h.lifted,
            (fun hnone => by rw [show _ = none from hnone] at hsome; cases hsome), h.probe, h.began, h.seq, h.first⟩
        · cases hstep
          exact h.beginCheck false
  | refreshNow =>
    simp only [RemoteIndexer.step] at hstep
    split at hstep
    · cases hstep
      exact ⟨h.flights, h.owed, h.lifted, h.timer, h.probe, h.began, h.seq, h.first⟩
    · cases hstep
      exact h.beginCheck true
  | queuedCheck =>
    simp only [RemoteIndexer.step] at hstep
    split at hstep
    · cases hstep
      have hqueued : Inv { s with queued := s.queued - 1 } :=
        ⟨h.flights, h.owed, h.lifted, h.timer, h.probe, h.began, h.seq, h.first⟩
      exact hqueued.beginCheck true
    · cases hstep
  | endCheck =>
    simp only [RemoteIndexer.step] at hstep
    split at hstep
    · cases hstep
      refine Inv.schedule h.flights h.owed (fun hlifted => ?_) h.probe
        (fun hsome => by cases hsome) h.seq fun _ hc => by cases hc
      rw [show s.lifted = false from hclear] at hlifted
      cases hlifted
    · cases hstep
  | noteLocalChange key =>
    cases hstep
    unfold Indexer.noteLocalChange
    split
    · exact Inv.schedule h.flights h.owed h.lifted h.probe h.began h.seq h.first
    · exact Inv.schedule h.flights h.owed h.lifted h.probe h.began h.seq h.first
  | listen =>
    cases hstep
    exact Inv.schedule h.flights h.owed h.lifted h.probe h.began h.seq h.first
  | unlisten =>
    simp only [RemoteIndexer.step] at hstep
    split at hstep
    · cases hstep
      exact Inv.schedule h.flights h.owed h.lifted h.probe h.began h.seq h.first
    · cases hstep

end Steps

def Quiet (s : Indexer) : Prop := s.calls = [] ∧ s.resumes = [] ∧ s.checking = none ∧ s.blocked = false

/-- The check of the timer runs the queries again, also where the indexer has not moved. -/
def timerReruns (s : Indexer) : Bool :=
  s.timer.isSome && (s.beginCheck false).checking.any fun c => reruns c false .ready

/-- Every run that is due will be made by the timer, and a watch has one run in flight at most. -/
structure Recovered (s : Indexer) : Prop where
  due : Quiet s → ∀ w ∈ s.watches, w.owed = true → timerReruns s = true
  once : ∀ id, s.calls.count (.watch id) ≤ 1

theorem Inv.recovered {s : Indexer} (h : Inv s) : Recovered s where
  due := by
    intro hquiet w hw howed
    obtain ⟨hcalls, hresumes, hchecking, hblocked⟩ := hquiet
    obtain hpos | hlifted | ⟨hrunning, -⟩ := h.owed w hw howed
    · have htimer := h.timer hchecking (List.ne_nil_of_mem hw)
      have hprobe : s.probe = false := by
        by_contra htrue
        have hor := h.probe (by simpa using htrue)
        have hnot : ¬ s.now < s.blockedUntil := of_decide_eq_false hblocked
        omega
      have hchecks : (s.beginCheck false).checking = some ⟨false, false, s.now, true, decide (s.st.state = .building),
          s.st.seq, none⟩ := by
        simp [Indexer.beginCheck, hprobe, hpos, hblocked]
      simp [timerReruns, htimer, hchecks, reruns]
    · have hsome := h.lifted hlifted
      rw [hchecking] at hsome
      cases hsome
    · have hcount := h.flights.running w hw
      rw [if_pos hrunning, hcalls, hresumes] at hcount
      cases hcount
  once id := by
    have hruns := h.flights.runs id
    unfold runCount at hruns
    omega

/-- Where no check ends with a block that was lifted while it ran, the watched queries recover. -/
theorem watches_recover (o : Options) (now : Nat) {s : Indexer} (h : Run (step o) Clear (start o now) s) :
    Recovered s :=
  (h.invariant Inv (Inv.start o now) fun _ _ _ hinv hclear hstep => hinv.step hclear hstep).recovered

section Runs

instance (s : Indexer) (e : Event) : Decidable (Clear s e) := by
  unfold Clear
  split <;> infer_instance

def answered : Answer := .ok (some .ready) ⟨.ready, some 3, none⟩
def unreachable : Answer := .error (some ⟨503, "unavailable".toList, none, none⟩)

def opening : List Event :=
  [.timer, .answer 0 answered, .resume 0, .endCheck, .watch, .answer 0 answered, .resume 0]

/-- A run fails; the timer then finds the indexer again. -/
def failure : List Event := opening ++ [.watch, .answer 0 unreachable, .resume 0, .clock 6000]

theorem watches_recover_failure : ∃ s, exec (step {}) Clear (start {} 1000) failure = some s ∧
    Quiet s ∧ (∃ w ∈ s.watches, w.owed = true) ∧ Recovered s :=
  ⟨_, rfl, ⟨rfl, rfl, rfl, by decide +kernel⟩, by decide +kernel, watches_recover {} 1000 (run_of_exec failure _ _ rfl)⟩

/-- A run fails while a check is under way, whose answer lifts the block. -/
def frozen : List Event :=
  opening ++ [.clock 31000, .timer, .watch, .answer 1 unreachable, .answer 0 answered, .resume 1, .endCheck, .resume 0]

theorem watch_frozen : ¬ ∀ (o : Options) (now : Nat) (s : Indexer),
    Run (step o) (fun _ _ => True) (start o now) s → Recovered s := by
  intro h
  have hrun : Run (step {}) (fun _ _ => True) (start {} 1000) _ := run_of_exec frozen _ _ rfl
  have hrecovered := h {} 1000 _ hrun
  have hdue := hrecovered.due ⟨rfl, rfl, rfl, by decide +kernel⟩ ⟨1, false, false, true⟩ (by decide +kernel) rfl
  revert hdue
  decide +kernel

end Runs
end Savoire.RemoteIndexer
