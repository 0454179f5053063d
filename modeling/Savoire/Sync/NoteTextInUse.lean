import Savoire.Sync.NoteTextEditor

/-! When a document is never closed under an edit that uses it: what is given back must be out of use. -/
namespace Savoire.NoteTextEditor
open Transition

section
variable {σ : Type}

/-- What holds besides as long as nothing in use is given back: an edit uses what is held of its document,
the users are its edits, and a timer is set only for what is unused. -/
structure Safe (w : State σ) : Prop where
  used (e : Nat) (d : Text) (h : Nat) : w.edits[e]? = some (.running d h) → w.held.get d = some h
  users (d : Text) (h : Nat) (o : Held σ) : w.held.get d = some h → w.opened[h]? = some o → o.users = w.usedBy h
  idle (d : Text) (h : Nat) : w.held.get d = some h → some h ∈ w.timers → w.usedBy h = 0
  latest (d : Text) (h : Nat) (o : Held σ) (t : Nat) : w.held.get d = some h → w.opened[h]? = some o →
    w.timers[t]? = some (some h) → o.timer = some t
  known (h : Nat) : some h ∈ w.timers → h < w.opened.length

variable {h : Nat}

theorem Cleared.of_points {h' t : Nat} {ts ts' : List (Option Nat)} (hc : Cleared h ts ts')
    (ht : ts'[t]? = some (some h')) : ts[t]? = some (some h') := by
  obtain hsame | ⟨-, hnone⟩ := hc t
  · exact hsame.symm.trans ht
  · rw [ht] at hnone
    cases hnone

theorem Cleared.of_mem {h' : Nat} {ts ts' : List (Option Nat)} (hc : Cleared h ts ts') (hmem : some h' ∈ ts') :
    some h' ∈ ts := by
  obtain ⟨t, ht⟩ := List.mem_iff_getElem?.1 hmem
  exact List.mem_of_getElem? (hc.of_points ht)

variable {w : State σ} {d : Text}

theorem Inv.held_inj (hinv : Inv w) {d' : Text} (hd : w.held.get d = some h)
    (hd' : w.held.get d' = some h) : d' = d := by
  obtain ⟨o, ho, hod, -⟩ := hinv.held d h hd
  obtain ⟨o', ho', hod', -⟩ := hinv.held d' h hd'
  rw [ho] at ho'
  obtain rfl := Option.some.inj ho'
  exact hod'.symm.trans hod

variable {e : Nat}

theorem usedBy_pos (he : w.edits[e]? = some (.running d h)) :
    0 < w.usedBy h :=
  List.countP_pos_iff.2 ⟨_, List.mem_of_getElem? he, by simp [Edit.uses]⟩

theorem running_of_usedBy (hpos : 0 < w.usedBy h) :
    ∃ (e : Nat) (d : Text), w.edits[e]? = some (.running d h) := by
  obtain ⟨stage, hmem, huses⟩ := List.countP_pos_iff.1 hpos
  obtain ⟨e, he⟩ := List.mem_iff_getElem?.1 hmem
  cases stage with
  | running d h' =>
    obtain rfl : h' = h := by simpa [Edit.uses] using huses
    exact ⟨e, d, he⟩
  | reading => cases huses
  | ended => cases huses

theorem Safe.drop (hsafe : Safe w) (hinv : Inv w) (hd : w.held.get d = some h)
    (hunused : w.usedBy h = 0) {held : KeyedMap Text Nat}
    (hheld : ∀ k, held.get k = if k = d then none else w.held.get k)
    {timers : List (Option Nat)} (hc : Cleared h w.timers timers) :
    Safe { w.closeDocument h with held := held, timers := timers } := by
  have hother : ∀ k h', held.get k = some h' → w.held.get k = some h' ∧ h ≠ h' := by
    intro k h' hk
    rw [hheld] at hk
    split at hk
    · cases hk
    · rename_i hkd
      refine ⟨hk, ?_⟩
      rintro rfl
      exact hkd (hinv.held_inj hd hk)
  have hsame : ∀ (h' : Nat) (o : Held σ), h ≠ h' → (w.closeDocument h).opened[h']? = some o →
      w.opened[h']? = some o := by
    intro h' o hne ho
    simpa [State.closeDocument, List.getElem?_modify, hne] using ho
  refine ⟨?_, ?_, ?_, ?_, ?_⟩
  · intro e d' h' he
    have hd' := hsafe.used e d' h' he
    show held.get d' = some h'
    rw [hheld, if_neg, hd']
    rintro rfl
    rw [hd] at hd'
    obtain rfl := Option.some.inj hd'
    exact absurd hunused (usedBy_pos he).ne'
  · intro k h' o hk ho
    obtain ⟨hold, hne⟩ := hother k h' hk
    exact hsafe.users k h' o hold (hsame h' o hne ho)
  · intro k h' hk hmem
    exact hsafe.idle k h' (hother k h' hk).1 (hc.of_mem hmem)
  · intro k h' o t hk ho ht
    obtain ⟨hold, hne⟩ := hother k h' hk
    exact hsafe.latest k h' o t hold (hsame h' o hne ho) (hc.of_points ht)
  · intro h' hmem
    simpa [State.closeDocument] using hsafe.known h' (hc.of_mem hmem)

theorem Safe.cleared (hsafe : Safe w) (hinv : Inv w)
    (hd : w.held.get d = some h) (t : Nat) : (w.clearTimeout (w.timerOf h)).timers[t]? ≠ some (some h) := by
  intro ht
  obtain ⟨o, ho, -⟩ := hinv.held d h hd
  have hold := (hinv.cleared h).of_points ht
  have htimer : w.timerOf h = some t := by simp [State.timerOf, ho, hsafe.latest d h o t hd ho hold]
  simp [State.clearTimeout, htimer, List.getElem?_set_self'] at ht

variable {session : σ}

theorem Safe.hold (hsafe : Safe w) (hinv : Inv w)
    (he : w.edits[e]? = some (.reading session d)) (hd : w.held.get d = some h) :
    Safe (State.putEdit { w.clearTimeout (w.timerOf h) with
      opened := w.opened.modify h fun o => { o with timer := none, users := o.users + 1 } } e (.running d h)) := by
  have hused : ∀ h', (w.edits.set e (.running d h)).countP (Edit.uses h') = w.usedBy h' + if h = h' then 1 else 0 :=
    usedBy_running he h
  have hc := hinv.cleared h
  have hnone := hsafe.cleared hinv hd
  have hne : ∀ h', some h' ∈ (w.clearTimeout (w.timerOf h)).timers → h ≠ h' := by
    rintro h' hmem rfl
    obtain ⟨t, ht⟩ := List.mem_iff_getElem?.1 hmem
    exact hnone t ht
  refine ⟨?_, ?_, ?_, ?_, ?_⟩
  · intro e' d' h' he'
    obtain hnew | hold := running_putEdit he'
    · obtain ⟨rfl, rfl⟩ := Edit.running.inj hnew
      exact hd
    · exact hsafe.used e' d' h' hold
  · intro d' h' o' hd' ho'
    show _ = (((w.edits.set e (.running d h)).countP (Edit.uses h') : Nat) : Int)
    simp only [State.putEdit, List.getElem?_modify] at ho'
    obtain ⟨o, ho, rfl⟩ := Option.map_eq_some_iff.1 ho'
    have husers := hsafe.users d' h' o hd' ho
    rw [hused]
    split <;> simp <;> omega
  · intro d' h' hd' hmem
    have hhh := hne h' hmem
    have hidle := hsafe.idle d' h' hd' (hc.of_mem hmem)
    have hnow := hused h'
    rw [if_neg hhh, hidle] at hnow
    exact hnow
  · intro d' h' o' t hd' ho' ht
    have hhh := hne h' (List.mem_of_getElem? ht)
    simp only [State.putEdit, List.getElem?_modify, if_neg hhh, id_map'] at ho'
    exact hsafe.latest d' h' o' t hd' ho' (hc.of_points ht)
  · intro h' hmem
    simpa [State.putEdit] using hsafe.known h' (hc.of_mem hmem)

theorem Safe.openDocument (hsafe : Safe w) (hinv : Inv w)
    (he : w.edits[e]? = some (.reading session d)) (hd : w.held.get d = none) :
    Safe (State.putEdit
      { w with opened := w.opened ++ [⟨session, d, 1, none, []⟩], held := w.held.set d w.opened.length }
      e (.running d w.opened.length)) := by
  have hget : ∀ k, (w.held.set d w.opened.length).get k = if k = d then some w.opened.length else w.held.get k :=
    fun k => KeyedMap.get_set
  have hused : ∀ h', (w.edits.set e (.running d w.opened.length)).countP (Edit.uses h') =
      w.usedBy h' + if w.opened.length = h' then 1 else 0 := usedBy_running he w.opened.length
  -- nothing points at the new opening yet
  have hunused : w.usedBy w.opened.length = 0 := by
    by_contra hpos
    obtain ⟨e', d', he'⟩ := running_of_usedBy (Nat.pos_of_ne_zero hpos)
    obtain ⟨o, ho, -⟩ := hinv.edits e' d' _ he'
    exact absurd (List.getElem?_eq_some_iff.1 ho).1 (lt_irrefl _)
  have hheld : ∀ d' h', w.held.get d' = some h' → h' < w.opened.length := by
    intro d' h' hd'
    obtain ⟨o, ho, -⟩ := hinv.held d' h' hd'
    exact (List.getElem?_eq_some_iff.1 ho).1
  refine ⟨?_, ?_, ?_, ?_, ?_⟩
  · intro e' d' h' he'
    show (w.held.set d w.opened.length).get d' = some h'
    rw [hget]
    obtain hnew | hold := running_putEdit he'
    · obtain ⟨rfl, rfl⟩ := Edit.running.inj hnew
      rw [if_pos rfl]
    · have hd' := hsafe.used e' d' h' hold
      rw [if_neg, hd']
      rintro rfl
      rw [hd] at hd'
      cases hd'
  · intro k h' o hk ho
    show _ = (((w.edits.set e (.running d w.opened.length)).countP (Edit.uses h') : Nat) : Int)
    rw [State.putEdit, hget] at hk
    rw [hused]
    split at hk
    · obtain rfl := Option.some.inj hk
      obtain hold | ⟨-, rfl⟩ := getElem?_concat_cases ho
      · exact absurd (List.getElem?_eq_some_iff.1 hold).1 (lt_irrefl _)
      · simp [hunused]
    · have hlt := hheld k h' hk
      obtain hold | ⟨rfl, -⟩ := getElem?_concat_cases ho
      · rw [if_neg (by omega)]
        exact hsafe.users k h' o hk hold
      · exact absurd hlt (lt_irrefl _)
  · intro k h' hk hmem
    have hlt := hsafe.known h' hmem
    rw [State.putEdit, hget] at hk
    split at hk
    · obtain rfl := Option.some.inj hk
      exact absurd hlt (lt_irrefl _)
    · have hidle := hsafe.idle k h' hk hmem
      have hnow := hused h'
      rw [if_neg (by omega), hidle] at hnow
      exact hnow
  · intro k h' o t hk ho ht
    have hlt := hsafe.known h' (List.mem_of_getElem? ht)
    rw [State.putEdit, hget] at hk
    split at hk
    · obtain rfl := Option.some.inj hk
      exact absurd hlt (lt_irrefl _)
    · obtain hold | ⟨rfl, -⟩ := getElem?_concat_cases ho
      · exact hsafe.latest k h' o t hk hold ht
      · exact absurd hlt (lt_irrefl _)
  · intro h' hmem
    have hlt := hsafe.known h' hmem
    simp only [State.putEdit, List.length_append, List.length_singleton]
    omega

theorem Safe.release (hsafe : Safe w) (hinv : Inv w)
    (he : w.edits[e]? = some (.running d h)) : Safe ((w.release d).putEdit e .ended) := by
  have hd := hsafe.used e d h he
  obtain ⟨o, ho, -⟩ := hinv.held d h hd
  have huse := usedBy_pos he
  have hcount := hsafe.users d h o hd ho
  -- it is in use, so no timer is set for it
  have hnone : some h ∉ w.timers := by
    intro hmem
    exact absurd (hsafe.idle d h hd hmem) huse.ne'
  have hused : ∀ h', (w.edits.set e .ended).countP (Edit.uses h') + (if h = h' then 1 else 0) = w.usedBy h' := by
    intro h'
    have hput := @usedBy_putEdit σ w e _ .ended he h'
    simpa [Edit.uses, State.usedBy, State.putEdit] using hput
  have hedits : ∀ (e' : Nat) d' h', (w.edits.set e .ended)[e']? = some (.running d' h') →
      w.held.get d' = some h' := fun e' d' h' he' => hsafe.used e' d' h' (ended_running he')
  have hidle : ∀ d' h', w.held.get d' = some h' → some h' ∈ w.timers →
      (w.edits.set e .ended).countP (Edit.uses h') = 0 := by
    intro d' h' hd' hmem
    have hold := hsafe.idle d' h' hd' hmem
    have hnow := hused h'
    omega
  have husers : ∀ d' h' o', w.held.get d' = some h' → w.opened[h']? = some o' →
      (if h = h' then o.users - 1 else o'.users) = ((w.edits.set e .ended).countP (Edit.uses h') : Nat) := by
    intro d' h' o' hd' ho'
    have hold := hsafe.users d' h' o' hd' ho'
    have hnow := hused h'
    split at hnow
    · rename_i hhh
      subst hhh
      omega
    · rename_i hhh
      omega
  unfold State.release
  simp only [hd, ho, Option.map_some, Option.getD_some]
  split
  · refine ⟨hedits, ?_, hidle, ?_, ?_⟩
    · intro d' h' o' hd' ho'
      simp only [State.putEdit, List.getElem?_modify] at ho'
      obtain ⟨o'', ho'', rfl⟩ := Option.map_eq_some_iff.1 ho'
      rw [apply_ite Held.users]
      exact husers d' h' o'' hd' ho''
    · intro d' h' o' t hd' ho' ht
      have hhh : h ≠ h' := by
        rintro rfl
        exact hnone (List.mem_of_getElem? ht)
      simp only [State.putEdit, List.getElem?_modify, if_neg hhh, id_map'] at ho'
      exact hsafe.latest d' h' o' t hd' ho' ht
    · intro h' hmem
      simpa [State.putEdit] using hsafe.known h' hmem
  · refine ⟨hedits, ?_, ?_, ?_, ?_⟩
    · intro d' h' o' hd' ho'
      simp only [State.putEdit, List.getElem?_modify] at ho'
      obtain ⟨o'', ho'', rfl⟩ := Option.map_eq_some_iff.1 ho'
      rw [apply_ite Held.users]
      exact husers d' h' o'' hd' ho''
    · intro d' h' hd' hmem
      obtain hold | hnew := List.mem_append.1 hmem
      · exact hidle d' h' hd' hold
      · obtain rfl : h' = h := by simpa using hnew
        show (w.edits.set e .ended).countP (Edit.uses h') = 0
        have hnow := hused h'
        rw [if_pos rfl] at hnow
        omega
    · intro d' h' o' t hd' ho' ht
      simp only [State.putEdit, List.getElem?_modify] at ho'
      obtain ⟨o'', ho'', rfl⟩ := Option.map_eq_some_iff.1 ho'
      obtain hold | ⟨rfl, hnew⟩ := getElem?_concat_cases ht
      · have hhh : h ≠ h' := by
          rintro rfl
          exact hnone (List.mem_of_getElem? hold)
        simp only [if_neg hhh]
        exact hsafe.latest d' h' o'' t hd' ho'' hold
      · obtain rfl := Option.some.inj hnew
        simp
    · intro h' hmem
      have hlt : h' < w.opened.length := by
        obtain hold | hnew := List.mem_append.1 hmem
        · exact hsafe.known h' hold
        · obtain rfl : h' = h := by simpa using hnew
          exact (List.getElem?_eq_some_iff.1 ho).1
      simpa [State.putEdit] using hlt

theorem Safe.fires (hsafe : Safe w) (hinv : Inv w) {t : Nat} (ht : w.timers[t]? = some (some h)) :
    Safe (State.expire { w with timers := w.timers.set t none } h) := by
  have hc : Cleared h w.timers (w.timers.set t none) := Cleared.set (.inl ht)
  have hstay : Safe { w with timers := w.timers.set t none } :=
    { hsafe with
      idle := fun d h' hd hmem => hsafe.idle d h' hd (hc.of_mem hmem)
      latest := fun d h' o t' hd ho ht' => hsafe.latest d h' o t' hd ho (hc.of_points ht')
      known := fun h' hmem => hsafe.known h' (hc.of_mem hmem) }
  unfold State.expire
  split
  · split
    · rename_i hd
      have hunused := hsafe.idle _ h hd (List.mem_of_getElem? ht)
      exact hsafe.drop hinv hd hunused (fun k => KeyedMap.get_delete) hc
    · exact hstay
  · exact hstay

theorem Safe.dispose (hsafe : Safe w) (hinv : Inv w)
    (hunused : ∀ d h, w.held.get d = some h → w.usedBy h = 0) : Safe w.dispose := by
  obtain ⟨session, opened, ⟨entries, hnodup⟩, edits, timers⟩ := w
  suffices hall : ∀ (l : List (Text × Nat)) (hl : (l.map Prod.fst).Nodup) (w : State σ),
      Inv { w with held := ⟨l, hl⟩ } → Safe { w with held := ⟨l, hl⟩ } → (∀ e ∈ l, w.usedBy e.2 = 0) →
      Safe { l.foldl (fun w e => w.giveBack e.2) w with held := .empty } from
    hall entries hnodup _ hinv hsafe fun e he => hunused e.1 e.2 (KeyedMap.mem_iff.mp he)
  intro l
  induction l with
  | nil => exact fun hl w _ hsafe _ => hsafe
  | cons e l ih =>
    intro hl w hw hsafe hunused
    obtain ⟨d, h⟩ := e
    obtain ⟨hnew, hrest⟩ := List.nodup_cons.mp hl
    have hget : (⟨(d, h) :: l, hl⟩ : KeyedMap Text Nat).get d = some h := KeyedMap.mem_iff.mp List.mem_cons_self
    have hdrop := hw.drop hget (fun k => KeyedMap.get_tail hl) (hw.cleared h)
    have hsafe' := hsafe.drop hw hget (hunused _ List.mem_cons_self) (fun k => KeyedMap.get_tail hl) (hw.cleared h)
    exact ih hrest (w.giveBack h) hdrop hsafe' fun e he => hunused e (List.mem_cons_of_mem _ he)

theorem Safe.same (hsafe : Safe w) {edits : List (Edit σ)}
    (hedits : ∀ (e : Nat) d h, edits[e]? = some (.running d h) → ∃ e' : Nat, w.edits[e']? = some (.running d h))
    (hused : ∀ h, edits.countP (Edit.uses h) = w.usedBy h) (session : Option σ) :
    Safe { w with edits := edits, session := session } := by
  refine ⟨?_, ?_, ?_, hsafe.latest, hsafe.known⟩
  · intro e d h he
    obtain ⟨e', he'⟩ := hedits e d h he
    exact hsafe.used e' d h he'
  · intro d h o hd ho
    exact (hsafe.users d h o hd ho).trans (congrArg Nat.cast (hused h).symm)
  · intro d h hd hmem
    exact (hused h).trans (hsafe.idle d h hd hmem)

theorem safe_start : Safe (start : State σ) := by
  constructor <;> simp [start]

theorem Safe.held_correctly (hsafe : Safe w) (hinv : Inv w) : HeldCorrectly w := by
  obtain ⟨honce, hquiet⟩ := hinv.closed_once
  refine ⟨honce, ?_, hquiet⟩
  intro h o ho hpos
  obtain ⟨e, d, he⟩ := running_of_usedBy hpos
  obtain ⟨o', ho', -, hopen⟩ := hinv.held d h (hsafe.used e d h he)
  rw [ho] at ho'
  obtain rfl := Option.some.inj ho'
  exact hopen

variable [DecidableEq σ]

theorem Safe.acquire (hsafe : Safe w) (hinv : Inv w) (opens : Bool)
    (he : w.edits[e]? = some (.reading session d)) (hunused : ∀ h, w.held? session d = some h → w.usedBy h = 0) :
    match w.acquire session d opens with
    | (w', some h) => Safe (w'.putEdit e (.running d h))
    | (w', none) => Safe (w'.putEdit e .ended) := by
  have hinv' := hinv.evict session d
  have hsafe' : Safe (w.evict session d) := by
    unfold State.evict
    split
    · rename_i h hheld
      obtain ⟨hd, -⟩ := Option.filter_eq_some_iff.1 hheld
      exact hsafe.drop hinv hd (hunused h hheld) (fun k => KeyedMap.get_delete) (hinv.cleared h)
    · exact hsafe
  have he' : (w.evict session d).edits[e]? = some (.reading session d) := (edits_evict w session d).symm ▸ he
  unfold State.acquire State.take
  cases hd : (w.evict session d).held.get d with
  | some h => exact hsafe'.hold hinv' he' hd
  | none =>
    cases opens with
    | true => exact hsafe'.openDocument hinv' he' hd
    | false => exact hsafe'.same (fun e' _ _ hr => ⟨e', ended_running hr⟩) (ended_usedBy he') _

theorem step_safe {w' : State σ} (hinv : Inv w) (hsafe : Safe w) (event : Event σ) (hunused : Unused w event)
    (hstep : step w event = some w') : Safe w' := by
  cases event with
  | switch session =>
    obtain rfl := Option.some.inj hstep
    exact hsafe.same (fun e d h he => ⟨e, he⟩) (fun _ => rfl) session
  | edit d =>
    simp only [step] at hstep
    split at hstep
    · obtain rfl := Option.some.inj hstep
      exact hsafe
    · obtain rfl := Option.some.inj hstep
      exact hsafe.same (fun e _ _ he => ⟨e, called_running he⟩) (fun h => called_usedBy w _ d h) w.session
  | read e opens =>
    simp only [step] at hstep
    split at hstep
    · rename_i session d he
      have hacquire := hsafe.acquire hinv opens he fun h hheld => hunused h (by simp [givenBack, he, hheld])
      split at hstep
      · rename_i htook
        rw [htook] at hacquire
        obtain rfl := Option.some.inj hstep
        exact hacquire
      · rename_i htook
        rw [htook] at hacquire
        obtain rfl := Option.some.inj hstep
        exact hacquire
    · cases hstep
  | readFails e =>
    simp only [step] at hstep
    split at hstep
    · rename_i he
      obtain rfl := Option.some.inj hstep
      exact hsafe.same (fun e' _ _ hr => ⟨e', ended_running hr⟩) (ended_usedBy he) w.session
    · cases hstep
  | ends e =>
    simp only [step] at hstep
    split at hstep
    · rename_i he
      obtain rfl := Option.some.inj hstep
      exact hsafe.release hinv he
    · cases hstep
  | fires t =>
    simp only [step] at hstep
    split at hstep
    · rename_i ht
      obtain rfl := Option.some.inj hstep
      exact hsafe.fires hinv ht
    · cases hstep
  | dispose =>
    obtain rfl := Option.some.inj hstep
    exact hsafe.dispose hinv fun d h hd => hunused h (List.mem_map.2 ⟨(d, h), KeyedMap.mem_iff.mpr hd, rfl⟩)

theorem acquire_of_held? (hinv : Inv w) (opens : Bool)
    (hheld : w.held? session d = some h) (d' : Text) : (w.acquire session d opens).1.held.get d' ≠ some h := by
  obtain ⟨hd, -⟩ := Option.filter_eq_some_iff.1 hheld
  obtain ⟨o, ho, -⟩ := hinv.held d h hd
  obtain ⟨hlt, -⟩ := List.getElem?_eq_some_iff.1 ho
  have hold : (w.held.delete d).get d' ≠ some h := by
    intro hd'
    rw [KeyedMap.get_delete] at hd'
    split at hd'
    · cases hd'
    · rename_i hne
      exact hne (hinv.held_inj hd hd')
  have hlen : (w.giveBack h).opened.length = w.opened.length := by
    simp [State.giveBack, State.closeDocument, State.clearTimeout]
  have hgone : (w.held.delete d).get d = none := by simp [KeyedMap.get_delete]
  simp only [State.acquire, State.evict, hheld, State.take, hgone, hlen]
  cases opens with
  | true =>
    simp only [if_true, KeyedMap.get_set]
    split
    · intro heq
      exact absurd (Option.some.inj heq) hlt.ne'
    · exact hold
  | false => exact hold

theorem edits_acquire (w : State σ) (session : σ) (d : Text) (opens : Bool) :
    (w.acquire session d opens).1.edits = w.edits := by
  rw [State.acquire, ← edits_evict w session d, State.take]
  split
  · rfl
  · split <;> rfl

theorem step_givenBack {w' : State σ} (hinv : Inv w) {event : Event σ}
    (hback : h ∈ givenBack w event) (hstep : step w event = some w') : (∀ d, w'.held.get d ≠ some h) ∧
    ∀ (e : Nat) d h', w.edits[e]? = some (.running d h') → w'.edits[e]? = some (.running d h') := by
  cases event with
  | read e opens =>
    simp only [givenBack] at hback
    simp only [step] at hstep
    cases hedit : w.edits[e]? with
    | none => simp [hedit] at hback
    | some stage =>
      cases stage with
      | reading session d =>
        simp only [hedit, Option.mem_toList] at hback hstep
        have hget := acquire_of_held? hinv opens hback
        have hedits := edits_acquire w session d opens
        have hother : ∀ (stage : Edit σ) (e' : Nat) d' h', w.edits[e']? = some (.running d' h') →
            (w.edits.set e stage)[e']? = some (.running d' h') := by
          intro stage e' d' h' he'
          rw [List.getElem?_set_ne, he']
          rintro rfl
          rw [hedit] at he'
          cases he'
        split at hstep
        · rename_i w₁ h₁ htook
          rw [htook] at hget hedits
          obtain rfl := Option.some.inj hstep
          have hsame : w₁.edits = w.edits := hedits
          exact ⟨hget, by simpa only [State.putEdit, hsame] using hother _⟩
        · rename_i w₁ htook
          rw [htook] at hget hedits
          obtain rfl := Option.some.inj hstep
          have hsame : w₁.edits = w.edits := hedits
          exact ⟨hget, by simpa only [State.putEdit, hsame] using hother _⟩
      | running => simp [hedit] at hback
      | ended => simp [hedit] at hback
  | dispose =>
    obtain rfl := Option.some.inj hstep
    have hedits : ∀ (l : List (Text × Nat)) (w : State σ), (l.foldl (fun w e => w.giveBack e.2) w).edits = w.edits := by
      intro l
      induction l with
      | nil => exact fun w => rfl
      | cons e l ih => exact fun w => ih _
    refine ⟨by simp [State.dispose], ?_⟩
    intro e d h' he
    rw [State.dispose, hedits]
    exact he
  | switch | edit | readFails | ends | fires => simp [givenBack] at hback

/-- A step is correct exactly when what it gives back is not in use. -/
theorem held_correctly_iff_unused {w : State σ} (hrun : Run step Unused start w) : HeldCorrectly w ∧
    ∀ event w', step w event = some w' → (HeldCorrectly w' ↔ Unused w event) := by
  obtain ⟨hinv, hsafe⟩ : Inv w ∧ Safe w :=
    hrun.invariant (fun w => Inv w ∧ Safe w) ⟨inv_start, safe_start⟩ fun _ event _ h hunused hstep =>
      ⟨step_inv h.1 event hstep, step_safe h.1 h.2 event hunused hstep⟩
  refine ⟨hsafe.held_correctly hinv, ?_⟩
  intro event w' hstep
  have hinv' := step_inv hinv event hstep
  constructor
  · intro hcorrect h hback
    by_contra hpos
    obtain ⟨hgone, hkept⟩ := step_givenBack hinv hback hstep
    -- the edit that runs on it runs on, its opening closed
    obtain ⟨e, d, he⟩ := running_of_usedBy (Nat.pos_of_ne_zero hpos)
    have he' := hkept e d h he
    obtain ⟨o, ho, -⟩ := hinv'.edits e d h he'
    have hopen := hcorrect.used h o ho (usedBy_pos he')
    obtain hheld | honce := hinv'.opened h o ho
    · exact hgone _ hheld
    · rw [hopen] at honce
      cases honce
  · intro hunused
    exact (step_safe hinv hsafe event hunused hstep).held_correctly hinv'

end

/-- Two edits of a note share its opening; the timer closes it when both are over. -/
theorem held_correctly_shared : ∃ w : State Nat,
    exec step Unused start [.switch (some 1), .edit ['n'], .edit ['n'], .read 0 true, .read 1 true, .ends 0, .ends 1,
      .fires 0] = some w ∧
    HeldCorrectly w ∧ ∀ event w', step w event = some w' → (HeldCorrectly w' ↔ Unused w event) :=
  ⟨_, rfl, held_correctly_iff_unused (run_of_exec [.switch (some 1), .edit ['n'], .edit ['n'], .read 0 true,
    .read 1 true, .ends 0, .ends 1, .fires 0] _ _ rfl)⟩

/-- The read of an edit ends after the session changed: it closes what the new session has opened and an
edit uses. -/
theorem closed_in_use : ¬ ∀ w : State Nat, Run step (fun _ _ => True) start w → HeldCorrectly w := by
  intro h
  have hrun : Run step (fun _ _ => True) start _ := run_of_exec [.switch (some 1), .edit ['n'],
    .switch (some 2), .edit ['n'], .read 1 true, .read 0 true] _ _ rfl
  have hopen := (h _ hrun).used 0 _ rfl (by decide)
  revert hopen
  decide

end Savoire.NoteTextEditor
