import Savoire.Library.KeyedMap
import Savoire.Library.Transition
import Savoire.Text

/-! Writing in the text of a note outside its editor: the documents that `NoteTextEditor` holds open,
its edits at their awaits, and the timers that close what nobody uses any more. -/
namespace Savoire.NoteTextEditor
open Transition

/-- One opening of a document on a session. `closedOn` are the sessions on which it was closed. -/
structure Held (σ : Type) where
  session : σ
  docId : Text
  users : Int
  timer : Option Nat
  closedOn : List σ

/-- A call of `edit`: it waits for `readDocument`, or it uses an opening until its `finally`. -/
inductive Edit (σ : Type)
  | reading (session : σ) (docId : Text)
  | running (docId : Text) (h : Nat)
  | ended

/-- The edit runs on an opening. -/
def Edit.uses {σ : Type} (h : Nat) : Edit σ → Bool
  | .running _ h' => h' == h
  | _ => false

/-- `opened` are all the openings so far: an opening is its place there. `timers` are all the timers
set so far, with the opening each is for; none once it has fired or is cleared. -/
structure State (σ : Type) where
  session : Option σ
  opened : List (Held σ)
  held : KeyedMap Text Nat
  edits : List (Edit σ)
  timers : List (Option Nat)

inductive Event (σ : Type)
  | switch (session : Option σ)
  | edit (docId : Text)
  /-- `openDocument` may throw. -/
  | read (edit : Nat) (opens : Bool)
  | readFails (edit : Nat)
  | ends (edit : Nat)
  | fires (timer : Nat)
  | dispose

def start {σ : Type} : State σ := ⟨none, [], .empty, [], []⟩

namespace State
variable {σ : Type} [DecidableEq σ] (w : State σ)

def clearTimeout (timer : Option Nat) : State σ :=
  { w with timers := match timer with
      | none => w.timers
      | some t => w.timers.set t none }

/-- `h.session.closeDocument(docId)` -/
def closeDocument (h : Nat) : State σ :=
  { w with opened := w.opened.modify h fun o => { o with closedOn := o.closedOn ++ [o.session] } }

def timerOf (h : Nat) : Option Nat := w.opened[h]?.bind Held.timer

def giveBack (h : Nat) : State σ := (w.clearTimeout (w.timerOf h)).closeDocument h

def held? (session : σ) (docId : Text) : Option Nat :=
  (w.held.get docId).filter fun h => w.opened[h]?.any fun o => o.session ≠ session

/-- The opening of another session given back: the first half of `acquire`. -/
def evict (session : σ) (docId : Text) : State σ := match w.held? session docId with
  | some h => { w.giveBack h with held := w.held.delete docId }
  | none => w

/-- The second half of `acquire`, with the opening it returns; none: `openDocument` threw. -/
def take (session : σ) (docId : Text) (opens : Bool) : State σ × Option Nat := match w.held.get docId with
  | some h =>
    ({ w.clearTimeout (w.timerOf h) with
        opened := w.opened.modify h fun o => { o with timer := none, users := o.users + 1 } }, some h)
  | none => if opens then
      ({ w with
          opened := w.opened ++ [⟨session, docId, 1, none, []⟩], held := w.held.set docId w.opened.length },
        some w.opened.length)
    else (w, none)

def acquire (session : σ) (docId : Text) (opens : Bool) : State σ × Option Nat :=
  (w.evict session docId).take session docId opens

def release (docId : Text) : State σ := match w.held.get docId with
  | none => w
  | some h =>
    let users := ((w.opened[h]?.map Held.users).getD 0) - 1
    if 0 < users then { w with opened := w.opened.modify h fun o => { o with users := users } }
    else
      { w with
        opened := w.opened.modify h fun o => { o with users := users, timer := some w.timers.length }
        timers := w.timers ++ [some h] }

/-- What a timer of `release` does: its opening is closed if it is still the one held. -/
def expire (h : Nat) : State σ := match w.opened[h]? with
  | some o => if w.held.get o.docId = some h then
      { w.closeDocument h with held := w.held.delete o.docId }
    else w
  | none => w

def dispose : State σ :=
  { w.held.entries.foldl (fun w e => w.giveBack e.2) w with held := .empty }

def putEdit (e : Nat) (stage : Edit σ) : State σ := { w with edits := w.edits.set e stage }

/-- How many running edits use an opening. -/
def usedBy (h : Nat) : Nat := w.edits.countP (Edit.uses h)

end State

section
variable {σ : Type} [DecidableEq σ]

def step (w : State σ) : Event σ → Option (State σ)
  | .switch session => some { w with session := session }
  | .edit docId => match w.session with
    | none => some w
    | some session => some { w with edits := w.edits ++ [.reading session docId] }
  | .read e opens => match w.edits[e]? with
    | some (.reading session docId) => match w.acquire session docId opens with
      | (w', some h) => some (w'.putEdit e (.running docId h))
      | (w', none) => some (w'.putEdit e .ended)
    | _ => none
  | .readFails e => match w.edits[e]? with
    | some (.reading _ _) => some (w.putEdit e .ended)
    | _ => none
  | .ends e => match w.edits[e]? with
    | some (.running docId _) => some ((w.release docId).putEdit e .ended)
    | _ => none
  | .fires t => match w.timers[t]? with
    | some (some h) => some ({ w with timers := w.timers.set t none }.expire h)
    | _ => none
  | .dispose => some w.dispose

/-- The openings that an event gives back whatever their users. -/
def givenBack (w : State σ) : Event σ → List Nat
  | .read e _ => match w.edits[e]? with
    | some (.reading session docId) => (w.held? session docId).toList
    | _ => []
  | .dispose => w.held.entries.map Prod.snd
  | _ => []

/-- No running edit uses what the event gives back. -/
def Unused (w : State σ) (event : Event σ) : Prop := ∀ h ∈ givenBack w event, w.usedBy h = 0

instance (w : State σ) (event : Event σ) : Decidable (Unused w event) :=
  inferInstanceAs (Decidable (∀ h ∈ givenBack w event, w.usedBy h = 0))

/-- Every opening is closed at most once and on its own session, not while an edit uses it, and it is
closed when no edit runs and no timer is set. -/
structure HeldCorrectly (w : State σ) : Prop where
  once : ∀ o ∈ w.opened, o.closedOn = [] ∨ o.closedOn = [o.session]
  used : ∀ h o, w.opened[h]? = some o → 0 < w.usedBy h → o.closedOn = []
  quiet : (∀ h, w.usedBy h = 0) → (∀ h, some h ∉ w.timers) → ∀ o ∈ w.opened, o.closedOn = [o.session]

end

section
variable {σ : Type}

structure Inv (w : State σ) : Prop where
  held (d : Text) (h : Nat) : w.held.get d = some h → ∃ o, w.opened[h]? = some o ∧ o.docId = d ∧ o.closedOn = []
  opened (h : Nat) (o : Held σ) : w.opened[h]? = some o →
    w.held.get o.docId = some h ∨ o.closedOn = [o.session]
  edits (e : Nat) (d : Text) (h : Nat) : w.edits[e]? = some (.running d h) →
    ∃ o, w.opened[h]? = some o ∧ o.docId = d
  users (d : Text) (h : Nat) (o : Held σ) : w.held.get d = some h → w.opened[h]? = some o → o.users ≤ w.usedBy h
  armed (d : Text) (h : Nat) : w.held.get d = some h → w.usedBy h = 0 → some h ∈ w.timers
  own (h : Nat) (o : Held σ) (t : Nat) : w.opened[h]? = some o → o.timer = some t →
    w.timers[t]? = some (some h) ∨ w.timers[t]? = some none

def Cleared (h : Nat) (ts ts' : List (Option Nat)) : Prop :=
  ∀ t : Nat, ts'[t]? = ts[t]? ∨ (ts[t]? = some (some h) ∧ ts'[t]? = some none)

theorem Cleared.mem {h h' : Nat} {ts ts' : List (Option Nat)} (hc : Cleared h ts ts') (hne : h' ≠ h)
    (hmem : some h' ∈ ts) : some h' ∈ ts' := by
  obtain ⟨t, ht⟩ := List.mem_iff_getElem?.1 hmem
  obtain hsame | ⟨hold, -⟩ := hc t
  · exact List.mem_iff_getElem?.2 ⟨t, hsame.trans ht⟩
  · rw [ht] at hold
    simp [hne] at hold

theorem Cleared.points {h h' t : Nat} {ts ts' : List (Option Nat)} (hc : Cleared h ts ts')
    (ht : ts[t]? = some (some h') ∨ ts[t]? = some none) : ts'[t]? = some (some h') ∨ ts'[t]? = some none := by
  obtain hsame | ⟨-, hnone⟩ := hc t
  · rwa [hsame]
  · exact .inr hnone

theorem Cleared.set {h t : Nat} {ts : List (Option Nat)} (ht : ts[t]? = some (some h) ∨ ts[t]? = some none) :
    Cleared h ts (ts.set t none) := by
  intro t'
  by_cases htt : t = t'
  · subst htt
    have hlt : t < ts.length := by
      obtain hsome | hnone := ht
      · exact (List.getElem?_eq_some_iff.1 hsome).1
      · exact (List.getElem?_eq_some_iff.1 hnone).1
    rw [List.getElem?_set_self hlt]
    obtain hsome | hnone := ht
    · exact .inr ⟨hsome, rfl⟩
    · exact .inl hnone.symm
  · exact .inl (List.getElem?_set_ne htt)

variable {w : State σ}

theorem Inv.cleared (hinv : Inv w) (h : Nat) :
    Cleared h w.timers (w.clearTimeout (w.timerOf h)).timers := by
  cases htimer : w.timerOf h with
  | none => exact fun t => .inl rfl
  | some t =>
    obtain ⟨o, ho, hot⟩ := Option.bind_eq_some_iff.1 htimer
    exact Cleared.set (hinv.own h o t ho hot)

variable {e : Nat}

theorem usedBy_putEdit {old new : Edit σ} (he : w.edits[e]? = some old) (h : Nat) :
    (w.putEdit e new).usedBy h + (if old.uses h then 1 else 0) = w.usedBy h + if new.uses h then 1 else 0 := by
  obtain ⟨hlt, hget⟩ := List.getElem?_eq_some_iff.1 he
  have hpos : old.uses h = true → 0 < w.edits.countP (Edit.uses h) := by
    intro hold
    exact List.countP_pos_iff.2 ⟨old, List.mem_of_getElem? he, hold⟩
  simp only [State.usedBy, State.putEdit, List.countP_set hlt, hget]
  split
  · rename_i hold
    have := hpos hold
    omega
  · omega

variable {session : σ} {d : Text}

theorem usedBy_running
    (he : w.edits[e]? = some (.reading session d)) (h h' : Nat) :
    (w.putEdit e (.running d h)).usedBy h' = w.usedBy h' + if h = h' then 1 else 0 := by
  simpa [Edit.uses] using @usedBy_putEdit σ w e _ (.running d h) he h'

variable {h : Nat}

/-- Closing what is held of a document and letting go of it. -/
theorem Inv.drop (hinv : Inv w) (hd : w.held.get d = some h)
    {held : KeyedMap Text Nat} (hheld : ∀ k, held.get k = if k = d then none else w.held.get k)
    {timers : List (Option Nat)} (hc : Cleared h w.timers timers) :
    Inv { w.closeDocument h with held := held, timers := timers } := by
  obtain ⟨o, ho, hod, hopen⟩ := hinv.held d h hd
  -- what is still held is of another document, so it is another opening
  have hother : ∀ k h', held.get k = some h' → w.held.get k = some h' ∧ h' ≠ h := by
    intro k h' hk
    rw [hheld] at hk
    split at hk
    · cases hk
    · rename_i hkd
      refine ⟨hk, ?_⟩
      rintro rfl
      obtain ⟨o', ho', hod', -⟩ := hinv.held k h' hk
      rw [ho] at ho'
      obtain rfl := Option.some.inj ho'
      exact hkd (hod'.symm.trans hod)
  have hsame : ∀ h' o', (w.closeDocument h).opened[h']? = some o' → ∃ o'', w.opened[h']? = some o'' ∧
      o'.docId = o''.docId ∧ o'.session = o''.session ∧ o'.timer = o''.timer ∧ o'.users = o''.users ∧
      o'.closedOn = if h = h' then o''.closedOn ++ [o''.session] else o''.closedOn := by
    intro h' o' ho'
    simp only [State.closeDocument, List.getElem?_modify] at ho'
    obtain ⟨o'', ho'', rfl⟩ := Option.map_eq_some_iff.1 ho'
    refine ⟨o'', ho'', ?_⟩
    split <;> simp
  refine ⟨?_, ?_, ?_, ?_, ?_, ?_⟩
  · intro k h' hk
    obtain ⟨hold, hne⟩ := hother k h' hk
    obtain ⟨o', ho', hod', hopen'⟩ := hinv.held k h' hold
    refine ⟨o', ?_, hod', hopen'⟩
    simp [State.closeDocument, ho', Ne.symm hne]
  · intro h' o' ho'
    obtain ⟨o'', ho'', hdoc, hsession, -, -, hclosed⟩ := hsame h' o' ho'
    by_cases hhh : h = h'
    · subst hhh
      rw [ho] at ho''
      obtain rfl := Option.some.inj ho''
      simp [hclosed, hopen, hsession]
    · rw [if_neg hhh] at hclosed
      rw [hdoc, hclosed, hsession]
      obtain hheld' | honce := hinv.opened h' o'' ho''
      · left
        show held.get o''.docId = some h'
        rw [hheld, if_neg, hheld']
        rintro rfl
        rw [hd] at hheld'
        exact hhh (Option.some.inj hheld')
      · exact .inr honce
  · intro e k h' he
    obtain ⟨o', ho', hod'⟩ := hinv.edits e k h' he
    refine ⟨_, by simp [State.closeDocument, List.getElem?_modify, ho']; rfl, ?_⟩
    split <;> exact hod'
  · intro k h' o' hk ho'
    obtain ⟨hold, hne⟩ := hother k h' hk
    obtain ⟨o'', ho'', -, -, -, husers, -⟩ := hsame h' o' ho'
    rw [husers]
    exact hinv.users k h' o'' hold ho''
  · intro k h' hk hunused
    obtain ⟨hold, hne⟩ := hother k h' hk
    exact hc.mem hne (hinv.armed k h' hold hunused)
  · intro h' o' t ho' htimer
    obtain ⟨o'', ho'', -, -, htimer', -, -⟩ := hsame h' o' ho'
    exact hc.points (hinv.own h' o'' t ho'' (htimer'.symm.trans htimer))

theorem Inv.reuse (hinv : Inv w) {f : Held σ → Held σ}
    (hf : ∀ o, (f o).docId = o.docId ∧ (f o).session = o.session ∧ (f o).closedOn = o.closedOn)
    {edits : List (Edit σ)} {timers : List (Option Nat)}
    (hedits : ∀ (e : Nat) d h', edits[e]? = some (.running d h') → ∃ o, w.opened[h']? = some o ∧ o.docId = d)
    (husers : ∀ d h' o, w.held.get d = some h' → w.opened[h']? = some o →
      (if h = h' then f o else o).users ≤ edits.countP (Edit.uses h'))
    (harmed : ∀ d h', w.held.get d = some h' → edits.countP (Edit.uses h') = 0 → some h' ∈ timers)
    (hown : ∀ h' o t, w.opened[h']? = some o → (if h = h' then f o else o).timer = some t →
      timers[t]? = some (some h') ∨ timers[t]? = some none) :
    Inv { w with opened := w.opened.modify h f, edits := edits, timers := timers } := by
  have hold : ∀ h' o', (w.opened.modify h f)[h']? = some o' → ∃ o, w.opened[h']? = some o ∧
      o' = (if h = h' then f o else o) ∧ o'.docId = o.docId ∧ o'.session = o.session ∧
      o'.closedOn = o.closedOn := by
    intro h' o' ho'
    rw [List.getElem?_modify] at ho'
    obtain ⟨o, ho, rfl⟩ := Option.map_eq_some_iff.1 ho'
    refine ⟨o, ho, rfl, ?_⟩
    split
    · exact hf o
    · exact ⟨rfl, rfl, rfl⟩
  have hnew : ∀ (h' : Nat) (o : Held σ), w.opened[h']? = some o → ∃ o' : Held σ, (w.opened.modify h f)[h']? = some o' ∧
      o'.docId = o.docId ∧ o'.closedOn = o.closedOn := by
    intro h' o ho
    refine ⟨if h = h' then f o else o, by rw [List.getElem?_modify, ho]; rfl, ?_⟩
    split
    · exact ⟨(hf o).1, (hf o).2.2⟩
    · exact ⟨rfl, rfl⟩
  refine ⟨?_, ?_, ?_, ?_, harmed, ?_⟩
  · intro d h' hd
    obtain ⟨o, ho, hod, hopen⟩ := hinv.held d h' hd
    obtain ⟨o', ho', hdoc, hclosed⟩ := hnew h' o ho
    exact ⟨o', ho', hdoc.trans hod, hclosed.trans hopen⟩
  · intro h' o' ho'
    obtain ⟨o, ho, -, hdoc, hsession, hclosed⟩ := hold h' o' ho'
    rw [hdoc, hsession, hclosed]
    exact hinv.opened h' o ho
  · intro e d h' he
    obtain ⟨o, ho, hod⟩ := hedits e d h' he
    obtain ⟨o', ho', hdoc, -⟩ := hnew h' o ho
    exact ⟨o', ho', hdoc.trans hod⟩
  · intro d h' o' hd ho'
    obtain ⟨o, ho, rfl, -⟩ := hold h' o' ho'
    exact husers d h' o hd ho
  · intro h' o' t ho' ht
    obtain ⟨o, ho, rfl, -⟩ := hold h' o' ho'
    exact hown h' o t ho ht

theorem Inv.same (hinv : Inv w) {edits : List (Edit σ)}
    (hedits : ∀ (e : Nat) d h, edits[e]? = some (.running d h) → ∃ e' : Nat, w.edits[e']? = some (.running d h))
    (hused : ∀ d h, w.held.get d = some h → edits.countP (Edit.uses h) = w.usedBy h) (session : Option σ) :
    Inv { w with edits := edits, session := session } := by
  refine ⟨hinv.held, hinv.opened, ?_, ?_, ?_, hinv.own⟩
  · intro e d h he
    obtain ⟨e', he'⟩ := hedits e d h he
    exact hinv.edits e' d h he'
  · intro d h o hd ho
    have hle := hinv.users d h o hd ho
    rwa [← hused d h hd] at hle
  · intro d h hd hunused
    exact hinv.armed d h hd ((hused d h hd).symm.trans hunused)

theorem running_putEdit {e e' : Nat} {stage : Edit σ}
    (he : (w.putEdit e stage).edits[e']? = some (.running d h)) :
    stage = .running d h ∨ w.edits[e']? = some (.running d h) := by
  simp only [State.putEdit] at he
  by_cases hee : e = e'
  · subst hee
    rw [List.getElem?_set_self'] at he
    obtain ⟨old, -, hstage⟩ := Option.map_eq_some_iff.1 he
    exact .inl hstage
  · rw [List.getElem?_set_ne hee] at he
    exact .inr he

theorem ended_running {e e' : Nat}
    (he : (w.putEdit e .ended).edits[e']? = some (.running d h)) : w.edits[e']? = some (.running d h) := by
  obtain hend | hold := running_putEdit he
  · cases hend
  · exact hold

theorem ended_usedBy
    (he : w.edits[e]? = some (.reading session d)) (h : Nat) : (w.putEdit e .ended).usedBy h = w.usedBy h := by
  simpa [Edit.uses] using @usedBy_putEdit σ w e _ .ended he h

theorem called_running {d d' : Text} {e h : Nat}
    (he : (w.edits ++ [.reading session d'])[e]? = some (.running d h)) : w.edits[e]? = some (.running d h) := by
  obtain hold | ⟨-, hnew⟩ := getElem?_concat_cases he
  · exact hold
  · cases hnew

theorem called_usedBy (w : State σ) (session : σ) (d : Text) (h : Nat) :
    (w.edits ++ [Edit.reading session d]).countP (Edit.uses h) = w.usedBy h := by
  simp [State.usedBy, Edit.uses]

theorem Inv.put_ended (hinv : Inv w)
    (he : w.edits[e]? = some (.reading session d)) : Inv (w.putEdit e .ended) :=
  hinv.same (fun e' _ _ he' => ⟨e', ended_running he'⟩) (fun _ h _ => ended_usedBy he h) w.session

theorem Inv.hold (hinv : Inv w)
    (he : w.edits[e]? = some (.reading session d)) (hd : w.held.get d = some h) :
    Inv (State.putEdit { w.clearTimeout (w.timerOf h) with
      opened := w.opened.modify h fun o => { o with timer := none, users := o.users + 1 } } e (.running d h)) := by
  have hused : ∀ h', (w.edits.set e (.running d h)).countP (Edit.uses h') = w.usedBy h' + if h = h' then 1 else 0 :=
    usedBy_running he h
  have hc := hinv.cleared h
  refine hinv.reuse ?_ ?_ ?_ ?_ ?_
  · exact fun o => ⟨rfl, rfl, rfl⟩
  · intro e' d' h' he'
    obtain hnew | hold := running_putEdit he'
    · obtain ⟨rfl, rfl⟩ := Edit.running.inj hnew
      obtain ⟨o, ho, hod, -⟩ := hinv.held d h hd
      exact ⟨o, ho, hod⟩
    · exact hinv.edits e' d' h' hold
  · intro d' h' o hd' ho
    have hle := hinv.users d' h' o hd' ho
    show _ ≤ (((w.edits.set e (.running d h)).countP (Edit.uses h') : Nat) : Int)
    rw [hused]
    split <;> simp <;> omega
  · intro d' h' hd' hunused
    have hnow : w.usedBy h' + (if h = h' then 1 else 0) = 0 := (hused h').symm.trans hunused
    have hne : h' ≠ h := by
      rintro rfl
      simp at hnow
    exact hc.mem hne (hinv.armed d' h' hd' (by omega))
  · intro h' o t ho ht
    split at ht
    · cases ht
    · exact hc.points (hinv.own h' o t ho ht)

/-- An edit opens a document that is not held. -/
theorem Inv.openDocument (hinv : Inv w)
    (he : w.edits[e]? = some (.reading session d)) (hd : w.held.get d = none) :
    Inv (State.putEdit
      { w with opened := w.opened ++ [⟨session, d, 1, none, []⟩], held := w.held.set d w.opened.length }
      e (.running d w.opened.length)) := by
  let new : Held σ := ⟨session, d, 1, none, []⟩
  have hget : ∀ k, (w.held.set d w.opened.length).get k = if k = d then some w.opened.length else w.held.get k :=
    fun k => KeyedMap.get_set
  -- the new opening is used by this edit alone, the others as before
  have hused : ∀ h', (w.edits.set e (.running d w.opened.length)).countP (Edit.uses h') =
      w.usedBy h' + if w.opened.length = h' then 1 else 0 := usedBy_running he w.opened.length
  refine ⟨?_, ?_, ?_, ?_, ?_, ?_⟩
  · intro k h' hk
    rw [State.putEdit, hget] at hk
    split at hk
    · obtain rfl := Option.some.inj hk
      exact ⟨new, List.getElem?_concat_length, by simp [*, new], rfl⟩
    · obtain ⟨o, ho, hod, hopen⟩ := hinv.held k h' hk
      exact ⟨o, getElem?_concat_of_some new ho, hod, hopen⟩
  · intro h' o ho
    show (w.held.set d w.opened.length).get o.docId = some h' ∨ _
    rw [hget]
    obtain hold | ⟨rfl, rfl⟩ := getElem?_concat_cases ho
    · obtain hheld | honce := hinv.opened h' o hold
      · left
        rw [if_neg, hheld]
        rintro rfl
        rw [hd] at hheld
        cases hheld
      · exact .inr honce
    · simp
  · intro e' d' h' he'
    obtain hnew | hold := running_putEdit he'
    · obtain ⟨rfl, rfl⟩ := Edit.running.inj hnew
      exact ⟨new, List.getElem?_concat_length, rfl⟩
    · obtain ⟨o, ho, hod⟩ := hinv.edits e' d' h' hold
      exact ⟨o, getElem?_concat_of_some new ho, hod⟩
  · intro k h' o hk ho
    show o.users ≤ ((w.edits.set e (.running d w.opened.length)).countP (Edit.uses h') : Nat)
    rw [State.putEdit, hget] at hk
    rw [hused]
    split at hk
    · obtain rfl := Option.some.inj hk
      obtain hold | ⟨-, rfl⟩ := getElem?_concat_cases ho
      · exact absurd (List.getElem?_eq_some_iff.1 hold).1 (lt_irrefl _)
      · simp only [if_true]
        omega
    · obtain hold | ⟨rfl, rfl⟩ := getElem?_concat_cases ho
      · have hle := hinv.users k h' o hk hold
        split <;> omega
      · simp only [if_true]
        omega
  · intro k h' hk hunused
    have hnow : w.usedBy h' + (if w.opened.length = h' then 1 else 0) = 0 := (hused h').symm.trans hunused
    rw [State.putEdit, hget] at hk
    split at hk
    · obtain rfl := Option.some.inj hk
      simp at hnow
    · exact hinv.armed k h' hk (by omega)
  · intro h' o t ho ht
    obtain hold | ⟨-, rfl⟩ := getElem?_concat_cases ho
    · exact hinv.own h' o t hold ht
    · cases ht

theorem Inv.take (hinv : Inv w) (opens : Bool)
    (he : w.edits[e]? = some (.reading session d)) :
    match w.take session d opens with
    | (w', some h) => Inv (w'.putEdit e (.running d h))
    | (w', none) => Inv (w'.putEdit e .ended) := by
  unfold State.take
  cases hd : w.held.get d with
  | some h => exact hinv.hold he hd
  | none =>
    cases opens with
    | true => exact hinv.openDocument he hd
    | false => exact hinv.put_ended he

/-- `release` by an edit that ends: the count may be that of another opening of the document. -/
theorem Inv.release (hinv : Inv w) {h₀ : Nat}
    (he : w.edits[e]? = some (.running d h₀)) : Inv ((w.release d).putEdit e .ended) := by
  have hedits : ∀ (e' : Nat) d' h', (w.edits.set e .ended)[e']? = some (.running d' h') →
      w.edits[e']? = some (.running d' h') := fun _ _ _ he' => ended_running he'
  have hused : ∀ h', (w.edits.set e .ended).countP (Edit.uses h') + (if h₀ = h' then 1 else 0) = w.usedBy h' := by
    intro h'
    have hcount := @usedBy_putEdit σ w e _ .ended he h'
    simpa [Edit.uses, State.usedBy, State.putEdit] using hcount
  -- only what is held of this document may have been used by this edit
  have hmine : ∀ d', w.held.get d' = some h₀ → d' = d := by
    intro d' hd'
    obtain ⟨o, ho, hod⟩ := hinv.edits e d h₀ he
    obtain ⟨o', ho', hod', -⟩ := hinv.held d' h₀ hd'
    rw [ho] at ho'
    obtain rfl := Option.some.inj ho'
    exact hod'.symm.trans hod
  unfold State.release
  cases hd : w.held.get d with
  | none =>
    refine hinv.same (fun e' d' h' he' => ⟨e', hedits e' d' h' he'⟩) ?_ w.session
    intro d' h' hd'
    have hne : h₀ ≠ h' := by
      rintro rfl
      rw [hmine d' hd', hd] at hd'
      cases hd'
    have hcount := hused h'
    rw [if_neg hne] at hcount
    exact hcount
  | some h =>
    obtain ⟨o, ho, hod, -⟩ := hinv.held d h hd
    have hle := hinv.users d h o hd ho
    have hrest : ∀ d' h', w.held.get d' = some h' → h ≠ h' →
        (w.edits.set e .ended).countP (Edit.uses h') = w.usedBy h' := by
      intro d' h' hd' hne
      have hne₀ : h₀ ≠ h' := by
        rintro rfl
        rw [hmine d' hd', hd] at hd'
        exact hne (Option.some.inj hd')
      have hcount := hused h'
      rw [if_neg hne₀] at hcount
      exact hcount
    have hcount : o.users - 1 ≤ ((w.edits.set e .ended).countP (Edit.uses h) : Nat) := by
      have hall := hused h
      split at hall <;> omega
    have husers : ∀ d' h' o', w.held.get d' = some h' → w.opened[h']? = some o' →
        (if h = h' then o.users - 1 else o'.users) ≤ ((w.edits.set e .ended).countP (Edit.uses h') : Nat) := by
      intro d' h' o' hd' ho'
      split
      · rename_i hhh
        subst hhh
        exact hcount
      · rename_i hne
        rw [hrest d' h' hd' hne]
        exact hinv.users d' h' o' hd' ho'
    simp only [ho, Option.map_some, Option.getD_some]
    split
    · refine hinv.reuse ?_ (fun e' d' h' he' => hinv.edits e' d' h' (hedits e' d' h' he')) ?_ ?_ ?_
      · exact fun o => ⟨rfl, rfl, rfl⟩
      · intro d' h' o' hd' ho'
        rw [apply_ite Held.users]
        exact husers d' h' o' hd' ho'
      · intro d' h' hd' hunused
        by_cases hhh : h = h'
        · subst hhh
          have hzero : (w.edits.set e .ended).countP (Edit.uses h) = 0 := hunused
          omega
        · exact hinv.armed d' h' hd' ((hrest d' h' hd' hhh).symm.trans hunused)
      · intro h' o' t ho' ht
        refine hinv.own h' o' t ho' ?_
        split at ht <;> exact ht
    · refine hinv.reuse ?_ (fun e' d' h' he' => hinv.edits e' d' h' (hedits e' d' h' he')) ?_ ?_ ?_
      · exact fun o => ⟨rfl, rfl, rfl⟩
      · intro d' h' o' hd' ho'
        rw [apply_ite Held.users]
        exact husers d' h' o' hd' ho'
      · intro d' h' hd' hunused
        rw [List.mem_append]
        by_cases hhh : h = h'
        · exact .inr (by simp [hhh])
        · exact .inl (hinv.armed d' h' hd' ((hrest d' h' hd' hhh).symm.trans hunused))
      · intro h' o' t ho' ht
        split at ht
        · rename_i hhh
          subst hhh
          obtain rfl : w.timers.length = t := Option.some.inj ht
          exact .inl List.getElem?_concat_length
        · have hold := hinv.own h' o' t ho' ht
          have hlt : t < w.timers.length := by
            obtain hsome | hnone := hold
            · exact (List.getElem?_eq_some_iff.1 hsome).1
            · exact (List.getElem?_eq_some_iff.1 hnone).1
          rwa [List.getElem?_append_left hlt]

theorem Inv.fires (hinv : Inv w) {t h : Nat} (ht : w.timers[t]? = some (some h)) :
    Inv (State.expire { w with timers := w.timers.set t none } h) := by
  have hc : Cleared h w.timers (w.timers.set t none) := Cleared.set (.inl ht)
  unfold State.expire
  cases ho : w.opened[h]? with
  | none =>
    have hout : ∀ d h', w.held.get d = some h' → h' ≠ h := by
      rintro d h' hd rfl
      obtain ⟨o, ho', -⟩ := hinv.held d h' hd
      rw [ho] at ho'
      cases ho'
    exact { hinv with
      armed := fun d h' hd hunused => hc.mem (hout d h' hd) (hinv.armed d h' hd hunused)
      own := fun h' o t' ho' ht' => hc.points (hinv.own h' o t' ho' ht') }
  | some o =>
    dsimp only
    split
    · rename_i hd
      exact hinv.drop hd (fun k => KeyedMap.get_delete) hc
    · rename_i hd
      have hout : ∀ d h', w.held.get d = some h' → h' ≠ h := by
        rintro d h' hd' rfl
        obtain ⟨o', ho', rfl, -⟩ := hinv.held d h' hd'
        rw [ho] at ho'
        exact hd (Option.some.inj ho' ▸ hd')
      exact { hinv with
        armed := fun d h' hd' hunused => hc.mem (hout d h' hd') (hinv.armed d h' hd' hunused)
        own := fun h' o' t' ho' ht' => hc.points (hinv.own h' o' t' ho' ht') }

theorem Inv.dispose (hinv : Inv w) : Inv w.dispose := by
  obtain ⟨session, opened, ⟨entries, hnodup⟩, edits, timers⟩ := w
  unfold State.dispose
  -- the entries still to give back are what is held
  suffices hall : ∀ (l : List (Text × Nat)) (hl : (l.map Prod.fst).Nodup) (w : State σ),
      Inv { w with held := ⟨l, hl⟩ } →
      Inv { l.foldl (fun w e => w.giveBack e.2) w with held := .empty } from hall entries hnodup _ hinv
  intro l
  induction l with
  | nil => exact fun hl w h => h
  | cons e l ih =>
    intro hl w hw
    obtain ⟨d, h⟩ := e
    obtain ⟨hnew, hrest⟩ := List.nodup_cons.mp hl
    have hget : (⟨(d, h) :: l, hl⟩ : KeyedMap Text Nat).get d = some h := KeyedMap.mem_iff.mp List.mem_cons_self
    exact ih hrest (w.giveBack h) (hw.drop hget (fun k => KeyedMap.get_tail hl) (hw.cleared h))

theorem inv_start : Inv (start : State σ) := by
  constructor <;> simp [start]

theorem Inv.closed_once (hinv : Inv w) : (∀ o ∈ w.opened, o.closedOn = [] ∨ o.closedOn = [o.session]) ∧
    ((∀ h, w.usedBy h = 0) → (∀ h, some h ∉ w.timers) → ∀ o ∈ w.opened, o.closedOn = [o.session]) := by
  constructor
  · intro o hmem
    obtain ⟨h, ho⟩ := List.mem_iff_getElem?.1 hmem
    obtain hheld | honce := hinv.opened h o ho
    · obtain ⟨o', ho', -, hopen⟩ := hinv.held _ h hheld
      rw [ho] at ho'
      obtain rfl := Option.some.inj ho'
      exact .inl hopen
    · exact .inr honce
  · intro hunused hquiet o hmem
    obtain ⟨h, ho⟩ := List.mem_iff_getElem?.1 hmem
    obtain hheld | honce := hinv.opened h o ho
    · exact absurd (hinv.armed _ h hheld (hunused h)) (hquiet h)
    · exact honce

variable [DecidableEq σ]

theorem Inv.evict (hinv : Inv w) (session : σ) (d : Text) : Inv (w.evict session d) := by
  unfold State.evict
  split
  · rename_i h hheld
    obtain ⟨hd, -⟩ := Option.filter_eq_some_iff.1 hheld
    exact hinv.drop hd (fun k => KeyedMap.get_delete) (hinv.cleared h)
  · exact hinv

theorem edits_evict (w : State σ) (session : σ) (d : Text) : (w.evict session d).edits = w.edits := by
  unfold State.evict
  split <;> rfl

theorem step_inv {w w' : State σ} (hinv : Inv w) (event : Event σ) (hstep : step w event = some w') : Inv w' := by
  cases event with
  | switch session =>
    obtain rfl := Option.some.inj hstep
    exact hinv.same (fun e d h he => ⟨e, he⟩) (fun _ _ _ => rfl) session
  | edit d =>
    simp only [step] at hstep
    split at hstep
    · obtain rfl := Option.some.inj hstep
      exact hinv
    · obtain rfl := Option.some.inj hstep
      exact hinv.same (fun e _ _ he => ⟨e, called_running he⟩) (fun _ h _ => called_usedBy w _ d h) w.session
  | read e opens =>
    simp only [step] at hstep
    split at hstep
    · rename_i session d he
      have htake := (hinv.evict session d).take opens ((edits_evict w session d).symm ▸ he)
      simp only [State.acquire] at hstep
      split at hstep
      · rename_i htook
        rw [htook] at htake
        obtain rfl := Option.some.inj hstep
        exact htake
      · rename_i htook
        rw [htook] at htake
        obtain rfl := Option.some.inj hstep
        exact htake
    · cases hstep
  | readFails e =>
    simp only [step] at hstep
    split at hstep
    · rename_i he
      obtain rfl := Option.some.inj hstep
      exact hinv.put_ended he
    · cases hstep
  | ends e =>
    simp only [step] at hstep
    split at hstep
    · rename_i he
      obtain rfl := Option.some.inj hstep
      exact hinv.release he
    · cases hstep
  | fires t =>
    simp only [step] at hstep
    split at hstep
    · rename_i ht
      obtain rfl := Option.some.inj hstep
      exact hinv.fires ht
    · cases hstep
  | dispose =>
    obtain rfl := Option.some.inj hstep
    exact hinv.dispose

end

end Savoire.NoteTextEditor
