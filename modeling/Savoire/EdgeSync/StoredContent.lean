import Savoire.Text
import Savoire.Library.KeyedMap
import Savoire.Library.Transition
import Mathlib.Data.Finset.Lattice.Lemmas
import Mathlib.Data.Finset.Insert
import Mathlib.Logic.Function.Basic

/-! The content that an EdgeSync session stores: what its channels hold, the loads that join the stored states
in them, and the saves that replace these. -/
namespace Savoire.EdgesyncVaultSession
open Transition

inductive Channel
  | directory
  | document (docId : Text)
  | index (ns : Text)
  deriving DecidableEq

/-- An open channel. `loaded` records that what was stored for it has been joined in its document. -/
structure Opened where
  doc : Nat
  loaded : Bool
  deriving DecidableEq

/-- A call of `loadContent`; `read` is what the storage has answered. -/
structure Load (U : Type*) where
  channel : Channel
  doc : Nat
  read : Option (Option U)

/-- A call of `saveAll`, with the channels it has still to write; `last` where `dispose` waits for it. -/
structure Save where
  pending : List (Channel × Nat)
  last : Bool

/-- `docs` are the documents that were given to the session, `stored` is what the storage has. `edits` records
the local changes. -/
structure Session (U : Type*) where
  docs : List U
  channels : KeyedMap Channel Opened
  loads : List (Load U)
  persistTimer : Bool
  saves : List Save
  disposed : Bool
  stored : Channel → Option U
  edits : List (Channel × U)

variable {U : Type*} [SemilatticeSup U]

namespace Session
variable (s : Session U)

/-- `openDocument`, `openIndex`: a channel that is open stays as it is. -/
def open_ (channel : Channel) (state : U) : Session U :=
  match s.channels.get channel with
  | some _ => s
  | none => { s with
      docs := s.docs ++ [state]
      channels := s.channels.set channel ⟨s.docs.length, false⟩
      loads := s.loads ++ [⟨channel, s.docs.length, none⟩] }

/-- `closeDocument`, `closeIndex` -/
def close (channel : Channel) : Session U := { s with channels := s.channels.delete channel }

/-- A document takes an update; where a channel has it, `schedulePersist` is called. -/
def update (doc : Nat) (u : U) : Session U :=
  { s with docs := s.docs.modify doc (· ⊔ u), persistTimer := true }

/-- The channels that `persist` lists. -/
def listed : List (Channel × Nat) := s.channels.entries.map fun e => (e.1, e.2.doc)

def persist (last : Bool) : Session U :=
  { s with persistTimer := false, saves := s.saves ++ [⟨s.listed, last⟩] }

/-- Without the key the stored state is dropped. -/
def joinStored (doc : Nat) : Option U → Bool → List U
  | some u, true => s.docs.modify doc (· ⊔ u)
  | _, _ => s.docs

/-- The end of `loadContent`. -/
def endLoad (l : Load U) (r : Option U) (known : Bool) : Session U :=
  let join := s.joinStored l.doc r known
  match s.channels.get l.channel with
  | some o =>
    if o.doc = l.doc then { s with
      docs := join
      persistTimer := s.persistTimer || (r.isSome && known)
      channels := s.channels.set l.channel ⟨o.doc, o.loaded || r.isNone || known⟩ }
    else { s with docs := join }
  | none => { s with docs := join }

end Session

inductive Event (U : Type*)
  | openDocument (docId : Text) (state : U)
  | openIndex (ns : Text)
  | closeDocument (docId : Text)
  | closeIndex (ns : Text)
  | edit (channel : Channel) (u : U)
  | receive (channel : Channel) (u : U)
  | read (k : Nat)
  | loaded (k : Nat) (known : Bool)
  | loadFails (k : Nat)
  | timer
  | write (i j : Nat)
  | saved (i : Nat)
  | saveFails (i : Nat)
  | dispose

/-- A write of `saveAll` takes the state that the document has then. -/
def step [OrderBot U] (s : Session U) : Event U → Option (Session U)
  | .openDocument docId state => if s.disposed then none else some (s.open_ (.document docId) state)
  | .openIndex ns => if s.disposed then none else some (s.open_ (.index ns) ⊥)
  | .closeDocument docId => some (s.close (.document docId))
  | .closeIndex ns => some (s.close (.index ns))
  | .edit channel u => match s.disposed, s.channels.get channel with
    | false, some o => some { s.update o.doc u with edits := s.edits ++ [(channel, u)] }
    | _, _ => none
  | .receive channel u => match s.disposed, s.channels.get channel with
    | false, some o => some (s.update o.doc u)
    | _, _ => none
  | .read k => match s.loads[k]? with
    | some ⟨channel, doc, none⟩ => some { s with loads := s.loads.set k ⟨channel, doc, some (s.stored channel)⟩ }
    | _ => none
  | .loaded k known => match s.loads[k]? with
    | some ⟨channel, doc, some r⟩ =>
      some ({ s with loads := s.loads.eraseIdx k : Session U }.endLoad ⟨channel, doc, some r⟩ r known)
    | _ => none
  | .loadFails k => some { s with loads := s.loads.eraseIdx k }
  | .timer => if s.persistTimer then some (s.persist false) else none
  | .write i j => match s.saves[i]? with
    | some ⟨pending, last⟩ => match pending[j]? with
      | some p => some { s with
          saves := s.saves.set i ⟨pending.eraseIdx j, last⟩
          stored := Function.update s.stored p.1 s.docs[p.2]? }
      | none => none
    | none => none
  | .saved i => match s.saves[i]? with
    | some ⟨[], false⟩ => some { s with saves := s.saves.eraseIdx i }
    | some ⟨[], true⟩ => some { s with
        saves := s.saves.eraseIdx i, disposed := true, channels := s.channels.filter (·.1 == .directory) }
    | _ => none
  | .saveFails i => some { s with saves := s.saves.eraseIdx i }
  | .dispose => if s.disposed then none else some (s.persist true)

/-- The session that `finalize` makes: the directory in a state, over what the storage has. -/
def start (stored : Channel → Option U) (state : U) : Session U where
  docs := [state]
  channels := KeyedMap.empty.set .directory ⟨0, false⟩
  loads := [⟨.directory, 0, none⟩]
  persistTimer := false
  saves := []
  disposed := false
  stored := stored
  edits := []

/-- A change that the storage has. -/
def Stored (s : Session U) (e : Channel × U) : Prop := ∃ v ∈ s.stored e.1, e.2 ≤ v

def Grown (s s' : Session U) : Prop := ∀ channel, ∀ u ∈ s.stored channel, Stored s' (channel, u)

def Session.ClearClose (s : Session U) (channel : Channel) : Prop :=
  (∀ e ∈ s.edits, e.1 = channel → Stored s e) ∧ ∀ v ∈ s.saves, ∀ p ∈ v.pending, p.1 ≠ channel

/-- A save starts when every open channel is loaded, a channel is closed when its edits are stored and no save
is to write it, and an edit comes before the last save has written its channel. -/
def Clear (s : Session U) : Event U → Prop
  | .timer | .dispose => ∀ e ∈ s.channels.entries, e.2.loaded = true
  | .closeDocument docId => s.ClearClose (.document docId)
  | .closeIndex ns => s.ClearClose (.index ns)
  | .edit channel _ =>
    ∀ o ∈ s.channels.get channel, ∀ v ∈ s.saves, v.last = true → (channel, o.doc) ∈ v.pending
  | _ => True

/-- The document contains the update. -/
def Holds (s : Session U) (doc : Nat) (u : U) : Prop := ∃ v ∈ s.docs[doc]?, u ≤ v

/-- A write that is still to come: its channel is open and loaded, or closed with the session. -/
def Writable (s : Session U) (p : Channel × Nat) : Prop :=
  s.channels.get p.1 = some ⟨p.2, true⟩ ∨
    (s.disposed = true ∧ s.channels.get p.1 = none ∧ (∀ u ∈ s.stored p.1, Holds s p.2 u) ∧
      ∀ v ∈ s.saves, ∀ q ∈ v.pending, q.1 = p.1 → q.2 = p.2)

structure Inv (s : Session U) : Prop where
  docs : ∀ channel o, s.channels.get channel = some o → o.doc < s.docs.length
  loadDocs : ∀ l ∈ s.loads, l.doc < s.docs.length
  loaded : ∀ channel doc, s.channels.get channel = some ⟨doc, true⟩ → ∀ u ∈ s.stored channel, Holds s doc u
  read : ∀ l ∈ s.loads, s.channels.get l.channel = some ⟨l.doc, false⟩ → ∀ r, l.read = some r →
    ∀ u ∈ s.stored l.channel, ∃ v ∈ r, u ≤ v
  writable : ∀ v ∈ s.saves, ∀ p ∈ v.pending, Writable s p
  edits : ∀ e ∈ s.edits, Stored s e ∨ ∃ o, s.channels.get e.1 = some o ∧ Holds s o.doc e.2
  last : ∀ v ∈ s.saves, v.last = true → ∀ e ∈ s.edits,
    Stored s e ∨ ∃ o, s.channels.get e.1 = some o ∧ Holds s o.doc e.2 ∧ (e.1, o.doc) ∈ v.pending
  disposed : s.disposed = true → ∀ e ∈ s.edits, Stored s e

section Steps
variable {s : Session U} {docs : List U} {channel : Channel} {doc i j k : Nat} {u : U}

/-- Documents that have taken updates, and new ones. -/
structure DocsGrow (docs docs' : List U) : Prop where
  length : docs.length ≤ docs'.length
  holds (d : Nat) : ∀ v ∈ docs[d]?, ∃ v' ∈ docs'[d]?, v ≤ v'

theorem DocsGrow.refl (docs : List U) : DocsGrow docs docs := ⟨le_rfl, fun _ v hv => ⟨v, hv, le_rfl⟩⟩

theorem docsGrow_modify (docs : List U) (d : Nat) (u : U) : DocsGrow docs (docs.modify d (· ⊔ u)) where
  length := (List.length_modify _ _ _).ge
  holds e v hv := by
    rw [List.getElem?_modify, hv]
    by_cases he : d = e
    · exact ⟨v ⊔ u, by simp [he], le_sup_left⟩
    · exact ⟨v, by simp [he], le_rfl⟩

theorem docsGrow_append (docs : List U) (u : U) : DocsGrow docs (docs ++ [u]) where
  length := by simp
  holds d v hv := by
    obtain ⟨hlt, -⟩ := List.getElem?_eq_some_iff.mp hv
    exact ⟨v, (List.getElem?_append_left hlt).trans hv, le_rfl⟩

theorem DocsGrow.holdsIn {s' : Session U} (hg : DocsGrow s.docs s'.docs) (h : Holds s doc u) : Holds s' doc u := by
  obtain ⟨v, hv, hu⟩ := h
  obtain ⟨v', hv', hle⟩ := hg.holds doc v hv
  exact ⟨v', hv', hu.trans hle⟩

theorem holds_modify (hdoc : doc < docs.length) (u : U) : ∃ v ∈ (docs.modify doc (· ⊔ u))[doc]?, u ≤ v :=
  ⟨docs[doc] ⊔ u, by simp [hdoc], le_sup_right⟩

theorem Inv.grow (h : Inv s) (hg : DocsGrow s.docs docs) (armed : Bool) :
    Inv { s with docs := docs, persistTimer := armed } where
  docs channel o ho := (h.docs channel o ho).trans_le hg.length
  loadDocs l hl := (h.loadDocs l hl).trans_le hg.length
  loaded channel doc ho u hu := hg.holdsIn (h.loaded channel doc ho u hu)
  read := h.read
  writable v hv p hp := by
    rcases h.writable v hv p hp with hopen | ⟨hd, hnone, hst, huniq⟩
    · exact .inl hopen
    · exact .inr ⟨hd, hnone, fun u hu => hg.holdsIn (hst u hu), huniq⟩
  edits e he := by
    rcases h.edits e he with hst | ⟨o, ho, hdoc⟩
    · exact .inl hst
    · exact .inr ⟨o, ho, hg.holdsIn hdoc⟩
  last v hv hlast e he := by
    rcases h.last v hv hlast e he with hst | ⟨o, ho, hdoc, hmem⟩
    · exact .inl hst
    · exact .inr ⟨o, ho, hg.holdsIn hdoc, hmem⟩
  disposed := h.disposed

theorem Inv.open_ (h : Inv s) (hd : s.disposed = false) (channel : Channel) (state : U) :
    Inv (s.open_ channel state) := by
  unfold Session.open_
  cases hget : s.channels.get channel with
  | some o => exact h
  | none =>
    have h' : Inv { s with docs := s.docs ++ [state] } := h.grow (docsGrow_append s.docs state) s.persistTimer
    have hother : ∀ c o, s.channels.get c = some o →
        (s.channels.set channel ⟨s.docs.length, false⟩).get c = some o := by
      intro c o ho
      rw [KeyedMap.get_set_ne (by rintro rfl; rw [hget] at ho; cases ho)]
      exact ho
    have hback : ∀ c o, (s.channels.set channel ⟨s.docs.length, false⟩).get c = some o →
        s.channels.get c = some o ∨ (c = channel ∧ o = ⟨s.docs.length, false⟩) := by
      intro c o ho
      rw [KeyedMap.get_set] at ho
      split at ho
      · rename_i hc
        exact .inr ⟨hc, (Option.some.inj ho).symm⟩
      · exact .inl ho
    refine ⟨?_, ?_, ?_, ?_, ?_, ?_, ?_, h'.disposed⟩
    · intro c o ho
      rcases hback c o ho with hold | ⟨-, rfl⟩
      · exact h'.docs c o hold
      · simp
    · intro l hl
      rcases List.mem_append.mp hl with hold | hnew
      · exact h'.loadDocs l hold
      · obtain rfl := List.mem_singleton.mp hnew
        simp
    · intro c doc ho
      rcases hback c ⟨doc, true⟩ ho with hold | ⟨-, hnew⟩
      · exact h'.loaded c doc hold
      · cases hnew
    · intro l hl ho r hr
      rcases List.mem_append.mp hl with hold | hnew
      · rcases hback l.channel ⟨l.doc, false⟩ ho with hopen | ⟨-, hnew⟩
        · exact h'.read l hold hopen r hr
        · have hlt := h.loadDocs l hold
          have hdoc : l.doc = s.docs.length := congrArg Opened.doc hnew
          omega
      · obtain rfl := List.mem_singleton.mp hnew
        cases hr
    · intro v hv p hp
      rcases h'.writable v hv p hp with hopen | ⟨hdis, -⟩
      · exact .inl (hother _ _ hopen)
      · rw [hd] at hdis
        cases hdis
    · intro e he
      rcases h'.edits e he with hst | ⟨o, ho, hdoc⟩
      · exact .inl hst
      · exact .inr ⟨o, hother _ _ ho, hdoc⟩
    · intro v hv hlast e he
      rcases h'.last v hv hlast e he with hst | ⟨o, ho, hdoc⟩
      · exact .inl hst
      · exact .inr ⟨o, hother _ _ ho, hdoc⟩

theorem Inv.close (h : Inv s) (hclear : s.ClearClose channel) : Inv (s.close channel) := by
  obtain ⟨hstored, hfree⟩ := hclear
  have hkept : ∀ c, c ≠ channel → (s.close channel).channels.get c = s.channels.get c := by
    intro c hc
    exact KeyedMap.get_delete.trans (if_neg hc)
  have hback : ∀ c o, (s.close channel).channels.get c = some o → s.channels.get c = some o := by
    intro c o ho
    by_cases hc : c = channel
    · rw [Session.close, KeyedMap.get_delete, if_pos hc] at ho
      cases ho
    · rwa [hkept c hc] at ho
  refine ⟨fun c o ho => h.docs c o (hback c o ho), h.loadDocs, fun c doc ho => h.loaded c doc (hback c _ ho),
    fun l hl ho => h.read l hl (hback _ _ ho), ?_, ?_, ?_, h.disposed⟩
  · intro v hv p hp
    have hget := hkept p.1 (hfree v hv p hp)
    rcases h.writable v hv p hp with hopen | ⟨hdis, hnone, hst, huniq⟩
    · exact .inl (hget.trans hopen)
    · exact .inr ⟨hdis, hget.trans hnone, hst, huniq⟩
  · intro e he
    by_cases hc : e.1 = channel
    · exact .inl (hstored e he hc)
    · rcases h.edits e he with hst | ⟨o, ho, hdoc⟩
      · exact .inl hst
      · exact .inr ⟨o, (hkept e.1 hc).trans ho, hdoc⟩
  · intro v hv hlast e he
    by_cases hc : e.1 = channel
    · exact .inl (hstored e he hc)
    · rcases h.last v hv hlast e he with hst | ⟨o, ho, hdoc⟩
      · exact .inl hst
      · exact .inr ⟨o, (hkept e.1 hc).trans ho, hdoc⟩

theorem Inv.edit (h : Inv s) {o : Opened} (hget : s.channels.get channel = some o) (hd : s.disposed = false)
    (hclear : Clear s (.edit channel u)) :
    Inv { s.update o.doc u with edits := s.edits ++ [(channel, u)] } := by
  have h' : Inv (s.update o.doc u) := h.grow (docsGrow_modify s.docs o.doc u) true
  have hnew : Holds (s.update o.doc u) o.doc u := holds_modify (h.docs channel o hget) u
  refine { h' with edits := ?_, last := ?_, disposed := ?_ }
  · intro e he
    rcases List.mem_append.mp he with hold | hlast
    · exact h'.edits e hold
    · obtain rfl := List.mem_singleton.mp hlast
      exact .inr ⟨o, hget, hnew⟩
  · intro v hv hlast e he
    rcases List.mem_append.mp he with hold | hmem
    · exact h'.last v hv hlast e hold
    · obtain rfl := List.mem_singleton.mp hmem
      exact .inr ⟨o, hget, hnew, hclear o hget v hv hlast⟩
  · intro hdis
    rw [show s.disposed = true from hdis] at hd
    cases hd

theorem Inv.endRead (h : Inv s) {l : Load U} (hl : s.loads[k]? = some l) :
    Inv { s with loads := s.loads.set k ⟨l.channel, l.doc, some (s.stored l.channel)⟩ } := by
  have hmem := List.mem_of_getElem? hl
  refine { h with loadDocs := ?_, read := ?_ }
  · intro l' hl'
    rcases List.mem_or_eq_of_mem_set hl' with hold | rfl
    · exact h.loadDocs l' hold
    · exact h.loadDocs l hmem
  · intro l' hl' ho r hr u hu
    rcases List.mem_or_eq_of_mem_set hl' with hold | rfl
    · exact h.read l' hold ho r hr u hu
    · obtain rfl := Option.some.inj hr
      exact ⟨u, hu, le_rfl⟩

theorem Inv.eraseLoad (h : Inv s) (k : Nat) : Inv { s with loads := s.loads.eraseIdx k } :=
  { h with
    loadDocs := fun l hl => h.loadDocs l (List.mem_of_mem_eraseIdx hl)
    read := fun l hl => h.read l (List.mem_of_mem_eraseIdx hl) }

theorem Inv.setLoaded (h : Inv s) {o : Opened} (hget : s.channels.get channel = some o) {b : Bool}
    (hle : o.loaded = true → b = true) (hb : b = true → ∀ u ∈ s.stored channel, Holds s o.doc u) :
    Inv { s with channels := s.channels.set channel ⟨o.doc, b⟩ } := by
  have hother : ∀ c o', s.channels.get c = some o' → ∃ o'', (s.channels.set channel ⟨o.doc, b⟩).get c = some o'' ∧
      o''.doc = o'.doc ∧ (o'.loaded = true → o''.loaded = true) := by
    intro c o' ho'
    by_cases hc : c = channel
    · subst hc
      obtain rfl := Option.some.inj (hget.symm.trans ho')
      exact ⟨_, KeyedMap.get_set_self, rfl, hle⟩
    · exact ⟨o', (KeyedMap.get_set_ne hc).trans ho', rfl, id⟩
  have hback : ∀ c o', (s.channels.set channel ⟨o.doc, b⟩).get c = some o' →
      s.channels.get c = some o' ∨ (c = channel ∧ o' = ⟨o.doc, b⟩) := by
    intro c o' ho'
    rw [KeyedMap.get_set] at ho'
    split at ho'
    · rename_i hc
      exact .inr ⟨hc, (Option.some.inj ho').symm⟩
    · exact .inl ho'
  refine ⟨?_, h.loadDocs, ?_, ?_, ?_, ?_, ?_, h.disposed⟩
  · intro c o' ho'
    rcases hback c o' ho' with hold | ⟨rfl, rfl⟩
    · exact h.docs c o' hold
    · exact h.docs c o hget
  · intro c doc ho'
    rcases hback c _ ho' with hold | ⟨rfl, hnew⟩
    · exact h.loaded c doc hold
    · obtain ⟨rfl, rfl⟩ := Opened.mk.inj hnew
      exact hb rfl
  · intro l hl ho'
    rcases hback l.channel _ ho' with hold | ⟨hc, hnew⟩
    · exact h.read l hl hold
    · obtain ⟨hdoc, rfl⟩ := Opened.mk.inj hnew
      have hold : s.channels.get l.channel = some ⟨l.doc, false⟩ := by
        rw [hc, hget, hdoc]
        cases hl' : o.loaded with
        | false => rw [← hl']
        | true => cases hle hl'
      exact h.read l hl hold
  · intro v hv p hp
    rcases h.writable v hv p hp with hopen | ⟨hdis, hnone, hrest⟩
    · obtain ⟨⟨d, l⟩, ho', hdoc, hload⟩ := hother p.1 _ hopen
      obtain rfl : d = p.2 := hdoc
      obtain rfl : l = true := hload rfl
      exact .inl ho'
    · have hc : p.1 ≠ channel := by
        rintro hc
        rw [hc, hget] at hnone
        cases hnone
      exact .inr ⟨hdis, (KeyedMap.get_set_ne hc).trans hnone, hrest⟩
  · intro e he
    rcases h.edits e he with hst | ⟨o', ho', hdoc⟩
    · exact .inl hst
    · obtain ⟨o'', ho'', heq, -⟩ := hother e.1 o' ho'
      exact .inr ⟨o'', ho'', heq ▸ hdoc⟩
  · intro v hv hlast e he
    rcases h.last v hv hlast e he with hst | ⟨o', ho', hdoc, hmem⟩
    · exact .inl hst
    · obtain ⟨o'', ho'', heq, -⟩ := hother e.1 o' ho'
      exact .inr ⟨o'', ho'', heq ▸ hdoc, heq ▸ hmem⟩

theorem docsGrow_joinStored (s : Session U) (doc : Nat) (r : Option U) (known : Bool) :
    DocsGrow s.docs (s.joinStored doc r known) := by
  cases r with
  | none => exact .refl s.docs
  | some u => cases known with
    | true => exact docsGrow_modify s.docs doc u
    | false => exact .refl s.docs

theorem Inv.endLoad (h : Inv s) {l : Load U} {r : Option U} (hdoc : l.doc < s.docs.length)
    (hread : s.channels.get l.channel = some ⟨l.doc, false⟩ → ∀ u ∈ s.stored l.channel, ∃ v ∈ r, u ≤ v)
    (known : Bool) : Inv (s.endLoad l r known) := by
  have hgrow := docsGrow_joinStored s l.doc r known
  unfold Session.endLoad
  cases hget : s.channels.get l.channel with
  | none => exact h.grow hgrow s.persistTimer
  | some o =>
    dsimp only
    by_cases ho : o.doc = l.doc
    · rw [if_pos ho]
      have hkept := h.grow hgrow (s.persistTimer || (r.isSome && known))
      refine hkept.setLoaded hget (b := o.loaded || r.isNone || known) (fun hl => by rw [hl]; rfl) ?_
      intro hb u hu
      cases hl : o.loaded with
      | true => exact hkept.loaded l.channel o.doc (by rw [hget, ← hl]) u hu
      | false =>
        obtain ⟨v, rfl, hle⟩ := hread (by rw [hget, ← ho, ← hl]) u hu
        obtain rfl : known = true := by simpa [hl] using hb
        obtain ⟨w, hw, hv⟩ := holds_modify hdoc v
        exact ⟨w, ho ▸ hw, hle.trans hv⟩
    · rw [if_neg ho]
      exact h.grow hgrow s.persistTimer

theorem Inv.persist (h : Inv s) (hclear : ∀ e ∈ s.channels.entries, e.2.loaded = true) (last : Bool) :
    Inv (s.persist last) := by
  have hopen : ∀ p ∈ s.listed, s.channels.get p.1 = some ⟨p.2, true⟩ := by
    intro p hp
    obtain ⟨⟨c, d, b⟩, he, rfl⟩ := List.mem_map.mp hp
    obtain rfl : b = true := hclear _ he
    exact KeyedMap.mem_iff.mp he
  refine ⟨h.docs, h.loadDocs, h.loaded, h.read, ?_, h.edits, ?_, h.disposed⟩
  · intro v hv p hp
    rcases List.mem_append.mp hv with hold | hnew
    · rcases h.writable v hold p hp with hcur | ⟨hdis, hnone, hst, huniq⟩
      · exact .inl hcur
      · refine .inr ⟨hdis, hnone, hst, fun w hw q hq hc => ?_⟩
        rcases List.mem_append.mp hw with hold' | hnew
        · exact huniq w hold' q hq hc
        · obtain rfl := List.mem_singleton.mp hnew
          rw [← hc, hopen q hq] at hnone
          cases hnone
    · obtain rfl := List.mem_singleton.mp hnew
      exact .inl (hopen p hp)
  · intro v hv hlast e he
    rcases List.mem_append.mp hv with hold | hnew
    · exact h.last v hold hlast e he
    · obtain rfl := List.mem_singleton.mp hnew
      rcases h.edits e he with hst | ⟨o, ho, hdoc⟩
      · exact .inl hst
      · exact .inr ⟨o, ho, hdoc, List.mem_map.mpr ⟨(e.1, o), KeyedMap.mem_iff.mpr ho, rfl⟩⟩

theorem Inv.setSaves (h : Inv s) {saves : List Save}
    (hold : ∀ v ∈ saves, ∃ v' ∈ s.saves, v.last = v'.last ∧ v.pending ⊆ v'.pending)
    (hlast : ∀ v ∈ saves, v.last = true → ∀ e ∈ s.edits,
      Stored s e ∨ ∃ o, s.channels.get e.1 = some o ∧ Holds s o.doc e.2 ∧ (e.1, o.doc) ∈ v.pending) :
    Inv { s with saves := saves } := by
  refine { h with writable := ?_, last := hlast }
  intro v hv p hp
  obtain ⟨v', hv', -, hsub⟩ := hold v hv
  rcases h.writable v' hv' p (hsub hp) with hcur | ⟨hdis, hnone, hst, huniq⟩
  · exact .inl hcur
  · refine .inr ⟨hdis, hnone, hst, fun w hw q hq hc => ?_⟩
    obtain ⟨w', hw', -, hsub'⟩ := hold w hw
    exact huniq w' hw' q (hsub' hq) hc

theorem Inv.eraseSave (h : Inv s) (i : Nat) : Inv { s with saves := s.saves.eraseIdx i } :=
  h.setSaves (fun v hv => ⟨v, List.mem_of_mem_eraseIdx hv, rfl, fun _ hp => hp⟩)
    fun v hv => h.last v (List.mem_of_mem_eraseIdx hv)

theorem Writable.holds (h : Inv s) {p : Channel × Nat} (hp : Writable s p) : ∀ u ∈ s.stored p.1, Holds s p.2 u := by
  rcases hp with hopen | ⟨-, -, hst, -⟩
  · exact h.loaded p.1 p.2 hopen
  · exact hst

theorem Writable.eq_of_open {p : Channel × Nat} {o : Opened} (hp : Writable s p)
    (ho : s.channels.get p.1 = some o) : o = ⟨p.2, true⟩ := by
  rcases hp with hopen | ⟨-, hnone, -⟩
  · exact Option.some.inj (ho.symm.trans hopen)
  · rw [ho] at hnone
    cases hnone

theorem stored_update {p : Channel × Nat} (hle : ∀ u ∈ s.stored p.1, Holds s p.2 u) {e : Channel × U}
    (he : Stored s e) : ∃ v ∈ Function.update s.stored p.1 s.docs[p.2]? e.1, e.2 ≤ v := by
  obtain ⟨v, hv, hev⟩ := he
  by_cases hc : e.1 = p.1
  · obtain ⟨w, hw, hvw⟩ := hle v (hc ▸ hv)
    refine ⟨w, ?_, hev.trans hvw⟩
    rwa [hc, Function.update_self]
  · refine ⟨v, ?_, hev⟩
    rwa [Function.update_of_ne hc]

theorem Inv.write (h : Inv s) {pending : List (Channel × Nat)} {last : Bool} {p : Channel × Nat}
    (hsave : s.saves[i]? = some ⟨pending, last⟩) (hp : pending[j]? = some p) :
    Inv { s with
      saves := s.saves.set i ⟨pending.eraseIdx j, last⟩
      stored := Function.update s.stored p.1 s.docs[p.2]? } := by
  have hv := List.mem_of_getElem? hsave
  have hpmem := List.mem_of_getElem? hp
  have hw := h.writable _ hv p hpmem
  have hle := hw.holds h
  have hold : ∀ v ∈ s.saves.set i ⟨pending.eraseIdx j, last⟩, ∃ v' ∈ s.saves, v.pending ⊆ v'.pending := by
    intro v hmem
    rcases List.mem_or_eq_of_mem_set hmem with hin | rfl
    · exact ⟨v, hin, fun _ hq => hq⟩
    · exact ⟨_, hv, fun _ hq => List.mem_of_mem_eraseIdx hq⟩
  refine ⟨h.docs, h.loadDocs, ?_, ?_, ?_, ?_, ?_, fun hdis e he => stored_update hle (h.disposed hdis e he)⟩
  · intro c doc ho u hu
    by_cases hc : c = p.1
    · subst hc
      have hdoc : doc = p.2 := congrArg Opened.doc (hw.eq_of_open ho)
      dsimp only at hu
      rw [Function.update_self] at hu
      exact ⟨u, hdoc ▸ hu, le_rfl⟩
    · dsimp only at hu
      rw [Function.update_of_ne hc] at hu
      exact h.loaded c doc ho u hu
  · intro l hl ho r hr
    have hc : l.channel ≠ p.1 := by
      intro hc
      have hfalse := congrArg Opened.loaded (hw.eq_of_open (hc ▸ ho))
      cases hfalse
    dsimp only
    rw [Function.update_of_ne hc]
    exact h.read l hl ho r hr
  · intro v hmem q hq
    obtain ⟨v', hv', hsub⟩ := hold v hmem
    rcases h.writable v' hv' q (hsub hq) with hopen | ⟨hdis, hnone, hst, huniq⟩
    · exact .inl hopen
    · refine .inr ⟨hdis, hnone, ?_, fun w hwm r hr hc => ?_⟩
      · intro u hu
        by_cases hc : q.1 = p.1
        · have hdoc : p.2 = q.2 := huniq _ hv p hpmem hc.symm
          dsimp only at hu
          rw [hc, Function.update_self] at hu
          exact ⟨u, hdoc ▸ hu, le_rfl⟩
        · dsimp only at hu
          rw [Function.update_of_ne hc] at hu
          exact hst u hu
      · obtain ⟨w', hw', hsub'⟩ := hold w hwm
        exact huniq w' hw' r (hsub' hr) hc
  · intro e he
    exact (h.edits e he).imp_left (stored_update hle)
  · intro v hmem hlast e he
    rcases List.mem_or_eq_of_mem_set hmem with hin | rfl
    · exact (h.last v hin hlast e he).imp_left (stored_update hle)
    · rcases h.last _ hv hlast e he with hst | ⟨o, ho, hdoc, hmem'⟩
      · exact .inl (stored_update hle hst)
      · rcases mem_or_mem_eraseIdx hp hmem' with rfl | hin
        · obtain ⟨w, hwm, hew⟩ := hdoc
          refine .inl ⟨w, ?_, hew⟩
          dsimp only
          rwa [Function.update_self]
        · exact .inr ⟨o, ho, hdoc, hin⟩

theorem Inv.dispose (h : Inv s) (hsave : s.saves[i]? = some ⟨[], true⟩) :
    Inv { s with
      saves := s.saves.eraseIdx i, disposed := true, channels := s.channels.filter (·.1 == .directory) } := by
  have hall : ∀ e ∈ s.edits, Stored s e := by
    intro e he
    rcases h.last _ (List.mem_of_getElem? hsave) rfl e he with hst | ⟨o, -, -, hmem⟩
    · exact hst
    · cases hmem
  have hback : ∀ c o, (s.channels.filter (·.1 == .directory)).get c = some o → s.channels.get c = some o :=
    fun c o ho => (KeyedMap.get_filter.mp ho).1
  refine ⟨fun c o ho => h.docs c o (hback c o ho), h.loadDocs, fun c doc ho => h.loaded c doc (hback c _ ho),
    fun l hl ho => h.read l hl (hback _ _ ho), ?_, fun e he => .inl (hall e he),
    fun v hv _ e he => .inl (hall e he), fun _ => hall⟩
  intro v hv p hp
  have hmem := List.mem_of_mem_eraseIdx hv
  have hw := h.writable v hmem p hp
  cases hget : (s.channels.filter (·.1 == .directory)).get p.1 with
  | some o =>
    obtain rfl := hw.eq_of_open (hback p.1 o hget)
    exact .inl hget
  | none =>
    refine .inr ⟨rfl, hget, hw.holds h, fun w hwm q hq hc => ?_⟩
    have hq' := h.writable w (List.mem_of_mem_eraseIdx hwm) q hq
    rcases hw with hopen | ⟨-, -, -, huniq⟩
    · exact (congrArg Opened.doc (hq'.eq_of_open (hc ▸ hopen))).symm
    · exact huniq w (List.mem_of_mem_eraseIdx hwm) q hq hc

theorem start_inv (stored : Channel → Option U) (state : U) : Inv (start stored state) := by
  have hget : ∀ c o, (start stored state).channels.get c = some o → c = .directory ∧ o = ⟨0, false⟩ := by
    intro c o ho
    rw [show (start stored state).channels = KeyedMap.empty.set .directory ⟨0, false⟩ from rfl,
      KeyedMap.get_set] at ho
    split at ho
    · rename_i hc
      exact ⟨hc, (Option.some.inj ho).symm⟩
    · cases ho
  refine ⟨?_, ?_, ?_, ?_, ?_, ?_, ?_, ?_⟩
  · intro c o ho
    obtain ⟨-, rfl⟩ := hget c o ho
    exact Nat.zero_lt_one
  · intro l hl
    obtain rfl := List.mem_singleton.mp hl
    exact Nat.zero_lt_one
  · intro c doc ho
    obtain ⟨-, hnew⟩ := hget c _ ho
    cases hnew
  · intro l hl ho r hr
    obtain rfl := List.mem_singleton.mp hl
    cases hr
  all_goals simp [start]

end Steps

section Runs
variable [OrderBot U] {s s' : Session U}

theorem step_inv (h : Inv s) (e : Event U) (hclear : Clear s e) (hstep : step s e = some s') : Inv s' := by
  cases e with
  | openDocument docId state =>
    simp only [step, Option.ite_none_left_eq_some, Option.some.injEq] at hstep
    obtain ⟨hd, rfl⟩ := hstep
    exact h.open_ (Bool.eq_false_iff.mpr hd) _ state
  | openIndex ns =>
    simp only [step, Option.ite_none_left_eq_some, Option.some.injEq] at hstep
    obtain ⟨hd, rfl⟩ := hstep
    exact h.open_ (Bool.eq_false_iff.mpr hd) _ ⊥
  | closeDocument docId =>
    obtain rfl := Option.some.inj hstep
    exact h.close hclear
  | closeIndex ns =>
    obtain rfl := Option.some.inj hstep
    exact h.close hclear
  | edit channel u =>
    simp only [step] at hstep
    split at hstep
    · rename_i o hd hget
      obtain rfl := Option.some.inj hstep
      exact h.edit hget hd hclear
    · cases hstep
  | receive channel u =>
    simp only [step] at hstep
    split at hstep
    · rename_i o hd hget
      obtain rfl := Option.some.inj hstep
      exact h.grow (docsGrow_modify s.docs o.doc u) true
    · cases hstep
  | read k =>
    simp only [step] at hstep
    split at hstep
    · rename_i channel doc hl
      obtain rfl := Option.some.inj hstep
      exact h.endRead hl
    · cases hstep
  | loaded k known =>
    simp only [step] at hstep
    split at hstep
    · rename_i channel doc r hl
      obtain rfl := Option.some.inj hstep
      have hmem := List.mem_of_getElem? hl
      exact (h.eraseLoad k).endLoad (h.loadDocs _ hmem) (fun ho => h.read _ hmem ho r rfl) known
    · cases hstep
  | loadFails k =>
    obtain rfl := Option.some.inj hstep
    exact h.eraseLoad k
  | timer =>
    simp only [step, Option.ite_none_right_eq_some, Option.some.injEq] at hstep
    obtain ⟨-, rfl⟩ := hstep
    exact h.persist hclear false
  | write i j =>
    simp only [step] at hstep
    split at hstep
    · rename_i pending last hsave
      split at hstep
      · rename_i p hp
        obtain rfl := Option.some.inj hstep
        exact h.write hsave hp
      · cases hstep
    · cases hstep
  | saved i =>
    simp only [step] at hstep
    split at hstep
    · obtain rfl := Option.some.inj hstep
      exact h.eraseSave i
    · rename_i hsave
      obtain rfl := Option.some.inj hstep
      exact h.dispose hsave
    · cases hstep
  | saveFails i =>
    obtain rfl := Option.some.inj hstep
    exact h.eraseSave i
  | dispose =>
    simp only [step, Option.ite_none_left_eq_some, Option.some.injEq] at hstep
    obtain ⟨-, rfl⟩ := hstep
    exact h.persist hclear true

theorem stored_step {e : Event U} (hstep : step s e = some s') :
    s'.stored = s.stored ∨ ∃ v ∈ s.saves, ∃ p ∈ v.pending,
      s'.stored = Function.update s.stored p.1 s.docs[p.2]? := by
  cases e with
  | openDocument docId state =>
    simp only [step, Option.ite_none_left_eq_some, Option.some.injEq] at hstep
    obtain ⟨-, rfl⟩ := hstep
    unfold Session.open_
    split <;> exact .inl rfl
  | openIndex ns =>
    simp only [step, Option.ite_none_left_eq_some, Option.some.injEq] at hstep
    obtain ⟨-, rfl⟩ := hstep
    unfold Session.open_
    split <;> exact .inl rfl
  | loaded k known =>
    simp only [step] at hstep
    split at hstep
    · obtain rfl := Option.some.inj hstep
      unfold Session.endLoad
      split
      · split <;> exact .inl rfl
      · exact .inl rfl
    · cases hstep
  | write i j =>
    simp only [step] at hstep
    split at hstep
    · rename_i pending last hsave
      split at hstep
      · rename_i p hp
        obtain rfl := Option.some.inj hstep
        exact .inr ⟨_, List.mem_of_getElem? hsave, p, List.mem_of_getElem? hp, rfl⟩
      · cases hstep
    · cases hstep
  | _ =>
    simp only [step] at hstep
    grind [Session.close, Session.update, Session.persist]

theorem stored_kept_step (h : Inv s) {e : Event U} (hstep : step s e = some s') {c : Channel × U}
    (hc : Stored s c) : Stored s' c := by
  rcases stored_step hstep with heq | ⟨v, hv, p, hp, heq⟩
  · rwa [Stored, heq]
  · rw [Stored, heq]
    exact stored_update ((h.writable v hv p hp).holds h) hc

/-- What is stored only grows, and a session that has been disposed has stored every edit. -/
theorem content_kept {stored : Channel → Option U} {state : U} (h : Run step Clear (start stored state) s)
    (h' : Run step Clear s s') : Grown s s' ∧ (s'.disposed = true → ∀ e ∈ s'.edits, Stored s' e) := by
  have hinv : Inv s := h.invariant Inv (start_inv stored state) fun _ e _ hi hc hstep => step_inv hi e hc hstep
  have hrun : Inv s' ∧ Grown s s' := by
    refine h'.invariant (fun t => Inv t ∧ Grown s t) ⟨hinv, fun _ u hu => ⟨u, hu, le_rfl⟩⟩ ?_
    rintro t e t' ⟨hi, hg⟩ hc hstep
    exact ⟨step_inv hi e hc hstep, fun channel u hu => stored_kept_step hi hstep (hg channel u hu)⟩
  exact ⟨hrun.2, hrun.1.disposed⟩

section Witnesses

instance (s : Session (Finset ℕ)) (c : Channel × Finset ℕ) : Decidable (Stored s c) :=
  inferInstanceAs (Decidable (∃ v ∈ s.stored c.1, c.2 ≤ v))

instance (s : Session (Finset ℕ)) (channel : Channel) : Decidable (s.ClearClose channel) :=
  inferInstanceAs (Decidable (_ ∧ _))

instance : ∀ (s : Session (Finset ℕ)) (e : Event (Finset ℕ)), Decidable (Clear s e)
  | s, .timer => inferInstanceAs (Decidable (∀ e ∈ s.channels.entries, e.2.loaded = true))
  | s, .dispose => inferInstanceAs (Decidable (∀ e ∈ s.channels.entries, e.2.loaded = true))
  | s, .closeDocument docId => inferInstanceAs (Decidable (s.ClearClose (.document docId)))
  | s, .closeIndex ns => inferInstanceAs (Decidable (s.ClearClose (.index ns)))
  | s, .edit channel _ => inferInstanceAs (Decidable
      (∀ o ∈ s.channels.get channel, ∀ v ∈ s.saves, v.last = true → (channel, o.doc) ∈ v.pending))
  | _, .openDocument _ _ | _, .openIndex _ | _, .receive _ _ | _, .read _ | _, .loaded _ _ | _, .loadFails _
  | _, .write _ _ | _, .saved _ | _, .saveFails _ => .isTrue trivial

/-- A document that is loaded, edited, saved and closed before the session is disposed. -/
theorem content_kept_disposed : ∃ s : Session (Finset ℕ), (s.disposed = true ∧ s.edits = [(.document ['a'], {2})]) ∧
    Grown (start (fun _ => some {1}) ∅) s ∧ (s.disposed = true → ∀ e ∈ s.edits, Stored s e) :=
  ⟨_, by decide +kernel, content_kept .refl (run_of_exec
    [.read 0, .loaded 0 true, .openDocument ['a'] ∅, .read 0, .loaded 0 true, .edit (.document ['a']) {2}, .timer,
      .write 0 1, .write 0 0, .saved 0, .closeDocument ['a'], .dispose, .write 0 0, .saved 0] _ _ rfl)⟩

/-- The first save comes before the document is loaded, and erases what was stored; a document is closed within
the delay of its save, and its edit is lost. -/
theorem content_erased :
    (¬ ∀ s : Session (Finset ℕ), Run step (fun _ _ => True) (start (fun _ => some {1}) ∅) s →
      Grown (start (fun _ => some {1}) ∅) s) ∧
    ¬ ∀ s : Session (Finset ℕ), Run step (fun _ _ => True) (start (fun _ => none) ∅) s → s.disposed = true →
      ∀ e ∈ s.edits, Stored s e := by
  constructor
  · intro h
    have hrun : Run step (fun _ _ => True) (start (fun _ => some {1}) (∅ : Finset ℕ)) _ :=
      run_of_exec [.openDocument ['a'] ∅, .edit (.document ['a']) {2}, .timer, .write 0 1] _ _ rfl
    have hlost := h _ hrun (.document ['a']) {1} rfl
    revert hlost
    decide +kernel
  · intro h
    have hrun : Run step (fun _ _ => True) (start (fun _ => none) (∅ : Finset ℕ)) _ :=
      run_of_exec [.openDocument ['a'] ∅, .edit (.document ['a']) {2}, .closeDocument ['a'], .dispose, .write 0 0,
        .saved 0] _ _ rfl
    have hlost := h _ hrun rfl
    revert hlost
    decide +kernel

end Witnesses

end Runs

end Savoire.EdgesyncVaultSession
