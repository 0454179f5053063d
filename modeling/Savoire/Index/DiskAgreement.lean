import Savoire.Index.DesktopIndexer

/-! The index agrees with the disk once the indexer is quiet: each document is signed and indexed as it is, or a
change that is still to be told, or the pass in progress, brings it back. -/
namespace Savoire.DesktopVaultIndexer
open Transition

variable {C : Type*}

section Statements
variable (host : Host C) (s : State C)

/-- The source of a document that is to be indexed, as it is now. -/
def State.cur (id : Text) : Option Sig := ((s.directory.get id).filter host.indexable).map (s.sigOf host id)

/-- A full pass is announced. -/
def State.FullDue : Prop := s.directoryChanged = true ∨ s.fullPending = true

/-- The index has what the signature stands for, or a later text of the editor. -/
def Matched (id : Text) (sig : Sig) : Prop :=
  s.unsaved id ≠ none ∨ ∀ v ∈ sig.version, ∀ c ∈ host.note sig.path v, ∃ e ∈ s.index.get id,
    e.1 = sig.path ∧ (e.2 = c ∨ s.texts id = some e.2)

def ReadOk (r : Job × Option C) : Prop :=
  s.unsaved r.1.id ≠ none ∨ ∀ v ∈ r.1.sig.version, ∀ c ∈ host.note r.1.sig.path v, r.2 = some c

/-- Nothing is undelivered, armed or queued, and the open notes have been projected. -/
structure Quiet : Prop where
  watch : s.watch = []
  directory : s.directoryChanged = false
  timer : s.timer = false
  queue : s.queue = []
  running : s.running = none
  saved : ∀ id, s.unsaved id = none
  projected : ∀ id sig, s.cur host id = some sig → ∀ v ∈ sig.version, ∀ e ∈ s.index.get id,
    s.texts id = some e.2 → host.note sig.path v = some e.2

/-- Each document that has a source is indexed and signed as it is, no other is in the index, and a first
construction that went through is marked. -/
structure Agrees : Prop where
  indexed : ∀ id sig, s.cur host id = some sig → ∀ v ∈ sig.version, ∀ c ∈ host.note sig.path v,
    s.index.get id = some (sig.path, c)
  signed : ∀ id sig, s.cur host id = some sig → sig.version ≠ none → s.stored.get id = some sig
  only : ∀ id, s.cur host id = none → s.index.get id = none ∧ s.stored.get id = none
  built : s.rebuildRequired = true → s.first = false → s.built = true

def Touches (sig : Sig) (id : Text) : Change → Prop
  | .file path => host.isText sig.path = true ∧ path = sig.path
  | .state id' => host.isText sig.path = false ∧ id' = id

/-- A pass is announced that will look at the document. -/
def EventDue (id : Text) : Prop :=
  s.FullDue ∨ ∃ sig, s.cur host id = some sig ∧ ∃ e ∈ s.watch ++ s.changed, Touches host sig id e

def Stage.reads : Stage C → List (Job × Option C)
  | .reading _ _ _ reads => reads
  | _ => []

def Stage.jobs : Stage C → List Job
  | .comparing docs => docs
  | .removing jobs _ => jobs
  | .statting _ _ _ jobs => jobs
  | .reading _ todo chunk reads => todo ++ (chunk ++ reads.map Prod.fst)
  | _ => []

/-- The pass in progress will index the document with this signature. -/
def PassDue (id : Text) (sig : Sig) : Stage C → Prop
  | .listing => True
  | .signing docs paths => (id, sig.path) ∈ docs ∧ ∃ e ∈ paths, Touches host sig id e
  | .statting docs paths seen jobs =>
    ⟨id, sig⟩ ∈ jobs ∨ (id ∉ seen ∧ (id, sig.path) ∈ docs ∧ ∃ e ∈ paths, Touches host sig id e)
  | stage => ⟨id, sig⟩ ∈ stage.jobs

def PassGone (id : Text) : Stage C → Prop
  | .listing => True
  | .comparing docs => ∀ job ∈ docs, job.id ≠ id
  | .removing _ gone => id ∈ gone
  | _ => False

def Stage.isInitial : Stage C → Bool
  | .reading initial _ _ _ => initial
  | .marking => true
  | _ => false

/-- The documents that the write in progress changes. -/
def Stage.written : Stage C → List Text
  | .removing _ gone => gone
  | .reading _ _ _ reads => reads.map fun r => r.1.id
  | _ => []

/-- No document is back at a version whose signature stands, or is about to stand, for another content. -/
def NoReturn : Prop :=
  (∀ e ∈ s.stored.entries, s.cur host e.1 = some e.2 → Matched host s e.1 e.2) ∧
    ∀ stage ∈ s.running, ∀ r ∈ stage.reads, s.cur host r.1.id = some r.1.sig → ReadOk host s r

def UniquePaths : Prop := (((s.docs host).map Prod.snd).filter host.isText).Nodup

/-- A text of the editor is indexed under the path of its document, or a pass will bring it back. -/
def Stage.Placed : Stage C → Prop
  | .noteText id path _ => (∀ sig ∈ s.cur host id, path = sig.path ∨ s.stored.get id ≠ some sig) ∧
    (s.cur host id = none → s.FullDue)
  | _ => True

/-- The pass may fail here: another one is announced for what it was still to index or to remove. -/
structure Spared (stage : Stage C) : Prop where
  due : ∀ id sig, s.cur host id = some sig → sig.version ≠ none → PassDue host id sig stage →
    s.stored.get id = some sig ∨ EventDue host s id
  gone : ∀ id, s.cur host id = none → PassGone id stage →
    (s.index.get id = none ∧ s.stored.get id = none) ∨ s.FullDue
  built : stage.isInitial = true → s.rebuildRequired = true → s.built = true

/-- A write that is done although it fails changes no document that is signed as it is. -/
def Unsigned (stage : Stage C) : Prop :=
  ∀ id ∈ stage.written, ∀ sig, s.cur host id = some sig → s.stored.get id ≠ some sig

/-- The source of the next changed path may fail to be found: its document has none, or is announced again. -/
def Stage.StatSpared : Stage C → Prop
  | .statting docs (path :: _) _ _ => ∀ d ∈ docOf host docs path, ∀ sig, s.cur host d.1 = some sig →
    sig.version ≠ none → EventDue host s d.1
  | _ => True

/-- The document may fail to be read: its source is another one, or it is announced again. -/
def Stage.ReadSpared (k : Nat) : Stage C → Prop
  | .reading _ _ chunk _ => ∀ job ∈ chunk[k]?, s.cur host job.id = some job.sig → job.sig.version ≠ none →
    EventDue host s job.id
  | _ => True

/-- A read or a write fails only where another pass is announced for what it leaves, the texts of the editor are
placed, and no source comes back to a version that was signed over another content. -/
def Clear : Event C → Prop
  | .listed ok | .compared ok | .signed ok | .marked ok => ok = true ∨ ∀ stage ∈ s.running, Spared host s stage
  | .removed ok written | .applied ok written => ok = true ∨
    ∀ stage ∈ s.running, Spared host s stage ∧ (written = true → Unsigned host s stage)
  | .statted ok => ok = true ∨ ∀ stage ∈ s.running, stage.StatSpared host s
  | .read k ok => ok = true ∨ ∀ stage ∈ s.running, stage.ReadSpared host s k
  | .noteApplied ok => ok = true → ∀ stage ∈ s.running, stage.Placed host s
  | e => ∀ s' ∈ s.world e, NoReturn host s' ∧ UniquePaths host s'

def StageInv : Stage C → Prop
  | .comparing docs => ∀ id, (∀ job ∈ docs, job.id ≠ id) → s.cur host id = none ∨ s.FullDue
  | .removing _ gone => ∀ id ∈ gone, s.cur host id = none ∨ s.FullDue
  | .signing docs _ => docs = s.docs host ∨ s.FullDue
  | .statting docs _ seen jobs => (docs = s.docs host ∨ s.FullDue) ∧ (∀ job ∈ jobs, job.id ∈ seen) ∧
    ∀ id ∈ seen, ∀ sig, s.cur host id = some sig → s.stored.get id = some sig ∨ ⟨id, sig⟩ ∈ jobs ∨ EventDue host s id
  | .reading _ _ _ reads => ∀ r ∈ reads, s.cur host r.1.id = some r.1.sig → ReadOk host s r
  | _ => True

structure Inv : Prop where
  unique : UniquePaths host s
  flags : s.fullPending = true ∨ s.changed ≠ [] → s.timer = true ∨ .flush ∈ s.queue
  matched : ∀ id sig, s.cur host id = some sig → s.stored.get id = some sig → Matched host s id sig
  due : ∀ id sig, s.cur host id = some sig → sig.version ≠ none →
    s.stored.get id = some sig ∨ EventDue host s id ∨ ∃ stage ∈ s.running, PassDue host id sig stage
  gone : ∀ id, s.cur host id = none →
    (s.index.get id = none ∧ s.stored.get id = none) ∨ s.FullDue ∨ ∃ stage ∈ s.running, PassGone id stage
  jobs : ∀ stage ∈ s.running, ∀ job ∈ stage.jobs, s.cur host job.id = some job.sig ∨ EventDue host s job.id
  nodup : ∀ stage ∈ s.running, (stage.jobs.map Job.id).Nodup
  stage : ∀ stage ∈ s.running, StageInv host s stage
  built : s.rebuildRequired = true → s.first = false → s.built = true ∨ ∃ stage ∈ s.running, stage.isInitial = true

end Statements

section Steps
variable {host : Host C} {s s' : State C} {id : Text} {sig : Sig}

theorem cur_eq_some : s.cur host id = some sig ↔
    ∃ path, s.directory.get id = some path ∧ host.indexable path = true ∧ s.sigOf host id path = sig := by
  simp only [State.cur, Option.map_eq_some_iff, Option.filter_eq_some_iff, and_assoc]

theorem cur_path (h : s.cur host id = some sig) : (id, sig.path) ∈ s.docs host := by
  obtain ⟨path, hget, hind, rfl⟩ := cur_eq_some.mp h
  exact List.mem_filter.mpr ⟨KeyedMap.mem_iff.mpr hget, hind⟩

theorem mem_docs {path : Text} : (id, path) ∈ s.docs host ↔ s.cur host id = some (s.sigOf host id path) := by
  constructor
  · intro h
    obtain ⟨hmem, hind⟩ := List.mem_filter.mp h
    exact cur_eq_some.mpr ⟨path, KeyedMap.mem_iff.mp hmem, hind, rfl⟩
  · exact cur_path

theorem Inv.agrees (h : Inv host s) (hq : Quiet host s) : Agrees host s := by
  have hpending : s.fullPending = false ∧ s.changed = [] := by
    by_contra hne
    have hflag : s.fullPending = true ∨ s.changed ≠ [] := by
      by_cases hp : s.fullPending = true
      · exact .inl hp
      · exact .inr fun hc => hne ⟨Bool.eq_false_iff.mpr hp, hc⟩
    rcases h.flags hflag with ht | hf
    · rw [hq.timer] at ht
      cases ht
    · rw [hq.queue] at hf
      cases hf
  have hfull : ¬ s.FullDue := by
    rintro (hd | hp)
    · rw [hq.directory] at hd
      cases hd
    · rw [hpending.1] at hp
      cases hp
  have hnone : ∀ {P : Stage C → Prop}, ¬ ∃ stage ∈ s.running, P stage := by
    rintro P ⟨stage, hrun, -⟩
    rw [hq.running] at hrun
    cases hrun
  have hevent : ∀ id, ¬ EventDue host s id := by
    rintro id (hf | ⟨sig, -, e, he, -⟩)
    · exact hfull hf
    · rw [hq.watch, hpending.2] at he
      cases he
  have hsigned : ∀ id sig, s.cur host id = some sig → sig.version ≠ none → s.stored.get id = some sig := by
    intro id sig hcur hv
    rcases h.due id sig hcur hv with hst | hev | hpass
    · exact hst
    · exact absurd hev (hevent id)
    · exact absurd hpass hnone
  refine ⟨?_, hsigned, ?_, ?_⟩
  · intro id sig hcur v hv c hc
    have hst := hsigned id sig hcur (by rw [hv]; exact Option.some_ne_none v)
    rcases h.matched id sig hcur hst with hun | hm
    · exact absurd (hq.saved id) hun
    · obtain ⟨⟨path, c'⟩, he, rfl, hcontent⟩ := hm v hv c hc
      rcases hcontent with rfl | htext
      · exact he
      · have hproj := hq.projected id sig hcur v hv _ he htext
        obtain rfl : c' = c := Option.some.inj (hproj.symm.trans hc)
        exact he
  · intro id hcur
    rcases h.gone id hcur with hrest | hf | hpass
    · exact hrest
    · exact absurd hf hfull
    · exact absurd hpass hnone
  · intro hreq hfirst
    exact (h.built hreq hfirst).resolve_right hnone

theorem EventDue.mono (h : EventDue host s id) (hcur : s'.cur host id = s.cur host id)
    (hfull : s.FullDue → s'.FullDue) (hev : s.watch ++ s.changed ⊆ s'.watch ++ s'.changed) : EventDue host s' id := by
  rcases h with hf | ⟨sig, hsig, e, he, ht⟩
  · exact .inl (hfull hf)
  · exact .inr ⟨sig, hcur.trans hsig, e, hev he, ht⟩

theorem NoReturn.matched (h : NoReturn host s) (hcur : s.cur host id = some sig) (hst : s.stored.get id = some sig) :
    Matched host s id sig :=
  h.1 (id, sig) (KeyedMap.mem_iff.mpr hst) hcur

/-- A change of the world that a full pass, or a pass on what it touches, will look at. -/
theorem Inv.world (h : Inv host s) {files : Text → Option Nat} {states : Text → Nat} {unsaved : Text → Option Nat}
    {directory : KeyedMap Text Text} {watch : List Change} {directoryChanged : Bool}
    (hs : s' = { s with files, states, unsaved, directory, watch, directoryChanged })
    (hclear : NoReturn host s' ∧ UniquePaths host s') (hwatch : s.watch ⊆ watch)
    (hfull : s.directoryChanged = true → directoryChanged = true)
    (hcur : (directory = s.directory ∧ ∀ id, s'.cur host id = s.cur host id ∨ ∃ sig, s'.cur host id = some sig ∧
      ∃ e ∈ watch, Touches host sig id e) ∨ directoryChanged = true) : Inv host s' := by
  obtain ⟨hret, hunique⟩ := hclear
  have hdue : s.FullDue → s'.FullDue := by
    subst hs
    exact Or.imp_left hfull
  have hsub : s.watch ++ s.changed ⊆ s'.watch ++ s'.changed := by
    subst hs
    exact List.append_subset.mpr ⟨fun e he => List.mem_append_left _ (hwatch he), List.subset_append_right _ _⟩
  have hmatched : ∀ id sig, s'.cur host id = some sig → s'.stored.get id = some sig → Matched host s' id sig :=
    fun id sig => hret.matched
  have hreads : ∀ stage ∈ s'.running, ∀ r ∈ stage.reads, s'.cur host r.1.id = some r.1.sig → ReadOk host s' r := hret.2
  rcases hcur with ⟨hdir, hcur⟩ | hdir
  · have hevent : ∀ id, s'.cur host id = s.cur host id ∨ EventDue host s' id := by
      intro id
      refine (hcur id).imp_right ?_
      rintro ⟨sig, hsig, e, he, ht⟩
      subst hs
      exact .inr ⟨sig, hsig, e, List.mem_append_left _ he, ht⟩
    have hkept : ∀ id, EventDue host s id → EventDue host s' id := by
      intro id hev
      rcases hevent id with heq | hev'
      · exact hev.mono heq hdue hsub
      · exact hev'
    have hnone : ∀ id, s'.cur host id = none ↔ s.cur host id = none := by
      intro id
      subst hs
      simp only [State.cur, hdir, Option.map_eq_none_iff]
    have hdocs : s'.docs host = s.docs host := by
      subst hs
      simp only [State.docs, hdir]
    refine ⟨hunique, ?_, hmatched, ?_, ?_, ?_, ?_, ?_, ?_⟩
    · subst hs
      exact h.flags
    · intro id sig hsig hv
      rcases hevent id with heq | hev
      · have hold := h.due id sig (heq ▸ hsig) hv
        have hstored : s'.stored = s.stored := by
          subst hs
          rfl
        have hrunning : s'.running = s.running := by
          subst hs
          rfl
        rw [hstored, hrunning]
        exact hold.imp_right (Or.imp_left (hkept id))
      · exact .inr (.inl hev)
    · intro id hid
      have hold := h.gone id ((hnone id).mp hid)
      subst hs
      exact hold.imp_right (Or.imp_left hdue)
    · intro stage hrun job hjob
      have hold := h.jobs stage (by subst hs; exact hrun) job hjob
      rcases hevent job.id with heq | hev
      · rw [heq]
        exact hold.imp_right (hkept job.id)
      · exact .inr hev
    · subst hs
      exact h.nodup
    · intro stage hrun
      have hold := h.stage stage (by subst hs; exact hrun)
      have hr := hreads stage hrun
      cases stage with
      | comparing docs => exact fun id hid => ((hold id hid).imp (hnone id).mpr hdue)
      | removing jobs gone => exact fun id hid => ((hold id hid).imp (hnone id).mpr hdue)
      | signing docs paths => exact hold.imp (fun heq => heq.trans hdocs.symm) hdue
      | statting docs paths seen jobs =>
        obtain ⟨hd, hjobs, hseen⟩ := hold
        refine ⟨hd.imp (fun heq => heq.trans hdocs.symm) hdue, hjobs, fun id hid sig hsig => ?_⟩
        rcases hevent id with heq | hev
        · have hst := hseen id hid sig (heq ▸ hsig)
          have hstored : s'.stored = s.stored := by
            subst hs
            rfl
          rw [hstored]
          exact hst.imp_right (Or.imp_right (hkept id))
        · exact .inr (.inr hev)
      | reading initial todo chunk reads => exact hr
      | _ => trivial
    · subst hs
      exact h.built
  · have hf : s'.FullDue := by
      subst hs
      exact .inl hdir
    refine ⟨hunique, ?_, hmatched, fun _ _ _ _ => .inr (.inl (.inl hf)), fun _ _ => .inr (.inl hf),
      fun _ _ _ _ => .inr (.inl hf), ?_, ?_, ?_⟩
    · subst hs
      exact h.flags
    · subst hs
      exact h.nodup
    · intro stage hrun
      have hold := h.stage stage (by subst hs; exact hrun)
      have hr := hreads stage hrun
      cases stage with
      | comparing docs => exact fun _ _ => .inr hf
      | removing jobs gone => exact fun _ _ => .inr hf
      | signing docs paths => exact .inr hf
      | statting docs paths seen jobs =>
        exact ⟨.inr hf, hold.2.1, fun id _ sig _ => .inr (.inr (.inl hf))⟩
      | reading initial todo chunk reads => exact hr
      | _ => trivial
    · subst hs
      exact h.built

theorem cur_onDisk {files : Text → Option Nat} {states : Text → Nat} (unsaved : Text → Option Nat)
    {changes : List Change} (hfiles : ∀ path, files path = s.files path ∨ .file path ∈ changes)
    (hstates : ∀ id, states id = s.states id ∨ .state id ∈ changes) (id : Text) :
    (s.onDisk files states unsaved changes).cur host id = s.cur host id ∨
      ∃ sig, (s.onDisk files states unsaved changes).cur host id = some sig ∧
        ∃ e ∈ s.watch ++ changes, Touches host sig id e := by
  simp only [State.cur]
  cases hget : (s.directory.get id).filter host.indexable with
  | none =>
    rw [show (s.onDisk files states unsaved changes).directory = s.directory from rfl, hget]
    exact .inl rfl
  | some path =>
    rw [show (s.onDisk files states unsaved changes).directory = s.directory from rfl, hget, Option.map_some,
      Option.map_some]
    cases htext : host.isText path with
    | true =>
      rcases hfiles path with heq | hmem
      · exact .inl (by simp [State.sigOf, State.onDisk, htext, heq])
      · exact .inr ⟨_, rfl, _, List.mem_append_right _ hmem, htext, rfl⟩
    | false =>
      rcases hstates id with heq | hmem
      · exact .inl (by simp [State.sigOf, State.onDisk, htext, heq])
      · exact .inr ⟨_, rfl, _, List.mem_append_right _ hmem, htext, rfl⟩

theorem Inv.onDisk (h : Inv host s) {files : Text → Option Nat} {states : Text → Nat} {unsaved : Text → Option Nat}
    {changes : List Change} (hclear : NoReturn host (s.onDisk files states unsaved changes) ∧
      UniquePaths host (s.onDisk files states unsaved changes))
    (hfiles : ∀ path, files path = s.files path ∨ .file path ∈ changes)
    (hstates : ∀ id, states id = s.states id ∨ .state id ∈ changes) :
    Inv host (s.onDisk files states unsaved changes) :=
  @Inv.world C host s _ h files states unsaved s.directory (s.watch ++ changes) s.directoryChanged rfl hclear
    (List.subset_append_left _ _) id (.inl ⟨rfl, cur_onDisk unsaved hfiles hstates⟩)

theorem update_or_mem {α β : Type*} [DecidableEq α] {f : α → β} {a : α} {b : β} {l : List Change} {k : α → Change}
    (h : k a ∈ l) (x : α) : Function.update f a b x = f x ∨ k x ∈ l := by
  by_cases hx : x = a
  · exact .inr (hx ▸ h)
  · exact .inl (Function.update_of_ne hx b f)

theorem world_inv (h : Inv host s) {e : Event C} (hclear : ∀ s' ∈ s.world e, NoReturn host s' ∧ UniquePaths host s')
    (hstep : s.world e = some s') : Inv host s' := by
  have hc := hclear s' hstep
  cases e with
  | write path version =>
    obtain rfl := Option.some.inj hstep
    exact h.onDisk hc (update_or_mem (k := .file) List.mem_cons_self) fun _ => .inl rfl
  | remove path =>
    obtain rfl := Option.some.inj hstep
    exact h.onDisk hc (update_or_mem (k := .file) List.mem_cons_self) fun _ => .inl rfl
  | rename source target =>
    simp only [State.world, Option.ite_none_left_eq_some, Option.some.injEq] at hstep
    obtain ⟨-, rfl⟩ := hstep
    refine h.onDisk hc (fun path => ?_) fun _ => .inl rfl
    by_cases hs : path = source
    · exact .inr (by simp [hs])
    · rw [Function.update_of_ne hs]
      exact update_or_mem (k := .file) (by simp) path
  | writeState id version =>
    obtain rfl := Option.some.inj hstep
    exact h.onDisk hc (fun _ => .inl rfl) (update_or_mem (k := .state) List.mem_cons_self)
  | edit id version =>
    simp only [State.world, Option.ite_none_left_eq_some, Option.some.injEq] at hstep
    obtain ⟨-, rfl⟩ := hstep
    exact @Inv.world C host s _ h s.files s.states _ s.directory s.watch s.directoryChanged rfl hc (fun _ he => he)
      (fun hd => hd) (.inl ⟨rfl, fun _ => .inl rfl⟩)
  | project id =>
    simp only [State.world] at hstep
    split at hstep
    · cases hstep
    · obtain rfl := Option.some.inj hstep
      exact h.onDisk hc (fun _ => .inl rfl) (update_or_mem (k := .state) List.mem_cons_self)
  | directory docs =>
    obtain rfl := Option.some.inj hstep
    exact @Inv.world C host s _ h s.files s.states s.unsaved docs s.watch true rfl hc (fun _ he => he)
      (fun _ => rfl) (.inr rfl)
  | _ => cases hstep

end Steps

end Savoire.DesktopVaultIndexer
