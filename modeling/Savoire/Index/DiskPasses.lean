import Savoire.Index.DiskAgreement
import Mathlib.Data.List.Perm.Basic

/-! The passes keep the invariant: what a full pass compares, what a pass on changed files reads again, and the
texts of the editor in their queue. -/
namespace Savoire.DesktopVaultIndexer
open Transition

variable {C : Type*} {host : Host C} {s s' : State C} {id : Text} {sig : Sig} {stage : Stage C}

theorem EventDue.full (h : EventDue host s id) (hcur : s.cur host id = none) : s.FullDue := by
  rcases h with hf | ⟨sig, hsig, -⟩
  · exact hf
  · rw [hcur] at hsig
    cases hsig

variable {queue : List (Task C)}

theorem Inv.told (h : Inv host s) {watch changed : List Change} {directoryChanged fullPending timer : Bool}
    (hfull : s.FullDue → directoryChanged = true ∨ fullPending = true)
    (hsub : s.watch ++ s.changed ⊆ watch ++ changed)
    (hflags : fullPending = true ∨ changed ≠ [] → timer = true ∨ .flush ∈ queue) :
    Inv host { s with watch, changed, directoryChanged, fullPending, timer, queue } := by
  have hkept : ∀ id, EventDue host s id →
      EventDue host { s with watch, changed, directoryChanged, fullPending, timer, queue } id :=
    fun id hev => hev.mono rfl hfull hsub
  refine { h with flags := hflags, due := ?_, gone := ?_, jobs := ?_, stage := ?_ }
  · exact fun id sig hsig hv => (h.due id sig hsig hv).imp_right (Or.imp_left (hkept id))
  · exact fun id hid => (h.gone id hid).imp_right (Or.imp_left hfull)
  · exact fun stage hrun job hjob => (h.jobs stage hrun job hjob).imp_right (hkept job.id)
  · intro stage hrun
    have hold := h.stage stage hrun
    cases stage with
    | comparing docs => exact fun id hid => (hold id hid).imp_right hfull
    | removing jobs gone => exact fun id hid => (hold id hid).imp_right hfull
    | signing docs paths => exact Or.imp_right hfull hold
    | statting docs paths seen jobs =>
      obtain ⟨hdocs, hjobs, hseen⟩ := hold
      exact ⟨hdocs.imp_right hfull, hjobs, fun id hid sig hsig =>
        (hseen id hid sig hsig).imp_right (Or.imp_right (hkept id))⟩
    | reading initial todo chunk reads => exact hold
    | _ => trivial

theorem Inv.deliver (h : Inv host s) {k : Nat} {c : Change} (hk : s.watch[k]? = some c) :
    Inv host (State.schedule { s with watch := s.watch.eraseIdx k, changed := s.changed ++ [c] } false) := by
  refine h.told (Or.imp_right fun hp => by rw [hp]; rfl) ?_ fun _ => .inl rfl
  intro e he
  rcases List.mem_append.mp he with hw | hc
  · rcases mem_or_mem_eraseIdx hk hw with rfl | hrest
    · exact List.mem_append_right _ (List.mem_append_right _ List.mem_cons_self)
    · exact List.mem_append_left _ hrest
  · exact List.mem_append_right _ (List.mem_append_left _ hc)

variable {first : Bool}

theorem Inv.next (h : Inv host s) (hrun : s.running = some stage) {next : Option (Stage C)}
    (hdue : ∀ id sig, s.cur host id = some sig → sig.version ≠ none → PassDue host id sig stage →
      s.stored.get id = some sig ∨ EventDue host s id ∨ ∃ t ∈ next, PassDue host id sig t)
    (hgone : ∀ id, s.cur host id = none → PassGone id stage →
      (s.index.get id = none ∧ s.stored.get id = none) ∨ s.FullDue ∨ ∃ t ∈ next, PassGone id t)
    (hjobs : ∀ t ∈ next, ∀ job ∈ t.jobs, s.cur host job.id = some job.sig ∨ EventDue host s job.id)
    (hnodup : ∀ t ∈ next, (t.jobs.map Job.id).Nodup) (hstage : ∀ t ∈ next, StageInv host s t)
    (hbuilt : s.rebuildRequired = true → first = false → s.first = true ∨ stage.isInitial = true → s.built = true ∨
      ∃ t ∈ next, t.isInitial = true) : Inv host { s with first := first, running := next } := by
  have hsame : ∀ {P : Stage C → Prop}, (∃ t ∈ s.running, P t) → P stage := by
    rintro P ⟨t, ht, hP⟩
    rw [hrun] at ht
    obtain rfl := Option.some.inj ht
    exact hP
  refine { h with due := ?_, gone := ?_, jobs := hjobs, nodup := hnodup, stage := ?_, built := ?_ }
  · intro id sig hsig hv
    rcases h.due id sig hsig hv with hst | hev | hpass
    · exact .inl hst
    · exact .inr (.inl hev)
    · exact hdue id sig hsig hv (hsame hpass)
  · intro id hid
    rcases h.gone id hid with hrest | hf | hpass
    · exact .inl hrest
    · exact .inr (.inl hf)
    · exact hgone id hid (hsame hpass)
  · intro t ht
    have hnew := hstage t ht
    cases t with
    | _ => exact hnew
  · intro hreq hfirst
    by_cases hf : s.first = true
    · exact hbuilt hreq hfirst (.inl hf)
    · rcases h.built hreq (Bool.eq_false_iff.mpr hf) with hb | hpass
      · exact .inl hb
      · exact hbuilt hreq hfirst (.inr (hsame hpass))

theorem Inv.stop (h : Inv host s) (hrun : s.running = some stage) (hspared : Spared host s stage) :
    Inv host { s with running := none } := by
  refine h.next hrun (fun id sig hsig hv hpass => (hspared.due id sig hsig hv hpass).imp_right .inl)
    (fun id hid hpass => (hspared.gone id hid hpass).imp_right .inl) (by simp) (by simp) (by simp) ?_
  rintro hreq hfirst (hf | hi)
  · rw [hfirst] at hf
    cases hf
  · exact .inl (hspared.built hi hreq)

theorem Inv.goOn (h : Inv host s) (hrun : s.running = some stage) {t : Stage C}
    (hdue : ∀ id sig, s.cur host id = some sig → sig.version ≠ none → PassDue host id sig stage →
      s.stored.get id = some sig ∨ EventDue host s id ∨ PassDue host id sig t)
    (hgone : ∀ id, s.cur host id = none → PassGone id stage →
      (s.index.get id = none ∧ s.stored.get id = none) ∨ s.FullDue ∨ PassGone id t)
    (hjobs : ∀ job ∈ t.jobs, s.cur host job.id = some job.sig ∨ EventDue host s job.id)
    (hnodup : (t.jobs.map Job.id).Nodup) (hstage : StageInv host s t)
    (hbuilt : s.rebuildRequired = true → first = false → s.first = true ∨ stage.isInitial = true →
      s.built = true ∨ t.isInitial = true) : Inv host { s with first := first, running := some t } := by
  have honly : ∀ {P : Stage C → Prop}, P t → ∀ u ∈ some t, P u := by
    rintro P ht u hu
    obtain rfl := Option.some.inj hu
    exact ht
  refine h.next hrun ?_ ?_ (honly hjobs) (honly hnodup) (honly hstage) ?_
  · exact fun id sig hsig hv hpass => (hdue id sig hsig hv hpass).imp_right (Or.imp_right fun ht => ⟨t, rfl, ht⟩)
  · exact fun id hid hpass => (hgone id hid hpass).imp_right (Or.imp_right fun ht => ⟨t, rfl, ht⟩)
  · exact fun hreq hfirst hi => (hbuilt hreq hfirst hi).imp_right fun ht => ⟨t, rfl, ht⟩

variable {initial : Bool} {jobs : List Job}

theorem Inv.nextBatch (h : Inv host s) (hrun : s.running = some stage)
    (hdue : ∀ id sig, s.cur host id = some sig → sig.version ≠ none → PassDue host id sig stage →
      s.stored.get id = some sig ∨ EventDue host s id ∨ ⟨id, sig⟩ ∈ jobs)
    (hgone : ∀ id, s.cur host id = none → PassGone id stage →
      (s.index.get id = none ∧ s.stored.get id = none) ∨ s.FullDue)
    (hjobs : ∀ job ∈ jobs, s.cur host job.id = some job.sig ∨ EventDue host s job.id)
    (hnodup : (jobs.map Job.id).Nodup)
    (hbuilt : s.rebuildRequired = true → first = false → s.first = true ∨ stage.isInitial = true →
      initial = true) : Inv host (State.nextBatch host { s with first := first } initial jobs) := by
  have hsplit : (jobs.drop host.batchSize ++ (jobs.take host.batchSize ++ [])).Perm jobs := by
    rw [List.append_nil]
    exact List.perm_append_comm.trans (by rw [List.take_append_drop])
  unfold State.nextBatch
  split
  · rename_i hempty
    obtain rfl := List.isEmpty_iff.mp hempty
    have hnone : ∀ {id sig}, (⟨id, sig⟩ : Job) ∉ ([] : List Job) := List.not_mem_nil
    split
    · exact h.goOn hrun
        (fun id sig hsig hv hpass => (hdue id sig hsig hv hpass).imp_right (Or.imp_right fun hj => absurd hj hnone))
        (fun id hid hpass => (hgone id hid hpass).imp_right .inl) (by simp [Stage.jobs]) List.nodup_nil trivial
        (fun _ _ _ => .inr rfl)
    · rename_i hinitial
      exact h.next hrun
        (fun id sig hsig hv hpass => (hdue id sig hsig hv hpass).imp_right (Or.imp_right fun hj => absurd hj hnone))
        (fun id hid hpass => (hgone id hid hpass).imp_right .inl) (by simp) (by simp) (by simp)
        (fun hreq hfirst hi => absurd (hbuilt hreq hfirst hi) hinitial)
  · refine h.goOn hrun ?_ (fun id hid hpass => (hgone id hid hpass).imp_right .inl) ?_ ?_ ?_ ?_
    · exact fun id sig hsig hv hpass =>
        (hdue id sig hsig hv hpass).imp_right (Or.imp_right fun hmem => hsplit.mem_iff.mpr hmem)
    · exact fun job hjob => hjobs job (hsplit.mem_iff.mp hjob)
    · exact (hsplit.map Job.id).nodup_iff.mpr hnodup
    · exact fun r hr => absurd hr List.not_mem_nil
    · exact fun hreq hfirst hi => .inr (hbuilt hreq hfirst hi)

theorem Inv.wrote (h : Inv host s) {index : KeyedMap Text (Text × C)} {stored : KeyedMap Text Sig}
    {texts : Text → Option C}
    (hmatched : ∀ id sig, s.cur host id = some sig → stored.get id = some sig →
      Matched host { s with index, stored, texts } id sig)
    (hsigned : ∀ id sig, s.cur host id = some sig → s.stored.get id = some sig →
      stored.get id = some sig ∨ EventDue host s id)
    (hgone : ∀ id, s.cur host id = none → s.index.get id = none ∧ s.stored.get id = none →
      (index.get id = none ∧ stored.get id = none) ∨ s.FullDue) : Inv host { s with index, stored, texts } := by
  refine { h with matched := hmatched, due := ?_, gone := ?_, stage := ?_ }
  · intro id sig hsig hv
    rcases h.due id sig hsig hv with hst | hrest
    · exact (hsigned id sig hsig hst).imp_right .inl
    · exact .inr hrest
  · intro id hid
    rcases h.gone id hid with hnone | hrest
    · exact (hgone id hid hnone).imp_right .inl
    · exact .inr hrest
  · intro stage hrun
    have hold := h.stage stage hrun
    cases stage with
    | statting docs paths seen jobs =>
      obtain ⟨hdocs, hjobs, hseen⟩ := hold
      refine ⟨hdocs, hjobs, fun id hid sig hsig => ?_⟩
      rcases hseen id hid sig hsig with hst | hrest
      · exact (hsigned id sig hsig hst).imp_right .inr
      · exact .inr hrest
    | _ => exact hold

theorem Inv.listed (h : Inv host s) (hrun : s.running = some .listing) : Inv host { s with
    running := some (.comparing ((s.docs host).map fun d => ⟨d.1, s.sigOf host d.1 d.2⟩)) } := by
  have hmem : ∀ id sig, s.cur host id = some sig →
      (⟨id, sig⟩ : Job) ∈ (s.docs host).map fun d => (⟨d.1, s.sigOf host d.1 d.2⟩ : Job) := by
    intro id sig hsig
    have hdoc := cur_path hsig
    have hcur : s.cur host id = some (s.sigOf host id sig.path) := mem_docs.mp hdoc
    refine List.mem_map.mpr ⟨(id, sig.path), hdoc, ?_⟩
    rw [Option.some.inj (hsig.symm.trans hcur)]
    rfl
  have hjob : ∀ job ∈ (s.docs host).map fun d => (⟨d.1, s.sigOf host d.1 d.2⟩ : Job),
      s.cur host job.id = some job.sig := by
    intro job hjob
    obtain ⟨⟨id, path⟩, hd, rfl⟩ := List.mem_map.mp hjob
    exact mem_docs.mp hd
  refine h.goOn hrun ?_ ?_ ?_ ?_ ?_ ?_
  · exact fun id sig hsig _ _ => .inr (.inr (hmem id sig hsig))
  · intro id hid _
    refine .inr (.inr fun job hj heq => ?_)
    have hc := hjob job hj
    rw [heq, hid] at hc
    cases hc
  · exact fun job hj => .inl (hjob job hj)
  · simp only [Stage.jobs, List.map_map]
    exact s.directory.nodup.sublist (List.filter_sublist.map Prod.fst)
  · exact fun id hid => .inl (Option.eq_none_iff_forall_not_mem.mpr fun sig hsig => hid _ (hmem id sig hsig) rfl)
  · rintro - hfirst (hf | hi)
    · rw [hfirst] at hf
      cases hf
    · cases hi

variable {gone : List Text}

theorem Inv.compared (h : Inv host s) {docs : List Job} (hrun : s.running = some (.comparing docs))
    (hjobs : jobs = docs.filter fun job => s.stored.get job.id ≠ some job.sig)
    (hgone : gone = (s.stored.entries.map Prod.fst ++ s.index.entries.map Prod.fst).filter fun id =>
      !(docs.map Job.id).contains id) :
    Inv host (if gone.isEmpty then s.runFirst host jobs else { s with running := some (.removing jobs gone) }) := by
  have hkept : ∀ id sig, (⟨id, sig⟩ : Job) ∈ docs → s.stored.get id = some sig ∨ (⟨id, sig⟩ : Job) ∈ jobs := by
    intro id sig hmem
    by_cases hst : s.stored.get id = some sig
    · exact .inl hst
    · rw [hjobs]
      exact .inr (List.mem_filter.mpr ⟨hmem, by simpa using hst⟩)
  have hsub : jobs.Sublist docs := hjobs ▸ List.filter_sublist
  have hcur := fun job hj => h.jobs _ hrun job (hsub.subset hj)
  have hnodup : (jobs.map Job.id).Nodup := (h.nodup _ hrun).sublist (hsub.map Job.id)
  have habsent : ∀ id, id ∉ gone → PassGone id (.comparing docs : Stage C) →
      s.index.get id = none ∧ s.stored.get id = none := by
    intro id hid hpass
    have hout : (docs.map Job.id).contains id = false := by
      simpa [PassGone] using hpass
    have hkeys : id ∉ s.stored.entries.map Prod.fst ++ s.index.entries.map Prod.fst := by
      intro hk
      rw [hgone] at hid
      exact hid (List.mem_filter.mpr ⟨hk, by rw [hout]; rfl⟩)
    simp only [List.mem_append, KeyedMap.mem_keys, not_or, not_not] at hkeys
    exact ⟨hkeys.2, hkeys.1⟩
  split
  · rename_i hempty
    refine h.nextBatch hrun (fun id sig _ _ hpass => (hkept id sig hpass).imp_right .inr) ?_ hcur hnodup ?_
    · intro id _ hpass
      refine .inl (habsent id ?_ hpass)
      rw [List.isEmpty_iff.mp hempty]
      exact List.not_mem_nil
    · rintro hreq - (hf | hi)
      · rw [hf, hreq]
        rfl
      · cases hi
  · refine h.goOn hrun (fun id sig _ _ hpass => (hkept id sig hpass).imp_right .inr) ?_ hcur hnodup ?_ ?_
    · intro id _ hpass
      by_cases hid : id ∈ gone
      · exact .inr (.inr hid)
      · exact .inl (habsent id hid hpass)
    · intro id hid
      rw [hgone] at hid
      have hout : (docs.map Job.id).contains id = false := by simpa using (List.mem_filter.mp hid).2
      exact h.stage _ hrun id (by simpa using hout)
    · rintro - hfirst (hf | hi)
      · rw [hfirst] at hf
        cases hf
      · cases hi

theorem get_taken {e : Text × C} :
    (s.index.filter fun e => !gone.contains e.1).get id = some e ↔ s.index.get id = some e ∧ id ∉ gone := by
  rw [KeyedMap.get_filter]
  simp

theorem Inv.taken (h : Inv host s) (hrun : s.running = some (.removing jobs gone)) : Inv host { s with
      index := s.index.filter fun e => !gone.contains e.1
      stored := s.stored.filter fun e => !gone.contains e.1 } := by
  have hstored : ∀ id sig, (s.stored.filter fun e => !gone.contains e.1).get id = some sig ↔
      s.stored.get id = some sig ∧ id ∉ gone := by
    intro id sig
    rw [KeyedMap.get_filter]
    simp
  refine h.wrote ?_ ?_ ?_
  · intro id sig hsig hst
    obtain ⟨hst, hid⟩ := (hstored id sig).mp hst
    refine (h.matched id sig hsig hst).imp_right fun hm v hv c hc => ?_
    obtain ⟨e, he, hc⟩ := hm v hv c hc
    exact ⟨e, get_taken.mpr ⟨he, hid⟩, hc⟩
  · intro id sig hsig hst
    by_cases hid : id ∈ gone
    · rcases h.stage _ hrun id hid with hnone | hf
      · rw [hsig] at hnone
        cases hnone
      · exact .inr (.inl hf)
    · exact .inl ((hstored id sig).mpr ⟨hst, hid⟩)
  · rintro id - ⟨hi, hs⟩
    refine .inl ⟨Option.eq_none_iff_forall_not_mem.mpr fun e he => ?_,
      Option.eq_none_iff_forall_not_mem.mpr fun sig hsig => ?_⟩
    · rw [(get_taken.mp he).1] at hi
      cases hi
    · rw [((hstored id sig).mp hsig).1] at hs
      cases hs

theorem Inv.takenLost (h : Inv host s)
    (hrun : s.running = some (.removing jobs gone)) (hspared : Spared host s (.removing jobs gone : Stage C))
    (hunsigned : Unsigned host s (.removing jobs gone : Stage C)) : Inv host { s with
      index := s.index.filter fun e => !gone.contains e.1, running := none } := by
  refine (h.stop hrun hspared).wrote ?_ (fun id sig _ hst => .inl hst) ?_
  · intro id sig hsig hst
    refine (h.matched id sig hsig hst).imp_right fun hm v hv c hc => ?_
    obtain ⟨e, he, hc⟩ := hm v hv c hc
    exact ⟨e, get_taken.mpr ⟨he, fun hid => hunsigned id hid sig hsig hst⟩, hc⟩
  · rintro id - ⟨hi, hs⟩
    refine .inl ⟨Option.eq_none_iff_forall_not_mem.mpr fun e he => ?_, hs⟩
    rw [(get_taken.mp he).1] at hi
    cases hi

theorem Inv.removed (h : Inv host s)
    (hrun : s.running = some (.removing jobs gone)) : Inv host (State.runFirst host { s with
      index := s.index.filter fun e => !gone.contains e.1
      stored := s.stored.filter fun e => !gone.contains e.1 } jobs) := by
  have htaken := h.taken hrun
  refine htaken.nextBatch hrun (fun id sig _ _ hpass => .inr (.inr hpass)) ?_ (htaken.jobs _ hrun)
    (htaken.nodup _ hrun) ?_
  · intro id _ hpass
    have hout : (!gone.contains id) = false := by simpa [PassGone] using hpass
    refine .inl ⟨Option.eq_none_iff_forall_not_mem.mpr fun e he => ?_,
      Option.eq_none_iff_forall_not_mem.mpr fun sig hsig => ?_⟩
    · rw [(KeyedMap.get_filter.mp he).2] at hout
      cases hout
    · rw [(KeyedMap.get_filter.mp hsig).2] at hout
      cases hout
  · rintro hreq - (hf | hi)
    · exact Bool.and_eq_true_iff.mpr ⟨hf, hreq⟩
    · cases hi

variable {docs : List (Text × Text)} {paths : List Change}

theorem Inv.signed (h : Inv host s) (hrun : s.running = some (.signing docs paths)) :
    Inv host { s with running := some (.statting docs paths [] []) } := by
  refine h.goOn hrun ?_ (fun id _ hpass => hpass.elim) (fun job hj => absurd hj List.not_mem_nil) List.nodup_nil ?_ ?_
  · exact fun id sig _ _ hpass => .inr (.inr (.inr ⟨List.not_mem_nil, hpass⟩))
  · exact ⟨h.stage _ hrun, fun job hj => absurd hj List.not_mem_nil, fun id hid => absurd hid List.not_mem_nil⟩
  · rintro - hfirst (hf | hi)
    · rw [hfirst] at hf
      cases hf
    · cases hi

theorem find?_unique {α : Type*} {l : List α} {p : α → Bool} {a : α} (hmem : a ∈ l) (hp : p a = true)
    (hunique : ∀ b ∈ l, p b = true → b = a) : l.find? p = some a := by
  cases hf : l.find? p with
  | none => exact absurd hp (List.find?_eq_none.mp hf a hmem)
  | some b => rw [hunique b (List.mem_of_find?_eq_some hf) (List.find?_some hf)]

theorem docOf_touches (h : UniquePaths host s) (hsig : s.cur host id = some sig) {e : Change}
    (he : Touches host sig id e) : docOf host (s.docs host) e = some (id, sig.path) := by
  have hmem := cur_path hsig
  cases e with
  | file path =>
    obtain ⟨htext, rfl⟩ := he
    have hnodup : (((s.docs host).filter fun d => host.isText d.2).map Prod.snd).Nodup := by
      rw [UniquePaths, List.filter_map] at h
      exact h
    have hfound : ((s.docs host).reverse.find? fun d => d.2 = sig.path) = some (id, sig.path) := by
      refine find?_unique (List.mem_reverse.mpr hmem) (by simp) fun d hd hpath => ?_
      have hpath : d.2 = sig.path := of_decide_eq_true hpath
      exact List.inj_on_of_nodup_map hnodup (List.mem_filter.mpr ⟨List.mem_reverse.mp hd, by rw [hpath, htext]⟩)
        (List.mem_filter.mpr ⟨hmem, htext⟩) hpath
    simp [docOf, hfound, htext]
  | state id' =>
    obtain ⟨htext, rfl⟩ := he
    have hnodup : ((s.docs host).map Prod.fst).Nodup := s.directory.nodup.sublist (List.filter_sublist.map Prod.fst)
    refine find?_unique hmem (by simp [htext]) fun d hd hid => ?_
    have hid : d.1 = id' := of_decide_eq_true (Bool.and_eq_true_iff.mp hid).1
    exact List.inj_on_of_nodup_map hnodup hd hmem hid

theorem stat_spec (docs : List (Text × Text)) (path : Change) (seen : List Text) (jobs : List Job) (ok : Bool) :
    ((∀ d ∈ docOf host docs path, d.1 ∈ seen) ∧ s.stat host docs path seen jobs ok = (seen, jobs)) ∨
    ∃ d sig, docOf host docs path = some d ∧ d.1 ∉ seen ∧ sig = (if ok then s.sigOf host d.1 d.2 else ⟨d.2, none⟩) ∧
      s.stat host docs path seen jobs ok =
        (d.1 :: seen, if s.stored.get d.1 = some sig then jobs else jobs ++ [⟨d.1, sig⟩]) := by
  unfold State.stat
  split
  · rename_i hnone
    exact .inl ⟨by simp [hnone], rfl⟩
  · rename_i d hd
    split
    · rename_i hseen
      exact .inl ⟨by simpa [hd] using hseen, rfl⟩
    · rename_i hseen
      exact .inr ⟨d, _, hd, hseen, rfl, rfl⟩

theorem docOf_mem {e : Change} {d : Text × Text} (h : docOf host docs e = some d) :
    d ∈ docs := by
  cases e with
  | file path => exact List.mem_reverse.mp (List.mem_of_find?_eq_some (Option.filter_eq_some_iff.mp h).1)
  | state id => exact List.mem_of_find?_eq_some h

variable {seen : List Text} {ok : Bool}

theorem Inv.found (h : Inv host s) {path : Change}
    (hrun : s.running = some (.statting docs (path :: paths) seen jobs))
    (hok : ok = true ∨ Stage.StatSpared host s (.statting docs (path :: paths) seen jobs))
    {d : Text × Text} (hd : docOf host docs path = some d) :
    s.cur host d.1 = some (if ok then s.sigOf host d.1 d.2 else ⟨d.2, none⟩) ∨ EventDue host s d.1 := by
  rcases (h.stage _ hrun).1 with rfl | hf
  · have hcur : s.cur host d.1 = some (s.sigOf host d.1 d.2) := mem_docs.mp (docOf_mem hd)
    rcases hok with rfl | hspared
    · exact .inl hcur
    · by_cases hv : (s.sigOf host d.1 d.2).version = none
      · have hnone : s.sigOf host d.1 d.2 = ⟨d.2, none⟩ := by
          rw [← hv]
          rfl
        rw [hcur, hnone, ite_self]
        exact .inl rfl
      · exact .inr (hspared d hd _ hcur hv)
  · exact .inr (.inl hf)

theorem Inv.statted (h : Inv host s) {path : Change}
    (hrun : s.running = some (.statting docs (path :: paths) seen jobs))
    (hok : ok = true ∨ Stage.StatSpared host s (.statting docs (path :: paths) seen jobs)) :
    Inv host { s with running := some (.statting docs paths (s.stat host docs path seen jobs ok).1
      (s.stat host docs path seen jobs ok).2) } := by
  obtain ⟨hdocs, hin, hseen⟩ := h.stage _ hrun
  have hcur := h.jobs _ hrun
  have hnodup := h.nodup _ hrun
  have hbuilt : s.rebuildRequired = true → s.first = false → s.first = true ∨ false = true →
      s.built = true ∨ false = true := by
    rintro - hfirst (hf | hi)
    · rw [hfirst] at hf
      cases hf
    · cases hi
  have htouched : ∀ id sig, s.cur host id = some sig → Touches host sig id path →
      docOf host docs path = some (id, sig.path) ∨ EventDue host s id := by
    intro id sig hsig ht
    rcases hdocs with rfl | hf
    · exact .inl (docOf_touches h.unique hsig ht)
    · exact .inr (.inl hf)
  rcases @stat_spec C host s docs path seen jobs ok with ⟨hold, heq⟩ | ⟨d, sig', hd, hnew, hsig', heq⟩
  · rw [heq]
    refine h.goOn hrun ?_ (fun id _ hpass => hpass.elim) hcur hnodup ⟨hdocs, hin, hseen⟩ hbuilt
    rintro id sig hsig - (hjob | ⟨hid, hmem, e, he, ht⟩)
    · exact .inr (.inr (.inl hjob))
    · rcases List.mem_cons.mp he with rfl | he
      · rcases htouched id sig hsig ht with hdoc | hev
        · exact absurd (hold _ hdoc) hid
        · exact .inr (.inl hev)
      · exact .inr (.inr (.inr ⟨hid, hmem, e, he, ht⟩))
  · rw [heq]
    have hfound : s.cur host d.1 = some sig' ∨ EventDue host s d.1 := hsig' ▸ h.found hrun hok hd
    have hsub : ∀ job ∈ jobs, job ∈ (if s.stored.get d.1 = some sig' then jobs else jobs ++ [⟨d.1, sig'⟩]) := by
      intro job hjob
      split
      · exact hjob
      · exact List.mem_append_left _ hjob
    have hnext : ∀ sig, s.cur host d.1 = some sig → s.stored.get d.1 = some sig ∨
        (⟨d.1, sig⟩ : Job) ∈ (if s.stored.get d.1 = some sig' then jobs else jobs ++ [⟨d.1, sig'⟩]) ∨
          EventDue host s d.1 := by
      intro sig hsig
      rcases hfound with hfound | hev
      · obtain rfl : sig = sig' := Option.some.inj (hsig.symm.trans hfound)
        split
        · rename_i hst
          exact .inl hst
        · exact .inr (.inl (List.mem_append_right _ List.mem_cons_self))
      · exact .inr (.inr hev)
    refine h.goOn hrun ?_ (fun id _ hpass => hpass.elim) ?_ ?_ ⟨hdocs, ?_, ?_⟩ hbuilt
    · rintro id sig hsig - (hjob | ⟨hid, hmem, e, he, ht⟩)
      · exact .inr (.inr (.inl (hsub _ hjob)))
      · by_cases hidd : id = d.1
        · subst hidd
          exact (hnext sig hsig).imp_right fun hrest => hrest.symm.imp_right .inl
        · rcases List.mem_cons.mp he with rfl | he
          · rcases htouched id sig hsig ht with hdoc | hev
            · rw [hd] at hdoc
              exact absurd (congrArg Prod.fst (Option.some.inj hdoc)).symm hidd
            · exact .inr (.inl hev)
          · have hout : id ∉ d.1 :: seen := List.not_mem_cons_of_ne_of_not_mem hidd hid
            exact .inr (.inr (.inr ⟨hout, hmem, e, he, ht⟩))
    · intro job hjob
      split at hjob
      · exact hcur job hjob
      · rcases List.mem_append.mp hjob with hjob | hjob
        · exact hcur job hjob
        · obtain rfl := List.mem_singleton.mp hjob
          exact hfound
    · simp only [Stage.jobs]
      split
      · exact hnodup
      · rw [List.map_append]
        refine List.nodup_append.mpr ⟨hnodup, List.nodup_singleton _, ?_⟩
        rintro a ha b hb rfl
        obtain rfl := List.mem_singleton.mp hb
        obtain ⟨job, hjob, hid⟩ := List.mem_map.mp ha
        have hid : job.id = d.1 := hid
        exact hnew (hid ▸ hin job hjob)
    · intro job hjob
      split at hjob
      · exact List.mem_cons_of_mem _ (hin job hjob)
      · rcases List.mem_append.mp hjob with hjob | hjob
        · exact List.mem_cons_of_mem _ (hin job hjob)
        · obtain rfl := List.mem_singleton.mp hjob
          exact List.mem_cons_self
    · intro id hid sig hsig
      rcases List.mem_cons.mp hid with rfl | hid
      · exact hnext sig hsig
      · exact (hseen id hid sig hsig).imp_right (Or.imp_left (hsub _))

theorem Inv.readFound (h : Inv host s)
    (hrun : s.running = some (.statting docs [] seen jobs)) : Inv host (s.nextBatch host false jobs) := by
  refine h.nextBatch hrun ?_ (fun id _ hpass => hpass.elim) (h.jobs _ hrun) (h.nodup _ hrun) ?_
  · rintro id sig hsig - (hjob | ⟨-, -, e, he, -⟩)
    · exact .inr (.inr hjob)
    · cases he
  · rintro - hfirst (hf | hi)
    · rw [hfirst] at hf
      cases hf
    · cases hi

theorem read_spec {job : Job} (hcur : s.cur host job.id = some job.sig) :
    (s.read host job = none → job.sig.version = none) ∧
      ∀ input, s.read host job = some input → ReadOk host s (job, input) := by
  obtain ⟨path, -, -, hsig⟩ := cur_eq_some.mp hcur
  have hpath : path = job.sig.path := congrArg Sig.path hsig
  subst hpath
  have hversion : (if host.isText job.sig.path then s.files job.sig.path else some (s.states job.id)) =
      job.sig.version := congrArg Sig.version hsig
  unfold State.read ReadOk Host.note
  cases htext : host.isText job.sig.path with
  | true =>
    have hfile : s.files job.sig.path = job.sig.version := by simpa [htext] using hversion
    rw [if_pos rfl, hfile]
    refine ⟨Option.map_eq_none_iff.mp, fun input hinput => .inr fun v hv c hc => ?_⟩
    rw [show job.sig.version = some v from hv, Option.map_some] at hinput
    rw [htext, if_pos rfl] at hc
    exact (Option.some.inj hinput).symm.trans hc
  | false =>
    have hstate : some (s.states job.id) = job.sig.version := by simpa [htext] using hversion
    refine ⟨fun hnone => (Option.some_ne_none _ hnone).elim, fun input hinput => ?_⟩
    by_cases hun : s.unsaved job.id = none
    · refine .inr fun v hv c hc => ?_
      obtain rfl : s.states job.id = v := Option.some.inj (hstate.trans hv)
      rw [htext, if_neg Bool.false_ne_true] at hc
      rw [hun] at hinput
      exact (Option.some.inj hinput).symm.trans hc
    · exact .inl hun

variable {todo : List Job} {reads : List (Job × Option C)}

theorem Inv.read (h : Inv host s) {chunk : List Job}
    (hrun : s.running = some (.reading initial todo chunk reads)) {k : Nat} {job : Job} (hk : chunk[k]? = some job)
    (hok : ok = true ∨ Stage.ReadSpared host s k (.reading initial todo chunk reads)) :
    Inv host { s with running := some (.reading initial todo (chunk.eraseIdx k)
      (match if ok then s.read host job else none with
        | some input => reads ++ [(job, input)]
        | none => reads)) } := by
  have hperm : (job :: chunk.eraseIdx k).Perm chunk := by
    obtain ⟨hlt, rfl⟩ := List.getElem?_eq_some_iff.mp hk
    exact List.getElem_cons_eraseIdx_perm hlt
  have hbuilt : s.rebuildRequired = true → s.first = false → s.first = true ∨ initial = true →
      s.built = true ∨ initial = true := by
    rintro - hfirst (hf | hi)
    · rw [hfirst] at hf
      cases hf
    · exact .inr hi
  have hjobs := h.jobs _ hrun
  have hreads := h.stage _ hrun
  split
  · rename_i input hinput
    have hrest : (todo ++ (chunk.eraseIdx k ++ (reads ++ [(job, input)]).map Prod.fst)).Perm
        (todo ++ (chunk ++ reads.map Prod.fst)) := by
      rw [List.map_append, List.map_singleton]
      have hlast : (chunk.eraseIdx k ++ (reads.map Prod.fst ++ [job])).Perm
          (job :: (chunk.eraseIdx k ++ reads.map Prod.fst)) := by
        rw [← List.append_assoc]
        exact List.perm_append_singleton _ _
      exact (hlast.trans (hperm.append_right _)).append_left _
    refine h.goOn hrun ?_ (fun id _ hpass => hpass.elim) ?_ ?_ ?_ hbuilt
    · exact fun id sig _ _ hpass => .inr (.inr (hrest.mem_iff.mpr hpass))
    · exact fun j hj => hjobs j (hrest.mem_iff.mp hj)
    · exact (hrest.map Job.id).nodup_iff.mpr (h.nodup _ hrun)
    · intro r hr hcur
      rcases List.mem_append.mp hr with hr | hr
      · exact hreads r hr hcur
      · obtain rfl := List.mem_singleton.mp hr
        refine (read_spec hcur).2 input ?_
        split at hinput
        · exact hinput
        · cases hinput
  · rename_i hnone
    have hsub : (todo ++ (chunk.eraseIdx k ++ reads.map Prod.fst)).Sublist (todo ++ (chunk ++ reads.map Prod.fst)) :=
      ((List.eraseIdx_sublist chunk k).append_right _).append_left _
    refine h.goOn hrun ?_ (fun id _ hpass => hpass.elim) ?_ ?_ hreads hbuilt
    · intro id sig hsig hv hpass
      rcases List.mem_append.mp hpass with ht | hpass
      · exact .inr (.inr (List.mem_append_left _ ht))
      rcases List.mem_append.mp hpass with hc | hr
      · rcases List.mem_cons.mp (hperm.mem_iff.mpr hc) with rfl | hc
        · split at hnone
          · exact absurd ((read_spec hsig).1 hnone) hv
          · rename_i hne
            exact .inr (.inl ((hok.resolve_left hne) _ hk hsig hv))
        · exact .inr (.inr (List.mem_append_right _ (List.mem_append_left _ hc)))
      · exact .inr (.inr (List.mem_append_right _ (List.mem_append_right _ hr)))
    · exact fun j hj => hjobs j (hsub.subset hj)
    · exact (h.nodup _ hrun).sublist (hsub.map Job.id)

theorem get_applySigs {stored : KeyedMap Text Sig}
    (h : (reads.map fun r => r.1.id).Nodup) : (applySigs stored reads).get id = some sig ↔
      (∃ r ∈ reads, r.1.id = id ∧ r.1.sig = sig) ∨ (id ∉ reads.map (fun r => r.1.id) ∧ stored.get id = some sig) :=
  KeyedMap.get_foldl_set (fun r : Job × Option C => r.1.id) (fun r => r.1.sig) h stored

theorem get_applyInputs_of_not_mem (index : KeyedMap Text (Text × C))
    (h : id ∉ reads.map fun r => r.1.id) : (applyInputs index reads).get id = index.get id := by
  induction reads generalizing index with
  | nil => rfl
  | cons r reads ih =>
    obtain ⟨hne, hrest⟩ := not_or.mp (mt List.mem_cons.mpr h)
    unfold applyInputs
    rw [List.foldl_cons]
    refine (ih _ hrest).trans ?_
    split
    · exact KeyedMap.get_set_ne hne
    · rfl

theorem get_applyInputs (index : KeyedMap Text (Text × C))
    (h : (reads.map fun r => r.1.id).Nodup) {r : Job × Option C} (hr : r ∈ reads) {c : C} (hc : r.2 = some c) :
    (applyInputs index reads).get r.1.id = some (r.1.sig.path, c) := by
  induction reads generalizing index with
  | nil => cases hr
  | cons q reads ih =>
    obtain ⟨hnew, hrest⟩ := List.nodup_cons.mp h
    rcases List.mem_cons.mp hr with rfl | hr
    · refine (get_applyInputs_of_not_mem _ hnew).trans ?_
      simp only [hc]
      exact KeyedMap.get_set_self
    · exact ih _ hrest hr

section
variable (h : Inv host s)
include h

section
variable (hrun : s.running = some (.reading initial todo [] reads))
include hrun

theorem Inv.batch_ids : (reads.map fun r => r.1.id).Nodup := by
  have hsub : (reads.map Prod.fst).Sublist (Stage.reading initial todo [] reads).jobs :=
    List.sublist_append_right todo _
  have hnodup := (h.nodup _ hrun).sublist (hsub.map Job.id)
  rw [List.map_map] at hnodup
  exact hnodup

theorem Inv.batch_job {r : Job × Option C} (hr : r ∈ reads) :
    s.cur host r.1.id = some r.1.sig ∨ EventDue host s r.1.id :=
  h.jobs _ hrun r.1 (List.mem_append_right _ (List.mem_append_right _ (List.mem_map.mpr ⟨r, hr, rfl⟩)))

theorem Inv.batch_gone (hcur : s.cur host id = none)
    (hid : id ∈ reads.map fun r => r.1.id) : s.FullDue := by
  obtain ⟨r, hr, rfl⟩ := List.mem_map.mp hid
  rcases h.batch_job hrun hr with hsome | hev
  · rw [hcur] at hsome
    cases hsome
  · exact hev.full hcur

theorem Inv.batch : Inv host { s with
      index := applyInputs s.index reads, stored := applySigs s.stored reads } := by
  have hids := h.batch_ids hrun
  refine h.wrote ?_ ?_ ?_
  · intro id sig hsig hst
    rcases (get_applySigs hids).mp hst with ⟨r, hr, rfl, rfl⟩ | ⟨hid, hst⟩
    · refine (h.stage _ hrun r hr hsig).imp_right fun hc v hv c hnote => ?_
      exact ⟨_, get_applyInputs s.index hids hr (hc v hv c hnote), rfl, .inl rfl⟩
    · refine (h.matched id sig hsig hst).imp_right fun hm => ?_
      rw [get_applyInputs_of_not_mem _ hid]
      exact hm
  · intro id sig hsig hst
    by_cases hid : id ∈ reads.map fun r => r.1.id
    · obtain ⟨r, hr, rfl⟩ := List.mem_map.mp hid
      refine (h.batch_job hrun hr).imp_left fun hcur => (get_applySigs hids).mpr (.inl ⟨r, hr, rfl, ?_⟩)
      exact Option.some.inj (hcur.symm.trans hsig)
    · exact .inl ((get_applySigs hids).mpr (.inr ⟨hid, hst⟩))
  · rintro id hid ⟨hi, hs⟩
    by_cases hmem : id ∈ reads.map fun r => r.1.id
    · exact .inr (h.batch_gone hrun hid hmem)
    · refine .inl ⟨(get_applyInputs_of_not_mem _ hmem).trans hi, ?_⟩
      refine Option.eq_none_iff_forall_not_mem.mpr fun sig hst => ?_
      rcases (get_applySigs hids).mp hst with ⟨r, hr, hrid, -⟩ | ⟨-, hst⟩
      · exact hmem (List.mem_map.mpr ⟨r, hr, hrid⟩)
      · rw [hs] at hst
        cases hst

theorem Inv.batchLost (hspared : Spared host s (.reading initial todo [] reads))
    (hunsigned : Unsigned host s (.reading initial todo [] reads)) :
    Inv host { s with index := applyInputs s.index reads, running := none } := by
  refine (h.stop hrun hspared).wrote ?_ (fun id sig _ hst => .inl hst) ?_
  · intro id sig hsig hst
    refine (h.matched id sig hsig hst).imp_right fun hm => ?_
    rw [get_applyInputs_of_not_mem _ fun hid => hunsigned id hid sig hsig hst]
    exact hm
  · rintro id hid ⟨hi, hs⟩
    by_cases hmem : id ∈ reads.map fun r => r.1.id
    · exact .inr (h.batch_gone hrun hid hmem)
    · exact .inl ⟨(get_applyInputs_of_not_mem _ hmem).trans hi, hs⟩

theorem Inv.applied : Inv host (State.nextBatch host { s with
      index := applyInputs s.index reads, stored := applySigs s.stored reads } initial todo) := by
  have hbatch := h.batch hrun
  have hleft : todo.Sublist (Stage.reading initial todo [] reads).jobs := List.sublist_append_left _ _
  refine hbatch.nextBatch hrun ?_ (fun id _ hpass => hpass.elim)
    (fun job hjob => hbatch.jobs _ hrun job (hleft.subset hjob)) ((hbatch.nodup _ hrun).sublist (hleft.map Job.id)) ?_
  · intro id sig _ _ hpass
    rcases List.mem_append.mp hpass with ht | hr
    · exact .inr (.inr ht)
    · obtain ⟨r, hr, hjob⟩ := List.mem_map.mp hr
      refine .inl ((get_applySigs (h.batch_ids hrun)).mpr (.inl ⟨r, hr, ?_, ?_⟩))
      · rw [hjob]
      · rw [hjob]
  · rintro - hfirst (hf | hi)
    · rw [hfirst] at hf
      cases hf
    · exact hi

end

theorem Inv.marked (hrun : s.running = some .marking)
    (hok : ok = true ∨ Spared host s (.marking : Stage C)) :
    Inv host { s with built := s.built || ok, running := none } := by
  have hbuilt : Inv host { s with built := s.built || ok } :=
    { h with built := fun hreq hfirst => (h.built hreq hfirst).imp_left fun hb => by simp [hb] }
  refine hbuilt.next hrun (fun id sig _ _ hpass => absurd hpass List.not_mem_nil) (fun id _ hpass => hpass.elim)
    (by simp) (by simp) (by simp) fun hreq _ _ => .inl ?_
  rcases hok with rfl | hspared
  · exact Bool.or_true _
  · simp [hspared.built rfl hreq]

theorem Inv.noteApplied {path : Text} {content : C}
    (hrun : s.running = some (.noteText id path content)) (hplaced : Stage.Placed host s (.noteText id path content)) :
    Inv host { s with
      index := s.index.set id (path, content), texts := Function.update s.texts id (some content),
      running := none } := by
  have hwrote : Inv host { s with
      index := s.index.set id (path, content), texts := Function.update s.texts id (some content) } := by
    refine @Inv.wrote C host s h (s.index.set id (path, content)) s.stored _ ?_ (fun _ _ _ hst => .inl hst) ?_
    · intro id' sig hsig hst
      refine (h.matched id' sig hsig hst).imp_right fun hm v hv c hc => ?_
      by_cases hid : id' = id
      · subst hid
        have hpath : path = sig.path := (hplaced.1 sig hsig).resolve_right fun hne => hne hst
        exact ⟨(path, content), KeyedMap.get_set_self, hpath, .inr (Function.update_self ..)⟩
      · obtain ⟨e, he, hep, hcontent⟩ := hm v hv c hc
        refine ⟨e, (KeyedMap.get_set_ne hid).trans he, hep, hcontent.imp_right fun ht => ?_⟩
        exact (Function.update_of_ne hid _ _).trans ht
    · rintro id' hid' ⟨hi, hs⟩
      by_cases hid : id' = id
      · subst hid
        exact .inr (hplaced.2 hid')
      · exact .inl ⟨(KeyedMap.get_set_ne hid).trans hi, hs⟩
  refine hwrote.next hrun (fun _ _ _ _ hpass => absurd hpass List.not_mem_nil) (fun _ _ hpass => hpass.elim) (by simp)
    (by simp) (by simp) ?_
  rintro - hfirst (hf | hi)
  · rw [hfirst] at hf
    cases hf
  · cases hi

theorem Inv.rest (hrun : s.running = none) :
    (∀ id sig, s.cur host id = some sig → sig.version ≠ none → s.stored.get id = some sig ∨ EventDue host s id) ∧
    (∀ id, s.cur host id = none → (s.index.get id = none ∧ s.stored.get id = none) ∨ s.FullDue) ∧
    (s.rebuildRequired = true → s.first = false → s.built = true) := by
  have hnone : ∀ {P : Stage C → Prop}, ¬ ∃ stage ∈ s.running, P stage := by
    rintro P ⟨stage, hstage, -⟩
    rw [hrun] at hstage
    cases hstage
  refine ⟨fun id sig hsig hv => ?_, fun id hid => ?_, fun hreq hfirst => (h.built hreq hfirst).resolve_right hnone⟩
  · exact (h.due id sig hsig hv).imp_right fun hrest => hrest.resolve_right hnone
  · exact (h.gone id hid).imp_right fun hrest => hrest.resolve_right hnone

theorem Inv.flush (hrun : s.running = none) :
    Inv host (State.flush host { s with queue := queue }) := by
  obtain ⟨hdue, hgone, hbuilt⟩ := h.rest hrun
  unfold State.flush
  split
  · refine ⟨h.unique, by simp, h.matched, fun _ _ _ _ => .inr (.inr ⟨_, rfl, trivial⟩),
      fun _ _ => .inr (.inr ⟨_, rfl, trivial⟩), ?_, ?_, ?_, fun hreq hfirst => .inl (hbuilt hreq hfirst)⟩
    · rintro t ht job hjob
      obtain rfl := Option.some.inj ht
      cases hjob
    · rintro t ht
      obtain rfl := Option.some.inj ht
      exact List.nodup_nil
    · rintro t ht
      obtain rfl := Option.some.inj ht
      trivial
  · rename_i hfull
    have hdirectory : s.FullDue → s.directoryChanged = true := fun hf => hf.resolve_right hfull
    split
    · rename_i hempty
      refine h.told (fun hf => hf) (fun e he => he) ?_
      rintro (hp | hc)
      · exact absurd hp hfull
      · exact absurd (List.isEmpty_iff.mp hempty) hc
    · have hevent : ∀ id sig, s.cur host id = some sig → EventDue host s id →
          EventDue host { s with
            queue := queue, changed := [], running := some (.signing (s.docs host) s.changed) } id ∨
            (id, sig.path) ∈ s.docs host ∧ ∃ e ∈ s.changed, Touches host sig id e := by
        rintro id sig hsig (hf | ⟨sig', hsig', e, he, ht⟩)
        · exact .inl (.inl (.inl (hdirectory hf)))
        · obtain rfl : sig = sig' := Option.some.inj (hsig.symm.trans hsig')
          rcases List.mem_append.mp he with he | he
          · exact .inl (.inr ⟨sig, hsig, e, List.mem_append_left _ he, ht⟩)
          · exact .inr ⟨cur_path hsig, e, he, ht⟩
      refine ⟨h.unique, ?_, h.matched, ?_, ?_, ?_, ?_, ?_, fun hreq hfirst => .inl (hbuilt hreq hfirst)⟩
      · rintro (hp | hc)
        · exact absurd hp hfull
        · exact absurd rfl hc
      · intro id sig hsig hv
        rcases hdue id sig hsig hv with hst | hev
        · exact .inl hst
        · exact .inr ((hevent id sig hsig hev).imp_right fun hpass => ⟨_, rfl, hpass⟩)
      · exact fun id hid => (hgone id hid).imp_right fun hf => .inl (.inl (hdirectory hf))
      · rintro t ht job hjob
        obtain rfl := Option.some.inj ht
        cases hjob
      · rintro t ht
        obtain rfl := Option.some.inj ht
        exact List.nodup_nil
      · rintro t ht
        obtain rfl := Option.some.inj ht
        exact .inl rfl

theorem Inv.beginText {path : Text} {content : C}
    (hqueue : s.queue = .noteText id path content :: queue) (hrun : s.running = none) :
    Inv host { s with queue := queue, running := some (.noteText id path content) } := by
  obtain ⟨hdue, hgone, hbuilt⟩ := h.rest hrun
  refine ⟨h.unique, ?_, h.matched, ?_, ?_, ?_, ?_, ?_, fun hreq hfirst => .inl (hbuilt hreq hfirst)⟩
  · intro hf
    refine (h.flags hf).imp_right fun hmem => ?_
    rw [hqueue] at hmem
    exact (List.mem_cons.mp hmem).resolve_left nofun
  · exact fun id sig hsig hv => (hdue id sig hsig hv).imp_right .inl
  · exact fun id hid => (hgone id hid).imp_right .inl
  · rintro t ht job hjob
    obtain rfl := Option.some.inj ht
    cases hjob
  · rintro t ht
    obtain rfl := Option.some.inj ht
    exact List.nodup_nil
  · rintro t ht
    obtain rfl := Option.some.inj ht
    trivial

end

end Savoire.DesktopVaultIndexer
