import Savoire.Index.FeederSignatures

/-! The texts received by the feeder of the shared index are in the index once it rests. -/
namespace Savoire.SharedIndexFeeder
open Transition

section
variable {π : Type*}

/-- A sync has still to write the document. -/
def Work.busy (work : Work π) (id : Text) : Prop :=
  id ∈ work.gone ∨ id ∈ (work.metaOnly ++ work.reread).map SharedNote.id

def Stage.busy : Stage π → Text → Prop
  | .listing _ work => fun id => id ∈ (work.metaOnly ++ work.reread).map SharedNote.id
  | .syncing work w _ => fun id => work.busy id ∨ id ∈ w.removed ∨ w.inputs.get id ≠ none
  | .reading work note => fun id => work.busy id ∨ id = note.id
  | .idle | .batching | .writing .. | .signing _ | .marking => fun _ => False

/-- The text is indexed under a signature of a text, and nothing is about to be written over it. -/
structure Held (docs : KeyedMap Text (Content π)) (stored : Option (KeyedMap Text Text)) (busy : Text → Prop)
    (id : Text) (c : Content π) : Prop where
  docs : docs.get id = some c
  stored : ∃ m sig, stored = some m ∧ m.get id = some sig ∧ TEXT <+: sig
  free : ¬ busy id

def Waits (docs : KeyedMap Text (Content π)) (stored : Option (KeyedMap Text Text)) (busy : Text → Prop)
    (waiting : Option (Content π)) (id : Text) (c : Content π) : Prop :=
  waiting = some c ∨ (waiting = none ∧ Held docs stored busy id c)

def StageKept (docs : KeyedMap Text (Content π)) (stored : Option (KeyedMap Text Text)) : Stage π → Prop
  | .writing w applied => stored ≠ none ∧ w.removed = [] ∧ (∀ id sig, w.sigs.get id = some sig → TEXT <+: sig) ∧
      (∀ id c, w.inputs.get id = some c → w.sigs.get id ≠ none) ∧
      (applied = true → ∀ id c, w.inputs.get id = some c → docs.get id = some c)
  | .syncing work w _ => (∀ id sig, work.adopted.get id = some sig → TEXT <+: sig) ∧
      ∀ id sig, w.sigs.get id = some sig → w.inputs.get id = none → TEXT <+: sig
  | .listing _ work | .reading work _ => ∀ id sig, work.adopted.get id = some sig → TEXT <+: sig
  | .idle | .batching | .signing _ | .marking => True

structure Kept (s : State π) : Prop where
  idle : s.stage = .idle → s.disposed = false → s.texts.entries = []
  received : s.disposed = false → ∀ id c, s.received.get id = some c →
    Waits s.docs s.stored s.stage.busy ((s.texts.get id).or (s.batch.get id)) id c
  stage : StageKept s.docs s.stored s.stage

/-- The same between two writes. -/
def Resting (s : State π) (busy : Text → Prop) : Prop :=
  s.disposed = false → ∀ id c, s.received.get id = some c → Waits s.docs s.stored busy (s.texts.get id) id c

variable {s : State π} {o : Options π}

variable {busy : Text → Prop}

theorem Waits.mono {docs : KeyedMap Text (Content π)} {stored : Option (KeyedMap Text Text)} {busy' : Text → Prop}
    {waiting : Option (Content π)} {id : Text} {c : Content π} (h : Waits docs stored busy waiting id c)
    (hbusy : busy' id → busy id) : Waits docs stored busy' waiting id c := by
  obtain hwaits | ⟨hnone, hheld⟩ := h
  · exact .inl hwaits
  · exact .inr ⟨hnone, hheld.docs, hheld.stored, fun h => hheld.free (hbusy h)⟩

theorem Kept.of_resting (busy : Text → Prop) (h : Resting s busy) (hbatch : s.batch = .empty)
    (hbusy : ∀ id, s.stage.busy id → busy id) (hidle : s.stage = .idle → s.disposed = false → s.texts.entries = [])
    (hstage : StageKept s.docs s.stored s.stage) : Kept s := by
  refine ⟨hidle, ?_, hstage⟩
  intro hdisposed id c hget
  rw [hbatch, KeyedMap.get_empty, Option.or_none]
  exact (h hdisposed id c hget).mono (hbusy id)

theorem Resting.next (h : Resting s busy) : Kept s.next := by
  unfold State.next
  split
  · rename_i hdisposed
    refine ⟨fun _ hno => ?_, fun hno => ?_, trivial⟩
    · exact absurd (hdisposed.symm.trans hno) (by simp)
    · exact absurd (hdisposed.symm.trans hno) (by simp)
  · split
    · rename_i hempty
      split
      · refine Kept.of_resting busy h rfl (fun id hb => hb.elim) (fun hidle => ?_) trivial
        cases hidle
      · exact Kept.of_resting busy h rfl (fun id hb => hb.elim) (fun _ _ => List.isEmpty_iff.1 hempty) trivial
    · refine Kept.of_resting busy h rfl (fun id hb => hb.elim) (fun hidle => ?_) trivial
      cases hidle

theorem Resting.finish (h : Resting s busy) : Kept s.finish :=
  @Resting.next π { s with firstSync := false } busy h

theorem batch_of_idle (hidle : s.stage = .idle) : s.batch = .empty := by simp [State.batch, hidle]

theorem Kept.pump (hreceived : s.disposed = false → ∀ id c, s.received.get id = some c →
      Waits s.docs s.stored s.stage.busy ((s.texts.get id).or (s.batch.get id)) id c)
    (hstage : StageKept s.docs s.stored s.stage) : Kept s.pump := by
  unfold State.pump
  split
  · rename_i hidle
    split
    · rename_i hdisposed
      exact ⟨fun _ hno => absurd (hdisposed.symm.trans hno) (by simp), hreceived, hstage⟩
    · refine @Resting.next π s s.stage.busy ?_
      intro hdisposed id c hget
      have hwaits := hreceived hdisposed id c hget
      rwa [batch_of_idle hidle, KeyedMap.get_empty, Option.or_none] at hwaits
  · rename_i hbusy
    exact ⟨fun hidle => absurd hidle hbusy, hreceived, hstage⟩

theorem Kept.noteText (h : Kept s) (id path content : Text) : Kept (State.pump { s with
    texts := s.texts.set id (.full path content s.told.length)
    received := s.received.set id (.full path content s.told.length) }) := by
  refine Kept.pump ?_ h.stage
  intro hdisposed id' c hget
  show Waits s.docs s.stored s.stage.busy
    (((s.texts.set id (.full path content s.told.length)).get id').or (s.batch.get id')) id' c
  rw [KeyedMap.get_set] at hget ⊢
  split at hget
  · rename_i hid
    rw [if_pos hid]
    exact .inl hget
  · rename_i hid
    rw [if_neg hid]
    exact h.received hdisposed id' c hget

theorem Resting.takeBatch (h : Resting s busy) (hstored : s.stored ≠ none) :
    Kept (s.takeBatch o) := by
  have hof : ∀ id c, (KeyedMap.ofList Prod.fst Prod.snd (s.texts.entries.take o.batchSize)).get id = some c →
      s.texts.get id = some c := by
    intro id c hget
    obtain ⟨e, he, rfl, rfl⟩ := KeyedMap.of_get_ofList hget
    exact KeyedMap.mem_iff.mp (List.mem_of_mem_take he)
  refine ⟨(fun hidle => by cases hidle), ?_, hstored, rfl, ?_, ?_, (fun happlied => by cases happlied)⟩
  · intro hdisposed id c hget
    have hwaits := h hdisposed id c hget
    -- what was in the queue still is, or is in the batch
    suffices hsame : (((s.takeBatch o).texts.get id).or ((s.takeBatch o).batch.get id)) = s.texts.get id by
      rw [hsame]
      exact hwaits.mono False.elim
    show Option.or ((((s.texts.entries.take o.batchSize).map Prod.fst).foldl KeyedMap.delete s.texts).get id)
      ((KeyedMap.ofList Prod.fst Prod.snd (s.texts.entries.take o.batchSize)).get id) = s.texts.get id
    rw [KeyedMap.get_foldl_delete_keys]
    split
    · rename_i hmem
      obtain ⟨e, he, rfl⟩ := List.mem_map.1 hmem
      obtain ⟨d, -, -, hd⟩ := KeyedMap.exists_get_ofList Prod.fst Prod.snd he
      rw [hd, hof _ _ hd]
      rfl
    · cases hbatch : (KeyedMap.ofList Prod.fst Prod.snd (s.texts.entries.take o.batchSize)).get id with
      | none => exact Option.or_none
      | some c' =>
        rw [hof id c' hbatch]
        rfl
  · intro id sig hsig
    obtain ⟨e, -, -, rfl⟩ := KeyedMap.of_get_ofList hsig
    exact List.prefix_append _ _
  · intro id c hget
    obtain ⟨e, he, rfl, -⟩ := KeyedMap.of_get_ofList hget
    obtain ⟨d, -, -, hd⟩ := KeyedMap.exists_get_ofList Prod.fst
      (fun e : Text × Content π => TEXT ++ (s.metaSigs.get e.1).getD unknown) he
    rw [hd]
    exact Option.some_ne_none _

variable {work : Work π}

theorem Resting.proceed (h : Resting s work.busy)
    (hadopted : ∀ id sig, work.adopted.get id = some sig → TEXT <+: sig) : Kept (s.proceed o work) := by
  unfold State.proceed
  split
  · refine Kept.of_resting work.busy h rfl ?_ (fun hidle => by cases hidle)
      ⟨hadopted, (fun id sig hsig => by cases hsig)⟩
    rintro id ((hgone | hlist) | hgone | hinput)
    · cases hgone
    · exact .inr hlist
    · exact .inl hgone
    · exact absurd rfl hinput
  · split
    · refine Kept.of_resting work.busy h rfl ?_ (fun hidle => by cases hidle)
        ⟨(fun id sig hsig => by cases hsig), fun id sig hsig _ => hadopted id sig hsig⟩
      rintro id (hbusy | hgone | hinput)
      · exact hbusy
      · cases hgone
      · exact absurd rfl hinput
    · split
      · exact h.finish
      · split
        · refine Kept.of_resting work.busy h rfl ?_ (fun hidle => by cases hidle) ⟨hadopted, ?_⟩
          · rintro id ((hgone | hlist) | hgone | hinput)
            · exact .inl hgone
            · obtain ⟨n, hn, rfl⟩ := List.mem_map.1 hlist
              refine .inr (List.mem_map_of_mem ?_)
              obtain hmeta | hreread := List.mem_append.1 hn
              · exact List.mem_append_left _ (List.mem_of_mem_drop hmeta)
              · exact List.mem_append_right _ hreread
            · cases hgone
            · obtain ⟨c, hc⟩ := Option.ne_none_iff_exists'.mp hinput
              obtain ⟨n, hn, rfl, -⟩ := KeyedMap.of_get_ofList hc
              exact .inr (List.mem_map_of_mem (List.mem_append_left _ (List.mem_of_mem_take hn)))
          · intro id sig hsig hnone
            obtain ⟨n, hn, rfl, -⟩ := KeyedMap.of_get_ofList hsig
            obtain ⟨d, -, -, hd⟩ := KeyedMap.exists_get_ofList SharedNote.id Content.record hn
            rw [hd] at hnone
            cases hnone
        · split
          · rename_i note rest hreread
            refine Kept.of_resting work.busy h rfl ?_ (fun hidle => by cases hidle) hadopted
            rintro id ((hgone | hlist) | rfl)
            · exact .inl hgone
            · obtain ⟨n, hn, rfl⟩ := List.mem_map.1 hlist
              refine .inr (List.mem_map_of_mem ?_)
              obtain hmeta | hrest := List.mem_append.1 hn
              · exact List.mem_append_left _ hmeta
              · exact List.mem_append_right _ (hreread ▸ List.mem_cons_of_mem note hrest)
            · exact .inr (List.mem_map_of_mem (List.mem_append_right _ (hreread ▸ List.mem_cons_self)))
          · split
            · exact Kept.of_resting work.busy h rfl (fun id hb => hb.elim) (fun hidle => by cases hidle) trivial
            · exact h.finish

theorem Resting.sweep {gone : List Text}
    (h : Resting s fun id => id ∈ (work.metaOnly ++ work.reread).map SharedNote.id)
    (hadopted : ∀ id sig, work.adopted.get id = some sig → TEXT <+: sig) : Kept (s.sweep o gone work) := by
  refine Resting.proceed ?_ hadopted
  intro hdisposed id c hget
  have hdeleted := KeyedMap.get_foldl_delete_keys gone s.received id
  rw [hget] at hdeleted
  split at hdeleted
  · cases hdeleted
  · rename_i hgone
    refine (h hdisposed id c hdeleted.symm).mono ?_
    rintro (hin | hlist)
    · exact absurd hin hgone
    · exact hlist

theorem Resting.take (h : Resting s busy) {notes : Notes π} {stored : KeyedMap Text Text}
    (hstored : ∀ m, s.stored = some m → stored = m) : Kept (s.take o notes stored) := by
  unfold State.take
  generalize hmetaSigs : notes.notes.foldl (fun m n => m.set n.id (o.metaSignature n)) s.metaSigs = metaSigs
  have hadopted : ∀ id sig, (KeyedMap.ofList SharedNote.id (fun n => TEXT ++ o.metaSignature n)
      (notes.notes.filter fun n => s.find o stored n = .adopted)).get id = some sig → TEXT <+: sig := by
    intro id sig hsig
    obtain ⟨n, -, -, rfl⟩ := KeyedMap.of_get_ofList hsig
    exact List.prefix_append _ _
  have hrest : Resting { s with
      stored := some stored, metaSigs := metaSigs, fresh := [], told := s.told ++ [metaSigs]
      received := ((notes.notes.filter (s.outdated o stored)).map SharedNote.id).foldl KeyedMap.delete s.received }
      fun id => id ∈ ((notes.notes.filter fun n => s.find o stored n = .metaOnly) ++
        (notes.notes.filter fun n => s.find o stored n = .reread)).map SharedNote.id := by
    intro hdisposed id c hget
    have hdeleted := KeyedMap.get_foldl_delete_keys ((notes.notes.filter (s.outdated o stored)).map SharedNote.id)
      s.received id
    rw [hget] at hdeleted
    split at hdeleted
    · cases hdeleted
    · rename_i hkept
      obtain hwaits | ⟨hnone, hdocs, ⟨m, sig, hm, hsig, htext⟩, -⟩ := h hdisposed id c hdeleted.symm
      · exact .inl hwaits
      · obtain rfl := hstored m hm
        refine .inr ⟨hnone, hdocs, ⟨stored, sig, rfl, hsig, htext⟩, ?_⟩
        intro hlist
        obtain ⟨n, hn, rfl⟩ := List.mem_map.1 hlist
        refine hkept (List.mem_map_of_mem (List.mem_filter.2 ?_))
        have hhas : s.texts.has n.id = false := by simp [KeyedMap.has, hnone]
        have hany : (stored.get n.id).any (Text.startsWith · TEXT) = true := by simpa [hsig] using htext
        obtain hn | hn := List.mem_append.1 hn
        · obtain ⟨hn, hfound⟩ := List.mem_filter.1 hn
          refine ⟨hn, ?_⟩
          simp [State.outdated, hhas, hany, of_decide_eq_true hfound]
        · obtain ⟨hn, hfound⟩ := List.mem_filter.1 hn
          refine ⟨hn, ?_⟩
          simp [State.outdated, hhas, hany, of_decide_eq_true hfound]
  split
  · exact Kept.of_resting _ hrest rfl (fun id hb => hb) (fun hidle => by cases hidle) hadopted
  · exact hrest.sweep hadopted

variable {w : Write π}

theorem Held.note {busy' : Text → Prop} {id : Text} {c : Content π} (h : Held s.docs s.stored busy id c)
    (hremoved : id ∉ w.removed) (hsigs : ∀ sig, w.sigs.get id = some sig → TEXT <+: sig)
    (hfree : ¬ busy' id) : Held s.docs (s.note w).stored busy' id c := by
  obtain ⟨hdocs, ⟨m, sig, hm, hsig, htext⟩, -⟩ := h
  have hget : ((w.removed.foldl KeyedMap.delete m).putAll w.sigs).get id = (w.sigs.get id).or (some sig) := by
    rw [KeyedMap.get_putAll, KeyedMap.get_foldl_delete_keys, if_neg hremoved, hsig]
  refine ⟨hdocs, ⟨_, (w.sigs.get id).getD sig, by rw [State.note, hm]; rfl, ?_, ?_⟩, hfree⟩
  · rw [hget]
    cases w.sigs.get id <;> rfl
  · cases hnew : w.sigs.get id with
    | none => exact htext
    | some sig' => exact hsigs sig' hnew

theorem Kept.apply_writing (h : Kept s) (hs : s.stage = .writing w false) :
    Kept { s.applyDocs w with stage := .writing w true } := by
  have hstage := h.stage
  rw [hs] at hstage
  obtain ⟨hstored, hremoved, hsigs, hinputs, -⟩ := hstage
  refine ⟨(fun hidle => by cases hidle), ?_, hstored, hremoved, hsigs, hinputs,
    fun _ id c hget => get_applyDocs_input s w hget⟩
  intro hdisposed id c hget
  have hwaits := h.received hdisposed id c hget
  rw [State.batch, hs] at hwaits
  obtain hwaits | ⟨hnone, hdocs, hsig, -⟩ := hwaits
  · exact .inl hwaits
  · have hin : w.inputs.get id = none := (Option.or_eq_none_iff.1 hnone).2
    exact .inr ⟨hnone, (get_applyDocs s w hin (by simp [hremoved])).trans hdocs, hsig, not_false⟩

theorem Kept.apply_syncing (h : Kept s) (hs : s.stage = .syncing work w false) :
    Kept { s.applyDocs w with stage := .syncing work w true } := by
  have hstage := h.stage
  rw [hs] at hstage
  refine ⟨(fun hidle => by cases hidle), ?_, hstage⟩
  intro hdisposed id c hget
  have hwaits := h.received hdisposed id c hget
  rw [State.batch, hs] at hwaits
  obtain hwaits | ⟨hnone, hdocs, hsig, hfree⟩ := hwaits
  · exact .inl hwaits
  · obtain ⟨-, hrest⟩ := not_or.1 hfree
    obtain ⟨hremoved, hinputs⟩ := not_or.1 hrest
    exact .inr ⟨hnone, (get_applyDocs s w (not_not.1 hinputs) hremoved).trans hdocs, hsig, hfree⟩

theorem Kept.sign_writing (h : Kept s) (hs : s.stage = .writing w true) (fresh : List Text) :
    Resting { (s.record w.removed w.sigs).note w with fresh := fresh } fun _ => False := by
  have hstage := h.stage
  rw [hs] at hstage
  obtain ⟨hstored, hremoved, hsigs, hinputs, happlied⟩ := hstage
  intro hdisposed id c hget
  have hwaits := h.received hdisposed id c hget
  rw [State.batch, hs] at hwaits
  cases htexts : s.texts.get id with
  | some c' =>
    rw [htexts] at hwaits
    obtain hwaits | ⟨hnone, -⟩ := hwaits
    · exact .inl (htexts.trans hwaits)
    · cases hnone
  | none =>
    rw [htexts, Option.none_or] at hwaits
    refine .inr ⟨htexts, ?_⟩
    obtain hinput | ⟨-, hheld⟩ := hwaits
    · obtain ⟨m, hm⟩ := Option.ne_none_iff_exists'.mp hstored
      obtain ⟨sig, hsig⟩ := Option.ne_none_iff_exists'.mp (hinputs id c hinput)
      have hnoted : ((s.record w.removed w.sigs).note w).stored =
          some ((w.removed.foldl KeyedMap.delete m).putAll w.sigs) := by simp [State.note, State.record, hm]
      refine ⟨happlied rfl id c hinput, ⟨_, sig, hnoted, ?_, hsigs id sig hsig⟩, not_false⟩
      rw [KeyedMap.get_putAll, hsig]
      rfl
    · exact hheld.note (by simp [hremoved]) (hsigs id) not_false

theorem Kept.sign_syncing (h : Kept s) (hs : s.stage = .syncing work w true) :
    Resting ((s.record w.removed w.sigs).note w) work.busy := by
  have hstage := h.stage
  rw [hs] at hstage
  intro hdisposed id c hget
  have hwaits := h.received hdisposed id c hget
  rw [State.batch, hs, KeyedMap.get_empty, Option.or_none] at hwaits
  obtain hwaits | ⟨hnone, hheld⟩ := hwaits
  · exact .inl hwaits
  · obtain ⟨hwork, hrest⟩ := not_or.1 hheld.free
    obtain ⟨hremoved, hinputs⟩ := not_or.1 hrest
    exact .inr ⟨hnone, hheld.note hremoved (fun sig hsig => hstage.2 id sig hsig (not_not.1 hinputs)) hwork⟩

theorem Kept.fails (h : Kept s) {s' : State π} {n : Nat} (hclear : Clear o s (.fails n))
    (hsame : s'.disposed = s.disposed ∧ s'.texts = s.texts ∧ s'.received = s.received ∧ s'.docs = s.docs ∧
      s'.stored = s.stored) (hstage : s'.stage = .idle) : Kept s' := by
  obtain ⟨hdisposed, htexts, hreceived, hdocs, hstored⟩ := hsame
  refine ⟨?_, ?_, by rw [hstage]; trivial⟩
  · intro _ hno
    rw [hdisposed] at hno
    rw [htexts]
    obtain hd | ⟨hempty, -⟩ := hclear
    · rw [hd] at hno
      cases hno
    · exact List.isEmpty_iff.1 hempty
  · intro hno id c hget
    rw [hdisposed] at hno
    rw [hreceived] at hget
    obtain hd | ⟨-, hbatch⟩ := hclear
    · rw [hd] at hno
      cases hno
    · have hwaits := h.received hno id c hget
      have hnone : s.batch.get id = none := by
        rw [KeyedMap.get, List.isEmpty_iff.1 hbatch]
        rfl
      rw [hnone, Option.or_none] at hwaits
      rw [htexts, hdocs, hstored, batch_of_idle hstage, KeyedMap.get_empty, Option.or_none, hstage]
      exact hwaits.mono False.elim

theorem Kept.resting (h : Kept s) (hbatch : s.batch = .empty) : Resting s s.stage.busy := by
  intro hdisposed id c hget
  have hwaits := h.received hdisposed id c hget
  rwa [hbatch, KeyedMap.get_empty, Option.or_none] at hwaits

theorem Resting.signatures (h : Resting s busy) :
    Resting { s with stored := some (s.stored.getD s.sources) } busy := by
  intro hdisposed id c hget
  obtain hwaits | ⟨hnone, hdocs, ⟨m, sig, hm, hsig⟩, hfree⟩ := h hdisposed id c hget
  · exact .inl hwaits
  · exact .inr ⟨hnone, hdocs, ⟨m, sig, by simp [hm], hsig⟩, hfree⟩

theorem refreshed_only (o : Options π) (s : State π) (note : SharedNote π) (content : Option Text) :
    (s.refreshed o note content).removed = [] ∧
    (∀ id, (s.refreshed o note content).inputs.get id ≠ none ↔ id = note.id) ∧
    ∀ id sig, (s.refreshed o note content).sigs.get id = some sig → id = note.id := by
  unfold State.refreshed
  cases content with
  | none | some =>
    refine ⟨rfl, fun id => ?_, fun id sig hsig => ?_⟩
    · simp [KeyedMap.get_set]
    · by_contra hid
      simp [KeyedMap.get_set, hid] at hsig

theorem step_kept {s' : State π} (h : Kept s) (event : Event π) (hclear : Clear o s event)
    (hstep : step o s event = some s') : Kept s' := by
  have hstage := h.stage
  cases event with
  | setNotes notes =>
    obtain rfl := Option.some.inj hstep
    exact Kept.pump h.received h.stage
  | noteText id path content =>
    obtain rfl := Option.some.inj hstep
    exact h.noteText id path content
  | dispose =>
    obtain rfl := Option.some.inj hstep
    exact ⟨(fun _ hno => by cases hno), (fun hno => by cases hno), hstage⟩
  | signatures =>
    simp only [step] at hstep
    split at hstep
    · rename_i hs
      obtain rfl := Option.some.inj hstep
      exact (h.resting (by simp [State.batch, hs])).signatures.takeBatch (Option.some_ne_none _)
    · rename_i notes hs
      obtain rfl := Option.some.inj hstep
      refine (h.resting (by simp [State.batch, hs])).take ?_
      intro m hm
      rw [hm]
      rfl
    · cases hstep
  | paths =>
    simp only [step] at hstep
    split at hstep
    · rename_i present work hs
      obtain rfl := Option.some.inj hstep
      have hrest := h.resting (by simp [State.batch, hs])
      rw [hs] at hstage hrest
      exact hrest.sweep hstage
    · cases hstep
  | apply =>
    simp only [step] at hstep
    split at hstep
    · rename_i w hs
      obtain rfl := Option.some.inj hstep
      exact h.apply_writing hs
    · rename_i work w hs
      obtain rfl := Option.some.inj hstep
      exact h.apply_syncing hs
    · cases hstep
  | sign =>
    simp only [step] at hstep
    split at hstep
    · rename_i w hs
      obtain rfl := Option.some.inj hstep
      exact (h.sign_writing hs _).next
    · rename_i work w hs
      obtain rfl := Option.some.inj hstep
      rw [hs] at hstage
      exact (h.sign_syncing hs).proceed hstage.1
    · cases hstep
  | readText content =>
    simp only [step] at hstep
    split at hstep
    · rename_i work note hs
      obtain rfl := Option.some.inj hstep
      have hrest := h.resting (by simp [State.batch, hs])
      rw [hs] at hstage hrest
      obtain ⟨hremoved, hinputs, hsigs⟩ := refreshed_only o s note content
      refine Kept.of_resting _ hrest rfl ?_ (fun hidle => by cases hidle) ⟨hstage, ?_⟩
      · rintro id (hbusy | hin | hinput)
        · exact .inl hbusy
        · rw [hremoved] at hin
          cases hin
        · exact .inr ((hinputs id).1 hinput)
      · intro id sig hsig hnone
        exact absurd hnone ((hinputs id).2 (hsigs id sig hsig))
    · cases hstep
  | readFails =>
    simp only [step] at hstep
    split at hstep
    · rename_i work note hs
      obtain rfl := Option.some.inj hstep
      have hrest := h.resting (by simp [State.batch, hs])
      rw [hs] at hstage hrest
      refine Resting.proceed ?_ hstage
      exact fun hdisposed id c hget => (hrest hdisposed id c hget).mono .inl
    · cases hstep
  | marked =>
    simp only [step] at hstep
    split at hstep
    · rename_i hs
      obtain rfl := Option.some.inj hstep
      exact (h.resting (by simp [State.batch, hs])).finish
    · cases hstep
  | fails n =>
    simp only [step] at hstep
    split at hstep
    · obtain ⟨-, rfl⟩ := Option.ite_some_none_eq_some.1 hstep
      exact h.fails hclear ⟨rfl, rfl, rfl, rfl, rfl⟩ rfl
    · obtain ⟨-, rfl⟩ := Option.ite_some_none_eq_some.1 hstep
      exact h.fails hclear ⟨rfl, rfl, rfl, rfl, rfl⟩ rfl
    · rename_i w applied hs
      obtain rfl := Option.some.inj hstep
      cases applied <;> exact h.fails hclear ⟨rfl, rfl, rfl, rfl, rfl⟩ rfl
    · rename_i work w applied hs
      obtain rfl := Option.some.inj hstep
      cases applied <;> exact h.fails hclear ⟨rfl, rfl, rfl, rfl, rfl⟩ rfl
    · obtain rfl := Option.some.inj hstep
      exact h.fails hclear ⟨rfl, rfl, rfl, rfl, rfl⟩ rfl
    · obtain rfl := Option.some.inj hstep
      exact h.fails hclear ⟨rfl, rfl, rfl, rfl, rfl⟩ rfl
    · cases hstep

theorem kept_start (docs : KeyedMap Text (Content π)) (sources : KeyedMap Text Text) : Kept (start docs sources) :=
  ⟨fun _ _ => rfl, (fun _ id c hget => by cases hget), trivial⟩

/-- At rest the index holds every text received of a note that did not change elsewhere since, and what is
recorded of a document stands for what it was indexed from. -/
theorem feeder_faithful {docs : KeyedMap Text (Content π)} {sources : KeyedMap Text Text}
    (hrun : Run (step o) (Clear o) (start docs sources) s) : Faithful o s := by
  obtain ⟨hkept, hsigned⟩ : Kept s ∧ Signed o s :=
    hrun.invariant (fun s => Kept s ∧ Signed o s) ⟨kept_start docs sources, signed_start docs sources⟩
      fun _ event _ h hclear hstep => ⟨step_kept h.1 event hclear hstep, step_signed h.2 event hclear hstep⟩
  refine ⟨?_, hsigned.recorded⟩
  intro hidle hdisposed id c hget
  have hwaits := hkept.received hdisposed id c hget
  have htexts : s.texts.get id = none := by
    rw [KeyedMap.get, hkept.idle hidle hdisposed]
    rfl
  rw [htexts, batch_of_idle hidle] at hwaits
  obtain hwaits | ⟨-, hheld⟩ := hwaits
  · cases hwaits
  · exact hheld.docs

end

/-- Notes known by a number, told by its digit. -/
def counting : Options Nat := ⟨fun n => [Char.ofNat (48 + n.props)], true, 200, true⟩

def first : Notes Nat := ⟨[⟨['a'], ['p'], ['p'], 1⟩], by decide⟩

/-- A text received after the metadata, written, then its own metadata. -/
theorem feeder_faithful_text : ∃ s, exec (step counting) (Clear counting) (start .empty .empty) [.setNotes first,
    .signatures, .paths, .apply, .sign, .marked, .noteText ['a'] ['p'] ['x'], .signatures, .apply, .sign,
    .setNotes ⟨[⟨['a'], ['p'], ['p'], 2⟩], by decide⟩, .signatures, .apply, .sign] = some s ∧ Faithful counting s :=
  ⟨_, rfl, @feeder_faithful Nat _ counting .empty .empty (run_of_exec [.setNotes first,
    .signatures, .paths, .apply, .sign, .marked, .noteText ['a'] ['p'] ['x'], .signatures, .apply, .sign,
    .setNotes ⟨[⟨['a'], ['p'], ['p'], 2⟩], by decide⟩, .signatures, .apply, .sign] _ _ rfl)⟩

/-- The write of a text fails: the text is no more in the queue and was not indexed. -/
theorem text_lost : ¬ ∀ s : State Nat, Run (step counting) (fun _ _ => True) (start .empty .empty) s →
    Faithful counting s := by
  intro h
  have hrun : Run (step counting) (fun _ _ => True) (start .empty .empty) _ := run_of_exec [.setNotes first,
    .signatures, .paths, .apply, .sign, .marked, .noteText ['a'] ['p'] ['x'], .signatures, .fails 0] _ _ rfl
  have hkept := (h _ hrun).kept rfl rfl ['a'] (.full ['p'] ['x'] 1) rfl
  cases hkept

end Savoire.SharedIndexFeeder
