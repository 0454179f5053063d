import Savoire.Index.SharedFeeder

/-! What a signature of the shared index stands for, in every run of the feeder. -/
namespace Savoire.SharedIndexFeeder
open Transition

section
variable {π : Type*} (o : Options π)

def Known (told : List (KeyedMap Text Text)) (id ms : Text) : Prop :=
  ∃ m, told.getLast? = some m ∧ m.get id = some ms

/-- A text that came since the last but one sync. -/
def Recent (told : List (KeyedMap Text Text)) : Content π → Prop
  | .full _ _ since => since ≤ told.length ∧ told.length ≤ since + 1
  | .record _ => False

/-- What a sync has still to write: adopted texts are indexed and stay, the other notes have known metadata. -/
structure WorkSigned (told : List (KeyedMap Text Text)) (docs : KeyedMap Text (Content π))
    (metaSigs : KeyedMap Text Text) (gone : Text → Prop) (work : Work π) : Prop where
  adopted : ∀ id sig, work.adopted.get id = some sig →
    ¬ gone id ∧ ∃ c, docs.get id = some c ∧ Stands o told id sig c
  known : ∀ n ∈ work.metaOnly ++ work.reread, ¬ gone n.id ∧ metaSigs.get n.id = some (o.metaSignature n)

/-- The signatures of a write are those of what it indexes, or of what is indexed already. -/
structure WriteSigned (told : List (KeyedMap Text Text)) (docs : KeyedMap Text (Content π)) (w : Write π)
    (applied : Bool) : Prop where
  sigs : ∀ id sig, w.sigs.get id = some sig → ∃ c, Stands o told id sig c ∧
    (w.inputs.get id = some c ∨ (w.inputs.get id = none ∧ id ∉ w.removed ∧ docs.get id = some c))
  applied : applied = true → ∀ id c, w.inputs.get id = some c → docs.get id = some c

def StageSigned (told : List (KeyedMap Text Text)) (docs : KeyedMap Text (Content π))
    (metaSigs : KeyedMap Text Text) (texts : KeyedMap Text (Content π)) : Stage π → Prop
  | .writing w applied => WriteSigned o told docs w applied
  | .syncing work w applied => WriteSigned o told docs w applied ∧
      WorkSigned o told docs metaSigs (· ∈ work.gone) work ∧
      ∀ id sig, work.adopted.get id = some sig → id ∉ w.removed ∧ w.inputs.get id = none
  | .reading work note =>
      WorkSigned o told docs metaSigs (· ∈ work.gone) { work with reread := note :: work.reread } ∧
      ∀ id sig, work.adopted.get id ≠ some sig
  | .listing present work => WorkSigned o told docs metaSigs (· ∉ present) work ∧ ∀ id ∈ work.gone, id ∉ present
  | .signing _ => ∀ id path content since, texts.get id = some (.full path content since) → since = told.length
  | .idle | .batching | .marking => True

def Recorded (told : List (KeyedMap Text Text)) (e : Text × Text × Option (Content π)) : Prop :=
  ∃ c, e.2.2 = some c ∧ Stands o told e.1 e.2.1 c

/-- What holds between two writes. -/
structure Base (s : State π) : Prop where
  known : ∀ id ms, s.metaSigs.get id = some ms → Known s.told id ms
  texts : ∀ id c, s.texts.get id = some c → Recent s.told c
  recorded : ∀ e ∈ s.recorded, Recorded o s.told e

structure Signed (s : State π) : Prop extends Base o s where
  stage : StageSigned o s.told s.docs s.metaSigs s.texts s.stage

variable {o} {s : State π}

theorem Stands.told {told : List (KeyedMap Text Text)} {id sig : Text} {c : Content π} (h : Stands o told id sig c)
    (m : KeyedMap Text Text) : Stands o (told ++ [m]) id sig c := by
  cases c with
  | record note => exact h
  | full path content since =>
    obtain ⟨ms, hsig, hunknown | ⟨k, m', hk, hm', hms⟩⟩ := h
    · exact ⟨ms, hsig, .inl hunknown⟩
    · exact ⟨ms, hsig, .inr ⟨k, m', hk, getElem?_concat_of_some m hm', hms⟩⟩

variable {told : List (KeyedMap Text Text)} {id : Text}

theorem stands_of_known {ms path content : Text} {since : Nat}
    (hrecent : Recent told (.full (π := π) path content since)) (hknown : Known told id ms) :
    Stands o told id (TEXT ++ ms) (.full path content since) := by
  obtain ⟨m, hlast, hms⟩ := hknown
  have hlen : told ≠ [] := by
    intro hnil
    rw [hnil] at hlast
    cases hlast
  rw [List.getLast?_eq_getElem?] at hlast
  obtain ⟨hle, hge⟩ := hrecent
  exact ⟨ms, rfl, .inr ⟨told.length - 1, m, by omega, hlast, hms⟩⟩

theorem signed_start (docs : KeyedMap Text (Content π)) (sources : KeyedMap Text Text) :
    Signed o (start docs sources) := by
  refine ⟨⟨?_, ?_, ?_⟩, trivial⟩
  · intro id ms h
    cases h
  · intro id c h
    cases h
  · intro e he
    cases he

theorem Base.next (h : Base o s) : Signed o s.next := by
  have hsame : ∀ stage latest, Base o { s with latest := latest, stage := stage } :=
    fun _ _ => ⟨h.known, h.texts, h.recorded⟩
  unfold State.next
  split
  · exact ⟨hsame _ _, trivial⟩
  · split
    · rename_i hempty
      split
      · refine ⟨hsame _ _, ?_⟩
        intro id path content since hget
        rw [← KeyedMap.mem_iff, List.isEmpty_iff.1 hempty] at hget
        cases hget
      · exact ⟨hsame _ _, trivial⟩
    · exact ⟨hsame _ _, trivial⟩

theorem Signed.pump (h : Signed o s) : Signed o s.pump := by
  unfold State.pump
  split
  · split
    · exact h
    · exact h.toBase.next
  · exact h

theorem Base.finish (h : Base o s) : Signed o s.finish :=
  Base.next ⟨h.known, h.texts, h.recorded⟩

theorem Signed.noteText (h : Signed o s) (id path content : Text) :
    Signed o { s with
      texts := s.texts.set id (.full path content s.told.length)
      received := s.received.set id (.full path content s.told.length) } := by
  refine ⟨⟨h.known, ?_, h.recorded⟩, ?_⟩
  · intro id' c hget
    rw [KeyedMap.get_set] at hget
    split at hget
    · obtain rfl := Option.some.inj hget
      exact ⟨Nat.le_refl _, Nat.le_succ _⟩
    · exact h.texts id' c hget
  · have hstage := h.stage
    cases hs : s.stage with
    | signing notes =>
      rw [hs] at hstage
      intro id' path' content' since hget
      rw [KeyedMap.get_set] at hget
      split at hget
      · exact (Content.full.inj (Option.some.inj hget)).2.2.symm
      · exact hstage id' path' content' since hget
    | idle | batching | marking | writing | listing | syncing | reading =>
      rw [hs] at hstage
      exact hstage

theorem Base.takeBatch (h : Base o s) : Signed o (s.takeBatch o) := by
  refine ⟨⟨h.known, ?_, h.recorded⟩, ?_, fun happlied => by cases happlied⟩
  · intro id c hget
    rw [State.takeBatch, KeyedMap.get_foldl_delete_keys] at hget
    split at hget
    · cases hget
    · exact h.texts id c hget
  · intro id sig hsig
    obtain ⟨e, he, rfl, rfl⟩ := KeyedMap.of_get_ofList hsig
    obtain ⟨d, hd, hname, hget⟩ := KeyedMap.exists_get_ofList Prod.fst Prod.snd he
    have hrecent := h.texts d.1 d.2 (KeyedMap.mem_iff.mp (List.mem_of_mem_take hd))
    refine ⟨d.2, ?_, .inl hget⟩
    rcases hcontent : d.2 with ⟨path, content, since⟩ | note
    · rw [hcontent] at hrecent
      cases hms : s.metaSigs.get e.1 with
      | none => exact ⟨unknown, rfl, .inl rfl⟩
      | some ms => exact stands_of_known hrecent (h.known e.1 ms hms)
    · rw [hcontent] at hrecent
      cases hrecent

variable {work : Work π}

/-- The next write of a sync, from what is left to write. -/
theorem Base.proceed (h : Base o s)
    (hwork : WorkSigned o s.told s.docs s.metaSigs (· ∈ work.gone) work) : Signed o (s.proceed o work) := by
  have hsame : ∀ stage, Base o { s with stage := stage } := fun _ => ⟨h.known, h.texts, h.recorded⟩
  unfold State.proceed
  split
  · refine ⟨hsame _, ⟨?_, ?_⟩, ⟨?_, ?_⟩, ?_⟩
    · intro id sig hsig
      cases hsig
    · intro happlied
      cases happlied
    · intro id sig hsig
      exact ⟨List.not_mem_nil, (hwork.adopted id sig hsig).2⟩
    · intro n hn
      exact ⟨List.not_mem_nil, (hwork.known n hn).2⟩
    · intro id sig hsig
      exact ⟨(hwork.adopted id sig hsig).1, rfl⟩
  · split
    · refine ⟨hsame _, ⟨?_, ?_⟩, ⟨?_, ?_⟩, ?_⟩
      · intro id sig hsig
        obtain ⟨-, c, hdocs, hstands⟩ := hwork.adopted id sig hsig
        exact ⟨c, hstands, .inr ⟨rfl, List.not_mem_nil, hdocs⟩⟩
      · intro happlied
        cases happlied
      · intro id sig hsig
        cases hsig
      · exact hwork.known
      · intro id sig hsig
        cases hsig
    · rename_i hadopted
      have hnone : ∀ id sig, work.adopted.get id ≠ some sig := by
        intro id sig hsig
        rw [← KeyedMap.mem_iff, not_not.mp hadopted] at hsig
        cases hsig
      split
      · exact h.finish
      · split
        · refine ⟨hsame _, ⟨?_, ?_⟩, ⟨?_, ?_⟩, ?_⟩
          · intro id sig hsig
            obtain ⟨n, hn, rfl, rfl⟩ := KeyedMap.of_get_ofList hsig
            obtain ⟨d, hd, hname, hget⟩ := KeyedMap.exists_get_ofList SharedNote.id Content.record hn
            have hmd := (hwork.known d (List.mem_append_left _ (List.mem_of_mem_take hd))).2
            refine ⟨.record d, ?_, .inl hget⟩
            rw [hname] at hmd
            rw [hmd]
            rfl
          · intro happlied
            cases happlied
          · intro id sig hsig
            exact absurd hsig (hnone id sig)
          · intro n hn
            refine hwork.known n ?_
            obtain hmeta | hreread := List.mem_append.1 hn
            · exact List.mem_append_left _ (List.mem_of_mem_drop hmeta)
            · exact List.mem_append_right _ hreread
          · intro id sig hsig
            exact absurd hsig (hnone id sig)
        · split
          · rename_i hreread
            refine ⟨hsame _, ⟨hwork.adopted, ?_⟩, hnone⟩
            simpa [hreread] using hwork.known
          · split
            · exact ⟨hsame _, trivial⟩
            · exact h.finish

theorem Base.sweep (h : Base o s) {gone present : List Text}
    (hwork : WorkSigned o s.told s.docs s.metaSigs (· ∉ present) work) (hgone : ∀ id ∈ gone, id ∉ present) :
    Signed o (s.sweep o gone work) := by
  have hget := KeyedMap.get_foldl_delete_keys gone s.metaSigs
  have hstay : ∀ id, ¬ id ∉ present → id ∉ gone := fun id hpresent hid => hpresent (hgone id hid)
  apply Base.proceed
  · refine ⟨?_, h.texts, h.recorded⟩
    intro id ms hms
    rw [hget] at hms
    split at hms
    · cases hms
    · exact h.known id ms hms
  · refine ⟨?_, ?_⟩
    · intro id sig hsig
      obtain ⟨hpresent, hindexed⟩ := hwork.adopted id sig hsig
      exact ⟨hstay id hpresent, hindexed⟩
    · intro n hn
      obtain ⟨hpresent, hms⟩ := hwork.known n hn
      refine ⟨hstay n.id hpresent, ?_⟩
      show (gone.foldl KeyedMap.delete s.metaSigs).get n.id = _
      rw [hget, if_neg (hstay n.id hpresent), hms]

/-- A sync with the signatures known: the texts it adopts were received since the last one. -/
theorem Base.take (h : Base o s) {notes : Notes π} {stored : KeyedMap Text Text}
    (hsigning : ∀ id path content since, s.texts.get id = some (.full path content since) → since = s.told.length)
    (hclear : ∀ n ∈ notes.notes, s.find o stored n = .adopted → s.justReceived n.id = true) :
    Signed o (s.take o notes stored) := by
  unfold State.take
  dsimp only
  generalize hmetaSigs : notes.notes.foldl (fun m n => m.set n.id (o.metaSignature n)) s.metaSigs = metaSigs
  generalize hreceived : List.foldl KeyedMap.delete s.received _ = received
  generalize hgone : List.filter _ (stored.entries.map Prod.fst) = gone
  have hms : ∀ n ∈ notes.notes, metaSigs.get n.id = some (o.metaSignature n) := by
    intro n hn
    rw [← hmetaSigs, KeyedMap.get_foldl_set SharedNote.id o.metaSignature notes.nodup]
    exact .inl ⟨n, hn, rfl, rfl⟩
  have hlast : (s.told ++ [metaSigs]).getLast? = some metaSigs := List.getLast?_concat
  have hbase : Base o
      { s with
        stored := some stored, metaSigs := metaSigs, fresh := [], told := s.told ++ [metaSigs]
        received := received } := by
    refine ⟨?_, ?_, ?_⟩
    · intro id ms hget
      exact ⟨metaSigs, hlast, hget⟩
    · intro id c hget
      have hrecent := h.texts id c hget
      cases c with
      | full path content since =>
        obtain rfl := hsigning id path content since hget
        simp [Recent]
      | record => cases hrecent
    · intro e he
      obtain ⟨c, hc, hstands⟩ := h.recorded e he
      exact ⟨c, hc, hstands.told metaSigs⟩
  have hpresent : ∀ n ∈ notes.notes, ¬ n.id ∉ notes.notes.map SharedNote.id := by
    intro n hn
    exact not_not_intro (List.mem_map_of_mem hn)
  have hwork : ∀ gone, WorkSigned o (s.told ++ [metaSigs]) s.docs metaSigs (· ∉ notes.notes.map SharedNote.id)
      ⟨gone, KeyedMap.ofList SharedNote.id (fun n => TEXT ++ o.metaSignature n)
        (notes.notes.filter fun n => s.find o stored n = .adopted),
        notes.notes.filter fun n => s.find o stored n = .metaOnly,
        notes.notes.filter fun n => s.find o stored n = .reread⟩ := by
    intro gone
    refine ⟨?_, ?_⟩
    · intro id sig hsig
      obtain ⟨n, hn, rfl, rfl⟩ := KeyedMap.of_get_ofList hsig
      obtain ⟨hn, hfound⟩ := List.mem_filter.1 hn
      have hjust := hclear n hn (of_decide_eq_true hfound)
      refine ⟨hpresent n hn, ?_⟩
      unfold State.justReceived at hjust
      split at hjust
      · rename_i path content since hdocs
        obtain rfl : since = s.told.length := by simpa using hjust
        refine ⟨_, hdocs, o.metaSignature n, rfl, .inr ⟨s.told.length, metaSigs, .inr rfl, ?_, hms n hn⟩⟩
        simp
      · cases hjust
    · intro n hn
      have hn : n ∈ notes.notes := by
        obtain hn | hn := List.mem_append.1 hn
        · exact (List.mem_filter.1 hn).1
        · exact (List.mem_filter.1 hn).1
      exact ⟨hpresent n hn, hms n hn⟩
  have hout : ∀ id ∈ gone, id ∉ notes.notes.map SharedNote.id := by
    intro id hid
    rw [← hgone] at hid
    simpa using (List.mem_filter.1 hid).2
  split
  · exact ⟨⟨hbase.known, hbase.texts, hbase.recorded⟩, hwork gone, hout⟩
  · exact hbase.sweep (hwork []) hout

theorem get_applyDocs (s : State π) (w : Write π) (hinputs : w.inputs.get id = none)
    (hremoved : id ∉ w.removed) : (s.applyDocs w).docs.get id = s.docs.get id := by
  rw [State.applyDocs, KeyedMap.get_putAll, KeyedMap.get_foldl_delete_keys, if_neg hremoved, hinputs]
  rfl

theorem get_applyDocs_input (s : State π) (w : Write π) {c : Content π}
    (hinputs : w.inputs.get id = some c) : (s.applyDocs w).docs.get id = some c := by
  rw [State.applyDocs, KeyedMap.get_putAll, hinputs]
  rfl

variable {w : Write π}

theorem WriteSigned.apply (h : WriteSigned o s.told s.docs w false) :
    WriteSigned o s.told (s.applyDocs w).docs w true := by
  refine ⟨?_, fun _ id c hinputs => get_applyDocs_input s w hinputs⟩
  intro id sig hsig
  obtain ⟨c, hstands, hinput | ⟨hnone, hremoved, hdocs⟩⟩ := h.sigs id sig hsig
  · exact ⟨c, hstands, .inl hinput⟩
  · exact ⟨c, hstands, .inr ⟨hnone, hremoved, (get_applyDocs s w hnone hremoved).trans hdocs⟩⟩

theorem WriteSigned.record {docs : KeyedMap Text (Content π)}
    (h : WriteSigned o told docs w true) {e : Text × Text} (he : e ∈ w.sigs.entries) :
    Recorded o told (e.1, e.2, docs.get e.1) := by
  obtain ⟨c, hstands, hinput | ⟨-, -, hdocs⟩⟩ := h.sigs e.1 e.2 (KeyedMap.mem_iff.mp he)
  · exact ⟨c, h.applied rfl e.1 c hinput, hstands⟩
  · exact ⟨c, hdocs, hstands⟩

theorem Base.sign (h : Base o s) (hw : WriteSigned o s.told s.docs w true) :
    Base o ((s.record w.removed w.sigs).note w) := by
  refine ⟨h.known, h.texts, ?_⟩
  intro e he
  obtain hold | hnew := List.mem_append.1 he
  · exact h.recorded e hold
  · obtain ⟨e', he', rfl⟩ := List.mem_map.1 hnew
    exact hw.record he'

theorem Base.fails (h : Base o s) {applied : Bool} (hw : WriteSigned o s.told s.docs w applied)
    (n : Nat) : Signed o { s.recordSome w applied n with stage := .idle } := by
  refine ⟨?_, trivial⟩
  cases applied with
  | false => exact ⟨h.known, h.texts, h.recorded⟩
  | true =>
    refine ⟨h.known, h.texts, ?_⟩
    intro e he
    obtain hold | hnew := List.mem_append.1 he
    · exact h.recorded e hold
    · obtain ⟨e', he', rfl⟩ := List.mem_map.1 hnew
      exact hw.record (List.mem_of_mem_take he')

theorem Base.refreshed (h : Base o s) {note : SharedNote π} (content : Option Text)
    (hwork : WorkSigned o s.told s.docs s.metaSigs (· ∈ work.gone) { work with reread := note :: work.reread }) :
    WriteSigned o s.told s.docs (s.refreshed o note content) false := by
  have hms := (hwork.known note (List.mem_append_right _ List.mem_cons_self)).2
  refine ⟨?_, fun happlied => by cases happlied⟩
  intro id sig hsig
  unfold State.refreshed at hsig ⊢
  cases content with
  | some content =>
    simp only [KeyedMap.get_set, hms, Option.getD_some] at hsig ⊢
    split at hsig
    · rename_i hid
      obtain rfl := hid
      obtain rfl := Option.some.inj hsig
      refine ⟨_, ?_, .inl (if_pos rfl)⟩
      exact stands_of_known ⟨Nat.le_refl _, Nat.le_succ _⟩ (h.known note.id _ hms)
    · cases hsig
  | none =>
    simp only [KeyedMap.get_set, hms, Option.getD_some] at hsig ⊢
    split at hsig
    · rename_i hid
      obtain rfl := hid
      obtain rfl := Option.some.inj hsig
      exact ⟨.record note, rfl, .inl (if_pos rfl)⟩
    · cases hsig

theorem WorkSigned.rest {docs : KeyedMap Text (Content π)}
    {metaSigs : KeyedMap Text Text} {gone : Text → Prop} {note : SharedNote π}
    (h : WorkSigned o told docs metaSigs gone { work with reread := note :: work.reread }) :
    WorkSigned o told docs metaSigs gone work := by
  refine ⟨h.adopted, ?_⟩
  intro n hn
  refine h.known n ?_
  obtain hmeta | hreread := List.mem_append.1 hn
  · exact List.mem_append_left _ hmeta
  · exact List.mem_append_right _ (List.mem_cons_of_mem _ hreread)

theorem step_signed {s' : State π} (h : Signed o s) (event : Event π) (hclear : Clear o s event)
    (hstep : step o s event = some s') : Signed o s' := by
  have hstage := h.stage
  cases event with
  | setNotes notes =>
    obtain rfl := Option.some.inj hstep
    exact Signed.pump ⟨⟨h.known, h.texts, h.recorded⟩, h.stage⟩
  | noteText id path content =>
    obtain rfl := Option.some.inj hstep
    exact (h.noteText id path content).pump
  | dispose =>
    obtain rfl := Option.some.inj hstep
    have hnone : ∀ id c, (KeyedMap.empty : KeyedMap Text (Content π)).get id ≠ some c := by
      intro id c hget
      cases hget
    refine ⟨⟨h.known, fun id c hget => absurd hget (hnone id c), h.recorded⟩, ?_⟩
    cases hs : s.stage with
    | signing notes => exact fun id _ _ _ hget => absurd hget (hnone id _)
    | idle | batching | marking | writing | listing | syncing | reading =>
      rw [hs] at hstage
      exact hstage
  | signatures =>
    simp only [step] at hstep
    split at hstep
    · obtain rfl := Option.some.inj hstep
      exact Base.takeBatch ⟨h.known, h.texts, h.recorded⟩
    · rename_i notes hs
      obtain rfl := Option.some.inj hstep
      rw [hs] at hstage
      simp only [Clear, hs] at hclear
      exact h.toBase.take hstage hclear
    · cases hstep
  | paths =>
    simp only [step] at hstep
    split at hstep
    · rename_i present work hs
      obtain rfl := Option.some.inj hstep
      rw [hs] at hstage
      refine h.toBase.sweep hstage.1 ?_
      intro id hid
      obtain hgone | hextra := List.mem_append.1 hid
      · exact hstage.2 id hgone
      · have hboth := (List.mem_filter.1 hextra).2
        simp only [Bool.and_eq_true, Bool.not_eq_true', List.contains_eq_mem, decide_eq_false_iff_not] at hboth
        exact hboth.1
    · cases hstep
  | apply =>
    simp only [step] at hstep
    split at hstep
    · rename_i w hs
      obtain rfl := Option.some.inj hstep
      rw [hs] at hstage
      exact ⟨⟨h.known, h.texts, h.recorded⟩, WriteSigned.apply hstage⟩
    · rename_i work w hs
      obtain rfl := Option.some.inj hstep
      rw [hs] at hstage
      obtain ⟨hw, hwork, hother⟩ := hstage
      refine ⟨⟨h.known, h.texts, h.recorded⟩, hw.apply, ⟨?_, hwork.known⟩, hother⟩
      intro id sig hsig
      obtain ⟨hgone, c, hdocs, hstands⟩ := hwork.adopted id sig hsig
      obtain ⟨hremoved, hinputs⟩ := hother id sig hsig
      exact ⟨hgone, c, (get_applyDocs s w hinputs hremoved).trans hdocs, hstands⟩
    · cases hstep
  | sign =>
    simp only [step] at hstep
    split at hstep
    · rename_i w hs
      obtain rfl := Option.some.inj hstep
      rw [hs] at hstage
      have hbase := h.toBase.sign hstage
      exact Base.next ⟨hbase.known, hbase.texts, hbase.recorded⟩
    · rename_i work w hs
      obtain rfl := Option.some.inj hstep
      rw [hs] at hstage
      exact (h.toBase.sign hstage.1).proceed hstage.2.1
    · cases hstep
  | readText content =>
    simp only [step] at hstep
    split at hstep
    · rename_i work note hs
      obtain rfl := Option.some.inj hstep
      rw [hs] at hstage
      obtain ⟨hwork, hnone⟩ := hstage
      refine ⟨⟨h.known, h.texts, h.recorded⟩, h.toBase.refreshed content hwork, hwork.rest, ?_⟩
      exact fun id sig hsig => absurd hsig (hnone id sig)
    · cases hstep
  | readFails =>
    simp only [step] at hstep
    split at hstep
    · rename_i work note hs
      obtain rfl := Option.some.inj hstep
      rw [hs] at hstage
      exact h.toBase.proceed hstage.1.rest
    · cases hstep
  | marked =>
    simp only [step] at hstep
    split at hstep
    · obtain rfl := Option.some.inj hstep
      exact h.toBase.finish
    · cases hstep
  | fails n =>
    have hidle : Signed o { s with stage := .idle } := ⟨⟨h.known, h.texts, h.recorded⟩, trivial⟩
    simp only [step] at hstep
    split at hstep
    · obtain ⟨-, rfl⟩ := Option.ite_some_none_eq_some.1 hstep
      exact hidle
    · obtain ⟨-, rfl⟩ := Option.ite_some_none_eq_some.1 hstep
      exact hidle
    · rename_i w applied hs
      obtain rfl := Option.some.inj hstep
      rw [hs] at hstage
      exact h.toBase.fails hstage n
    · rename_i work w applied hs
      obtain rfl := Option.some.inj hstep
      rw [hs] at hstage
      exact h.toBase.fails hstage.1 n
    · obtain rfl := Option.some.inj hstep
      exact hidle
    · obtain rfl := Option.some.inj hstep
      exact hidle
    · cases hstep

end

end Savoire.SharedIndexFeeder
