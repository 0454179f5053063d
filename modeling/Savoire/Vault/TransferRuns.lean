import Savoire.Vault.TransferPlan

/-! Transfers one after the other, each run to its end or stopped between two documents: a target
holds one copy of each document, and a transfer of what is there already adds nothing. -/
namespace Savoire.VaultTransfer
open Transition (Run)
open VaultClient (DocId Directory)

section Definitions
variable (kindOf : Text → EntryKind) (source : Vault) (s : State) (e : Event)

/-- The paths in use when a transfer comes to the path of a document. -/
def takenFor (id : DocId) : List Text :=
  takenAt (takenPaths kindOf source.docs s.target e.accepts e.acceptsNew e.uuid)
    (keptPlans kindOf source.docs s.target e.accepts e.acceptsNew e.uuid) id

/-- What a transfer asks of the state before it. -/
structure Clear : Prop where
  /-- A document with its copy under another id is refused again. -/
  steady : ∀ c ∈ s.copies, c.2 ≠ c.1 → ∀ ids, c.1 ∈ ids → e.accepts ids = false
  /-- No other document of its path is refused. -/
  apart : ∀ c ∈ s.copies, c.2 ≠ c.1 → ∀ doc ∈ source.docs.entries, source.docs.get c.1 = some doc.2 → doc.1 ≠ c.1 →
    s.target.getById doc.1 = none → e.accepts [doc.1] = true
  /-- A document that is copied under a new id finds its own path free. -/
  free : ∀ plan ∈ keptPlans kindOf source.docs s.target e.accepts e.acceptsNew e.uuid, renewed plan = true →
    plan.source.1 ∈ e.written → (∀ c ∈ s.copies, c.1 ≠ plan.source.1) →
    plan.source.2 ∉ takenFor kindOf source s e plan.source.1

def Continues (id copy : DocId) : Prop :=
  ∃ path, source.docs.get id = some path ∧ s.target.getById id = none ∧ source.docs.get copy = none ∧
    s.target.getById copy = some path

structure Inv : Prop where
  distinct : s.target.Distinct
  copies : ∀ c ∈ s.copies, (c.2 = c.1 ∧ source.docs.get c.1 ≠ none ∧ s.target.getById c.1 ≠ none) ∨
    Continues source s c.1 c.2
  unshared : ∀ c ∈ s.copies, ∀ c' ∈ s.copies, c.2 = c'.2 → c.1 = c'.1

end Definitions

section Write
variable {d : Directory} {plans : List Plan} {plan : Plan} {id : DocId} {path : Text}

theorem of_getById_writeDocument (h : (writeDocument d plan).getById id = some path) :
    d.getById id = some path ∨ plan.existing = false ∧ plan.targetId = id ∧ plan.targetPath = path := by
  unfold writeDocument at h
  split at h
  · rename_i hnew
    rw [Directory.getById_add] at h
    split at h
    · rename_i hid
      exact .inr ⟨by simpa using hnew.1, hid.symm, Option.some.inj h⟩
    · exact .inl h
  · exact .inl h

theorem getById_writeDocument (h : d.getById id = some path) : (writeDocument d plan).getById id = some path := by
  unfold writeDocument
  split
  · rename_i hnew
    rw [Directory.getById_add, if_neg]
    · exact h
    · intro hid
      rw [hid, hnew.2] at h
      cases h
  · exact h

theorem getById_writeDocument_ne_none (hnew : plan.existing = false) : (writeDocument d plan).getById plan.targetId ≠ none := by
  unfold writeDocument
  split
  · rw [Directory.getById_add, if_pos rfl]
    simp
  · rename_i hthere
    intro hnone
    cases hold : d.getById plan.targetId with
    | none => exact hthere ⟨by simp [hnew], hold⟩
    | some path =>
      rw [hold] at hnone
      cases hnone

theorem of_getById_write (h : (plans.foldl writeDocument d).getById id = some path) :
    d.getById id = some path ∨ ∃ q ∈ plans, q.existing = false ∧ q.targetId = id ∧ q.targetPath = path := by
  induction plans generalizing d with
  | nil => exact .inl h
  | cons plan rest ih =>
    obtain h | ⟨q, hq, hrest⟩ := ih h
    · obtain h | hplan := of_getById_writeDocument h
      · exact .inl h
      · exact .inr ⟨plan, List.mem_cons_self, hplan⟩
    · exact .inr ⟨q, List.mem_cons_of_mem plan hq, hrest⟩

theorem getById_write (h : d.getById id = some path) : (plans.foldl writeDocument d).getById id = some path := by
  induction plans generalizing d with
  | nil => exact h
  | cons plan rest ih => exact ih (getById_writeDocument h)

theorem getById_write_ne_none (hplan : plan ∈ plans) (hnew : plan.existing = false) :
    (plans.foldl writeDocument d).getById plan.targetId ≠ none := by
  induction plans generalizing d with
  | nil => cases hplan
  | cons first rest ih =>
    obtain rfl | hplan := List.mem_cons.1 hplan
    · obtain ⟨path, hpath⟩ := Option.ne_none_iff_exists'.1 (getById_writeDocument_ne_none (d := d) hnew)
      rw [List.foldl_cons, getById_write hpath]
      simp
    · exact ih hplan

theorem write_existing (h : ∀ q ∈ plans, q.existing = true) : plans.foldl writeDocument d = d := by
  induction plans with
  | nil => rfl
  | cons plan rest ih =>
    have hplan : writeDocument d plan = d := if_neg (by simp [h plan List.mem_cons_self])
    rw [List.foldl_cons, hplan]
    exact ih fun q hq => h q (List.mem_cons_of_mem plan hq)

theorem map_addFolders (folders : List Text) (d : Directory) : (folders.foldl (·.addFolder ·) d).map = d.map := by
  induction folders generalizing d with
  | nil => rfl
  | cons f rest ih => exact ih (d.addFolder f)

end Write

section Step
variable {kindOf : Text → EntryKind} {source : Vault} {s s' : State} {e : Event} {p q : Plan} {id : DocId} {path : Text}

theorem of_mem_writtenPlans (h : q ∈ writtenPlans kindOf source s e) :
    q.source.1 ∈ e.written ∧ q ∈ plansOf kindOf source s e := by
  obtain ⟨id, hid, hfind⟩ := List.mem_filterMap.1 h
  have hsource : q.source.1 = id := by simpa using List.find?_some hfind
  rw [hsource]
  exact ⟨hid, List.mem_of_find?_eq_some hfind⟩

theorem mem_writtenPlans (hq : q ∈ plansOf kindOf source s e) (hwritten : q.source.1 ∈ e.written) :
    q ∈ writtenPlans kindOf source s e := by
  refine List.mem_filterMap.2 ⟨q.source.1, hwritten, ?_⟩
  have hfound : ((plansOf kindOf source s e).find? fun plan => plan.source.1 = q.source.1).isSome = true :=
    List.find?_isSome.2 ⟨q, hq, by simp⟩
  obtain ⟨r, hr⟩ := Option.isSome_iff_exists.1 hfound
  have hsource : r.source.1 = q.source.1 := by simpa using List.find?_some hr
  have hrmem : r ∈ plansOf kindOf source s e := List.mem_of_find?_eq_some hr
  rw [hr, eq_of_source hrmem hq hsource]

theorem of_getById_transfer (h : (transferVault kindOf source s e).target.getById id = some path) :
    s.target.getById id = some path ∨
      ∃ q ∈ writtenPlans kindOf source s e, q.existing = false ∧ q.targetId = id ∧ q.targetPath = path := by
  obtain h | h := of_getById_write h
  · refine .inl ?_
    rwa [Directory.getById, map_addFolders] at h
  · exact .inr h

theorem getById_transfer (h : s.target.getById id = some path) :
    (transferVault kindOf source s e).target.getById id = some path := by
  refine getById_write ?_
  rwa [Directory.getById, map_addFolders]

theorem map_transfer (h : ∀ q ∈ plansOf kindOf source s e, q.existing = true) :
    (transferVault kindOf source s e).target.map = s.target.map := by
  rw [transferVault, write_existing fun q hq => h q (of_mem_writtenPlans hq).2]
  exact map_addFolders _ _

theorem source_plan (hq : q ∈ plansOf kindOf source s e) : source.docs.get q.source.1 = some q.source.2 := source_final hq

theorem origin_plan (hq : q ∈ plansOf kindOf source s e) :
    Origin source.docs s.target (rejectedIds kindOf source.docs s.target e.accepts) e.uuid q := origin_final hq

theorem FreshIds.of_get (h : FreshIds source s e) (hid : source.docs.get id = some path) :
    source.docs.get (e.uuid id) = none ∧ s.target.getById (e.uuid id) = none :=
  h.2 (id, path) (KeyedMap.mem_iff.2 hid)

theorem FreshIds.inj {i j : DocId} {a b : Text} (h : FreshIds source s e) (hi : source.docs.get i = some a)
    (hj : source.docs.get j = some b) (heq : e.uuid i = e.uuid j) : i = j :=
  congrArg Prod.fst (List.inj_on_of_nodup_map h.1 (KeyedMap.mem_iff.2 hi) (KeyedMap.mem_iff.2 hj) heq)

theorem targetId_cases (hfresh : FreshIds source s e) (hq : q ∈ plansOf kindOf source s e) :
    q.targetId = q.source.1 ∨
      (source.docs.get q.targetId = none ∧ q.existing = true ∧ s.target.getById q.targetId = some q.source.2) ∨
        (source.docs.get q.targetId = none ∧ s.target.getById q.targetId = none ∧ q.targetId = e.uuid q.source.1) := by
  cases origin_plan hq with
  | own _ hid _ => exact .inl hid
  | accepted _ hid _ _ => exact .inl hid
  | resumed hexisting _ _ hpath hother => exact .inr (.inl ⟨hother, hexisting, hpath⟩)
  | renewed _ _ _ hid =>
    obtain ⟨hother, hnone⟩ := hfresh.of_get (source_plan hq)
    rw [← hid] at hother hnone
    exact .inr (.inr ⟨hother, hnone, hid⟩)

theorem eq_of_targetId (hfresh : FreshIds source s e) (hp : p ∈ plansOf kindOf source s e)
    (hq : q ∈ plansOf kindOf source s e) (h : p.targetId = q.targetId) : p = q := by
  have hpsource := source_plan hp
  have hqsource := source_plan hq
  obtain hpid | ⟨hpother, hpexisting, hpthere⟩ | ⟨hpother, hpnone, hpid⟩ := targetId_cases hfresh hp
  · obtain hqid | ⟨hqother, -⟩ | ⟨hqother, -⟩ := targetId_cases hfresh hq
    · exact eq_of_source hp hq (by rw [← hpid, h, hqid])
    · rw [← h, hpid, hpsource] at hqother
      cases hqother
    · rw [← h, hpid, hpsource] at hqother
      cases hqother
  · obtain hqid | ⟨-, hqexisting, -⟩ | ⟨-, hqnone, -⟩ := targetId_cases hfresh hq
    · rw [h, hqid, hqsource] at hpother
      cases hpother
    · exact existing_final_apart hp hq hpexisting hqexisting h
    · rw [h, hqnone] at hpthere
      cases hpthere
  · obtain hqid | ⟨-, -, hqthere⟩ | ⟨-, -, hqid⟩ := targetId_cases hfresh hq
    · rw [h, hqid, hqsource] at hpother
      cases hpother
    · rw [← h, hpnone] at hqthere
      cases hqthere
    · refine eq_of_source hp hq (hfresh.inj hpsource hqsource ?_)
      rw [← hpid, ← hqid, h]

theorem accepted_of_new (hfresh : FreshIds source s e) (hq : q ∈ plansOf kindOf source s e) (hnew : q.existing = false)
    (hsource : source.docs.get q.targetId ≠ none) :
    q.targetId = q.source.1 ∧ q.source.1 ∉ rejectedIds kindOf source.docs s.target e.accepts := by
  cases origin_plan hq with
  | own hexisting _ _ =>
    rw [hexisting] at hnew
    cases hnew
  | accepted _ hid _ haccepted => exact ⟨hid, haccepted⟩
  | resumed hexisting _ _ _ _ =>
    rw [hexisting] at hnew
    cases hnew
  | renewed _ _ _ hid =>
    rw [hid] at hsource
    exact absurd (hfresh.of_get (source_plan hq)).1 hsource

theorem distinct_transfer (h : s.target.Distinct) : (transferVault kindOf source s e).target.Distinct := by
  have hnew : ∀ q ∈ writtenPlans kindOf source s e, q.existing = false → ∀ i, s.target.getById i ≠ some q.targetPath :=
    fun q hq hnew i hi => path_final (of_mem_writtenPlans hq).2 hnew (Directory.mem_paths.2 ⟨i, hi⟩)
  intro i j path hi hj
  obtain hi | ⟨p, hp, hpnew, rfl, hppath⟩ := of_getById_transfer hi
  · obtain hj | ⟨q, hq, hqnew, rfl, hqpath⟩ := of_getById_transfer hj
    · exact h i j path hi hj
    · rw [← hqpath] at hi
      exact absurd hi (hnew q hq hqnew i)
  · obtain hj | ⟨q, hq, hqnew, rfl, hqpath⟩ := of_getById_transfer hj
    · rw [← hppath] at hj
      exact absurd hj (hnew p hp hpnew j)
    · rw [path_final_apart (of_mem_writtenPlans hp).2 (of_mem_writtenPlans hq).2 hpnew hqnew (hppath.trans hqpath.symm)]

theorem getById_transfer_none (hfresh : FreshIds source s e) (hsource : source.docs.get id = some path)
    (hthere : s.target.getById id = none) (hrejected : id ∈ rejectedIds kindOf source.docs s.target e.accepts) :
    (transferVault kindOf source s e).target.getById id = none := by
  by_contra hne
  obtain ⟨there, hsome⟩ := Option.ne_none_iff_exists'.1 hne
  obtain hold | ⟨q, hq, hnew, hid, -⟩ := of_getById_transfer hsome
  · rw [hthere] at hold
    cases hold
  · obtain ⟨hown, haccepted⟩ := accepted_of_new hfresh (of_mem_writtenPlans hq).2 hnew (by rw [hid, hsource]; simp)
    rw [← hown, hid] at haccepted
    exact haccepted hrejected

theorem Continues.ne {copy : DocId} (h : Continues source s id copy) : copy ≠ id := by
  obtain ⟨path, hsource, -, hother, -⟩ := h
  rintro rfl
  rw [hsource] at hother
  cases hother

theorem Clear.rejected {copy : DocId} (hclear : Clear kindOf source s e) (hc : (id, copy) ∈ s.copies)
    (hcopy : Continues source s id copy) : id ∈ rejectedIds kindOf source.docs s.target e.accepts := by
  have hne := hcopy.ne
  obtain ⟨path, hsource, hthere, -⟩ := hcopy
  exact mem_rejectedIds hsource hthere (hclear.steady _ hc hne)

theorem Inv.resumes {copy : DocId} (h : Inv source s) (hclear : Clear kindOf source s e) (hc : (q.source.1, copy) ∈ s.copies)
    (hcopy : Continues source s q.source.1 copy) (hq : q ∈ plansOf kindOf source s e) :
    q.existing = true ∧ q.targetId = copy := by
  have hrejected := hclear.rejected hc hcopy
  have hne := hcopy.ne
  obtain ⟨path, hsource, hthere, hother, hpath⟩ := hcopy
  rw [source_plan hq] at hsource
  rw [← Option.some.inj hsource] at hpath
  have hexisting : q.existing = true := by
    refine resumed_final h.distinct hq hrejected hpath hother fun i hi hinone hirejected => ?_
    by_contra hother
    have haccepted := hclear.apart _ hc hne (i, q.source.2) (KeyedMap.mem_iff.2 hi) (source_plan hq) hother hinone
    rw [(of_registerFinding hirejected).2] at haccepted
    cases haccepted
  refine ⟨hexisting, ?_⟩
  cases origin_plan hq with
  | own _ _ hown =>
    rw [hthere] at hown
    cases hown
  | accepted hnew _ _ _ =>
    rw [hexisting] at hnew
    cases hnew
  | resumed _ _ _ hqpath _ => exact h.distinct _ _ _ hqpath hpath
  | renewed hnew _ _ _ =>
    rw [hexisting] at hnew
    cases hnew

theorem Inv.renewed_path (h : Inv source s) (hclear : Clear kindOf source s e) (hq : q ∈ writtenPlans kindOf source s e)
    (hnew : q.existing = false) (hid : q.targetId ≠ q.source.1) : q.targetPath = q.source.2 := by
  obtain ⟨hwritten, hplan⟩ := of_mem_writtenPlans hq
  have hcopies : ∀ c ∈ s.copies, c.1 ≠ q.source.1 := by
    rintro ⟨i, copy⟩ hc rfl
    obtain ⟨-, -, hthere⟩ | hcopy := h.copies _ hc
    · cases origin_plan hplan with
      | own hexisting _ _ | resumed hexisting _ _ _ _ =>
        rw [hexisting] at hnew
        cases hnew
      | accepted _ _ hnone _ | renewed _ hnone _ _ => exact hthere hnone
    · rw [(h.resumes hclear hc hcopy hplan).1] at hnew
      cases hnew
  obtain ⟨p, hp, hrelabeled, hpq⟩ := of_final hplan
  refine path_final_free hplan hnew ?_
  have hfree := hclear.free p hp ?_ (by rwa [← hpq.source]) (by rwa [← hpq.source])
  · rwa [← hpq.source] at hfree
  · rw [hpq.targetId, hpq.source] at hid
    simp [renewed, hid, hpq.existing.symm.trans hnew]

theorem Inv.recorded (h : Inv source s) (hclear : Clear kindOf source s e) (hfresh : FreshIds source s e)
    (hq : q ∈ writtenPlans kindOf source s e) :
    (q.targetId = q.source.1 ∧ source.docs.get q.source.1 ≠ none ∧
        (transferVault kindOf source s e).target.getById q.source.1 ≠ none) ∨
      Continues source (transferVault kindOf source s e) q.source.1 q.targetId := by
  have hplan := (of_mem_writtenPlans hq).2
  have hsource := source_plan hplan
  cases origin_plan hplan with
  | own _ hid hthere =>
    rw [hsource, getById_transfer hthere]
    exact .inl ⟨hid, by simp, by simp⟩
  | accepted hnew hid _ _ =>
    have hthere : (transferVault kindOf source s e).target.getById q.targetId ≠ none := getById_write_ne_none hq hnew
    rw [hid] at hthere
    rw [hsource]
    exact .inl ⟨hid, by simp, hthere⟩
  | resumed _ hthere hrejected hpath hother =>
    exact .inr ⟨q.source.2, hsource, getById_transfer_none hfresh hsource hthere hrejected, hother, getById_transfer hpath⟩
  | renewed hnew hthere hrejected hid =>
    obtain ⟨hother, hnone⟩ := hfresh.of_get hsource
    rw [← hid] at hother hnone
    refine .inr ⟨q.source.2, hsource, getById_transfer_none hfresh hsource hthere hrejected, hother, ?_⟩
    have hwritten : (transferVault kindOf source s e).target.getById q.targetId ≠ none := getById_write_ne_none hq hnew
    obtain ⟨path, hpath⟩ := Option.ne_none_iff_exists'.1 hwritten
    obtain hold | ⟨r, hr, -, hrid, hrpath⟩ := of_getById_transfer hpath
    · rw [hnone] at hold
      cases hold
    · have hne : q.targetId ≠ q.source.1 := by
        intro heq
        rw [heq, hsource] at hother
        cases hother
      rw [eq_of_targetId hfresh (of_mem_writtenPlans hr).2 hplan hrid, h.renewed_path hclear hq hnew hne] at hrpath
      rw [hpath, hrpath]

theorem Inv.unshared_written (h : Inv source s) (hclear : Clear kindOf source s e) (hfresh : FreshIds source s e)
    {c : DocId × DocId} (hc : c ∈ s.copies) (hq : q ∈ plansOf kindOf source s e) (heq : c.2 = q.targetId) :
    c.1 = q.source.1 := by
  have hsource := source_plan hq
  obtain ⟨hid, hdoc, hthere⟩ | hcopy := h.copies c hc
  · -- the copy is the document itself
    cases origin_plan hq with
    | own _ hqid _ => exact hid.symm.trans (heq.trans hqid)
    | accepted _ hqid _ _ => exact hid.symm.trans (heq.trans hqid)
    | resumed _ _ _ _ hother =>
      rw [← heq, hid] at hother
      exact absurd hother hdoc
    | renewed _ _ _ hqid =>
      rw [hid.symm.trans (heq.trans hqid)] at hdoc
      exact absurd (hfresh.of_get hsource).1 hdoc
  · have hne := hcopy.ne
    obtain ⟨path, hcsource, hcnone, hother, hthere⟩ := hcopy
    cases origin_plan hq with
    | own _ hqid _ =>
      rw [heq, hqid, hsource] at hother
      cases hother
    | accepted _ hqid _ _ =>
      rw [heq, hqid, hsource] at hother
      cases hother
    | resumed _ hqnone hrejected hpath _ =>
      -- both documents have the path of the copy
      rw [← heq, hthere] at hpath
      rw [Option.some.inj hpath] at hcsource
      by_contra hdiff
      have haccepted := hclear.apart c hc hne q.source (KeyedMap.mem_iff.2 hsource) hcsource (Ne.symm hdiff) hqnone
      rw [(of_registerFinding hrejected).2] at haccepted
      cases haccepted
    | renewed _ _ _ hqid =>
      rw [heq, hqid, (hfresh.of_get hsource).2] at hthere
      cases hthere

theorem Inv.transfer (h : Inv source s) (hclear : Clear kindOf source s e) (hfresh : FreshIds source s e) :
    Inv source (transferVault kindOf source s e) where
  distinct := distinct_transfer h.distinct
  copies c hc := by
    obtain hc | hc := List.mem_append.1 hc
    · obtain ⟨hid, hdoc, hthere⟩ | hcopy := h.copies c hc
      · obtain ⟨path, hpath⟩ := Option.ne_none_iff_exists'.1 hthere
        exact .inl ⟨hid, hdoc, by simp [getById_transfer hpath]⟩
      · have hrejected := hclear.rejected hc hcopy
        obtain ⟨path, hsource, hnone, hother, hthere⟩ := hcopy
        exact .inr ⟨path, hsource, getById_transfer_none hfresh hsource hnone hrejected, hother, getById_transfer hthere⟩
    · obtain ⟨q, hq, rfl⟩ := List.mem_map.1 hc
      exact h.recorded hclear hfresh hq
  unshared c hc c' hc' heq := by
    obtain hc | hc := List.mem_append.1 hc
    · obtain hc' | hc' := List.mem_append.1 hc'
      · exact h.unshared c hc c' hc' heq
      · obtain ⟨q, hq, rfl⟩ := List.mem_map.1 hc'
        exact h.unshared_written hclear hfresh hc (of_mem_writtenPlans hq).2 heq
    · obtain ⟨q, hq, rfl⟩ := List.mem_map.1 hc
      obtain hc' | hc' := List.mem_append.1 hc'
      · exact (h.unshared_written hclear hfresh hc' (of_mem_writtenPlans hq).2 heq.symm).symm
      · obtain ⟨r, hr, rfl⟩ := List.mem_map.1 hc'
        exact congrArg (·.source.1) (eq_of_targetId hfresh (of_mem_writtenPlans hq).2 (of_mem_writtenPlans hr).2 heq)

theorem step_cases (h : step kindOf source s e = some s') : FreshIds source s e ∧ s' = transferVault kindOf source s e := by
  unfold step at h
  split at h
  · rename_i hfresh
    exact ⟨hfresh, (Option.some.inj h).symm⟩
  · cases h

theorem step_inv (h : Inv source s) (hclear : Clear kindOf source s e) (hstep : step kindOf source s e = some s') :
    Inv source s' := by
  obtain ⟨hfresh, rfl⟩ := step_cases hstep
  exact h.transfer hclear hfresh

def Copied (source : Vault) (s : State) : Prop := ∀ doc ∈ source.docs.entries, ∃ copy, Copy s doc.1 copy

theorem Inv.copy_unique {t t' : DocId} (h : Inv source s) (ht : Copy s id t) (ht' : Copy s id t') : t = t' := by
  have hother : ∀ c, (id, c) ∈ s.copies → c = id ∨ s.target.getById id = none ∧
      ∃ path, source.docs.get id = some path ∧ s.target.getById c = some path := by
    intro c hc
    obtain ⟨hid, -⟩ | ⟨path, hsource, hnone, -, hthere⟩ := h.copies _ hc
    · exact .inl hid
    · exact .inr ⟨hnone, path, hsource, hthere⟩
  have hcases : ∀ c, Copy s id c → (c = id ∧ s.target.getById id ≠ none) ∨ s.target.getById id = none ∧
      ∃ path, source.docs.get id = some path ∧ s.target.getById c = some path := by
    rintro c ⟨hthere, rfl | hc⟩
    · exact .inl ⟨rfl, hthere⟩
    · obtain rfl | h := hother c hc
      · exact .inl ⟨rfl, hthere⟩
      · exact .inr h
  obtain ⟨hid, hsome⟩ | ⟨hnone, path, hsource, hpath⟩ := hcases t ht
  · obtain ⟨hid', -⟩ | ⟨hnone, -⟩ := hcases t' ht'
    · exact hid.trans hid'.symm
    · exact absurd hnone hsome
  · obtain ⟨-, hsome⟩ | ⟨-, path', hsource', hpath'⟩ := hcases t' ht'
    · exact absurd hnone hsome
    · rw [hsource] at hsource'
      rw [← Option.some.inj hsource'] at hpath'
      exact h.distinct t t' path hpath hpath'

theorem Inv.copy_unshared {i j t : DocId} {a b : Text} (h : Inv source s) (hi : source.docs.get i = some a)
    (hj : source.docs.get j = some b) (hit : Copy s i t) (hjt : Copy s j t) : i = j := by
  have hown : ∀ {k l : DocId} {c : Text}, source.docs.get k = some c → (l, k) ∈ s.copies → k = l := by
    intro k l c hk hc
    obtain ⟨hid, -⟩ | ⟨path, -, -, hother, -⟩ := h.copies _ hc
    · exact hid
    · rw [hk] at hother
      cases hother
  obtain ⟨-, rfl | hi'⟩ := hit
  · obtain ⟨-, hij | hj'⟩ := hjt
    · exact hij
    · exact hown hi hj'
  · obtain ⟨-, rfl | hj'⟩ := hjt
    · exact (hown hj hi').symm
    · exact h.unshared _ hi' _ hj' rfl

theorem Copied.transfer (h : Copied source s) : Copied source (transferVault kindOf source s e) := by
  intro doc hdoc
  obtain ⟨copy, hthere, hcopy⟩ := h doc hdoc
  obtain ⟨path, hpath⟩ := Option.ne_none_iff_exists'.1 hthere
  refine ⟨copy, by simp [getById_transfer hpath], hcopy.imp_right fun hc => List.mem_append_left _ hc⟩

theorem copied_of_complete (hcomplete : Complete kindOf source s e) : Copied source (transferVault kindOf source s e) := by
  intro doc hdoc
  obtain ⟨hwritten, q, hq, rfl⟩ := hcomplete doc hdoc
  have hqwritten := mem_writtenPlans hq hwritten
  have hrecorded : (q.source.1, q.targetId) ∈ (transferVault kindOf source s e).copies :=
    List.mem_append_right _ (List.mem_map.2 ⟨q, hqwritten, rfl⟩)
  refine ⟨q.targetId, ?_, .inr hrecorded⟩
  have hold : ∀ {path}, s.target.getById q.targetId = some path →
      (transferVault kindOf source s e).target.getById q.targetId ≠ none := by
    intro path hpath
    rw [getById_transfer hpath]
    simp
  cases origin_plan hq with
  | own _ hid hthere => exact hold (by rw [hid]; exact hthere)
  | accepted hnew _ _ _ => exact getById_write_ne_none hqwritten hnew
  | resumed _ _ _ hpath _ => exact hold hpath
  | renewed hnew _ _ _ => exact getById_write_ne_none hqwritten hnew

theorem Inv.map_of_copied (h : Inv source s) (hcopied : Copied source s) (hclear : Clear kindOf source s e) :
    (transferVault kindOf source s e).target.map = s.target.map := by
  refine map_transfer fun q hq => ?_
  obtain ⟨copy, hthere, hcopy⟩ := hcopied q.source (KeyedMap.mem_iff.2 (source_plan hq))
  have hown : s.target.getById q.source.1 ≠ none → q.existing = true := by
    intro hsome
    cases origin_plan hq with
    | own hexisting _ _ | resumed hexisting _ _ _ _ => exact hexisting
    | accepted _ _ hnone _ | renewed _ hnone _ _ => exact absurd hnone hsome
  obtain rfl | hc := hcopy
  · exact hown hthere
  · obtain ⟨-, -, hsome⟩ | hcontinues := h.copies _ hc
    · exact hown hsome
    · exact (h.resumes hclear hc hcontinues hq).1

theorem run_inv {start : State} (hrun : Run (step kindOf source) (Clear kindOf source) start s)
    (hstart : start.target.Distinct) (hcopies : start.copies = []) : Inv source s := by
  refine hrun.invariant (Inv source) ⟨hstart, ?_, ?_⟩ fun s e s' h hclear hstep => step_inv h hclear hstep
  · intro c hc
    rw [hcopies] at hc
    cases hc
  · intro c hc
    rw [hcopies] at hc
    cases hc

/-- In runs of transfers, each stopped anywhere, the documents of the target have different paths
and a source document has one copy at most, its own; after a transfer that copied every document
each has a copy, and no transfer adds a document. -/
theorem transfer_idempotent {start : State} (hrun : Run (step kindOf source) (Clear kindOf source) start s)
    (hstart : start.target.Distinct) (hcopies : start.copies = []) :
    s.target.Distinct ∧
      (∀ doc ∈ source.docs.entries, ∀ t t', Copy s doc.1 t → Copy s doc.1 t' → t = t') ∧
      (∀ doc ∈ source.docs.entries, ∀ doc' ∈ source.docs.entries, ∀ t, Copy s doc.1 t → Copy s doc'.1 t → doc = doc') ∧
      ∀ e s', Clear kindOf source s e → step kindOf source s e = some s' → Complete kindOf source s e →
        Copied source s' ∧ ∀ s'', Run (step kindOf source) (Clear kindOf source) s' s'' → s''.target.map = s'.target.map := by
  have hinv := run_inv hrun hstart hcopies
  refine ⟨hinv.distinct, fun _ _ t t' ht ht' => hinv.copy_unique ht ht', ?_, ?_⟩
  · rintro ⟨i, a⟩ hi ⟨j, b⟩ hj t hit hjt
    have hij : i = j := hinv.copy_unshared (KeyedMap.mem_iff.1 hi) (KeyedMap.mem_iff.1 hj) hit hjt
    subst hij
    have hab := (KeyedMap.mem_iff.1 hi).symm.trans (KeyedMap.mem_iff.1 hj)
    rw [Option.some.inj hab]
  · intro e s' hclear hstep hcomplete
    have hinv' := step_inv hinv hclear hstep
    obtain ⟨-, rfl⟩ := step_cases hstep
    have hcopied := copied_of_complete hcomplete
    refine ⟨hcopied, fun s'' hrest => ?_⟩
    -- what is copied stays copied, so each transfer leaves the documents as they are
    have hall := hrest.invariant
      (fun x => Inv source x ∧ Copied source x ∧ x.target.map = (transferVault kindOf source s e).target.map)
      ⟨hinv', hcopied, rfl⟩ fun x f x' hx hf hxstep => by
        obtain ⟨hxinv, hxcopied, hxmap⟩ := hx
        have hx'inv := step_inv hxinv hf hxstep
        obtain ⟨-, rfl⟩ := step_cases hxstep
        exact ⟨hx'inv, hxcopied.transfer, (hxinv.map_of_copied hxcopied hf).trans hxmap⟩
    exact hall.2.2

end Step

section Example

def note : Text := "Note.md".toList

/-- Two documents, of which the target refuses the second. -/
def notes : Vault := ⟨KeyedMap.ofList Prod.fst Prod.snd [("t".toList, "Other.md".toList), ("x".toList, note)], []⟩

def transferOf (id : DocId) (written : List DocId) : Event where
  accepts ids := !ids.contains "x".toList
  acceptsNew _ := true
  uuid doc := id ++ doc
  folders := 0
  written

def emptyTarget : State := ⟨⟨KeyedMap.empty, KeyedMap.empty⟩, []⟩

def kindOfNote (_ : Text) : EntryKind := .crdt

/-- A transfer that stops after the refused document. -/
def stopped : State := transferVault kindOfNote notes emptyTarget (transferOf "1".toList ["x".toList])

theorem clear_stopped : Clear kindOfNote notes emptyTarget (transferOf "1".toList ["x".toList]) where
  steady c hc := by cases hc
  apart c hc := by cases hc
  free := by decide +kernel

theorem clear_again : Clear kindOfNote notes stopped (transferOf "2".toList ["t".toList, "x".toList]) where
  steady c hc _ ids hids := by
    have hcx : ∀ c ∈ stopped.copies, c.1 = "x".toList := by decide +kernel
    rw [hcx c hc] at hids
    simpa [transferOf] using hids
  apart := by decide +kernel
  free := by decide +kernel

theorem transfer_idempotent_stopped :
    stopped.target.getAll = [("1x".toList, note)] ∧
      ∃ s', step kindOfNote notes stopped (transferOf "2".toList ["t".toList, "x".toList]) = some s' ∧
        Copied notes s' ∧ s'.target.getAll = [("1x".toList, note), ("t".toList, "Other.md".toList)] :=
  have hrun : Run (step kindOfNote notes) (Clear kindOfNote notes) emptyTarget stopped :=
    .tail _ .refl clear_stopped (if_pos (by decide +kernel))
  have hall := transfer_idempotent hrun (fun i j path hi _ => by cases hi) rfl
  ⟨by decide +kernel, _, if_pos (by decide +kernel),
    (hall.2.2.2 _ _ clear_again (if_pos (by decide +kernel)) (by decide +kernel)).1, by decide +kernel⟩

/-- The target has the first document at the path of the second. -/
def renamedTarget : State := ⟨⟨KeyedMap.ofList Prod.fst Prod.snd [("t".toList, note)], KeyedMap.empty⟩, []⟩

theorem transfer_again_adds_document : ¬ ∀ (kindOf : Text → EntryKind) (source : Vault) (start s s' : State) (e e' : Event),
    start.target.Distinct → start.copies = [] → e.accepts = e'.accepts → step kindOf source start e = some s →
    Complete kindOf source start e → step kindOf source s e' = some s' → s'.target.map = s.target.map := by
  intro h
  have hall := h kindOfNote notes renamedTarget _ _ (transferOf "1".toList ["t".toList, "x".toList])
    (transferOf "2".toList ["t".toList, "x".toList]) (Directory.distinct_single _) rfl rfl (if_pos (by decide +kernel))
    (by decide +kernel) (if_pos (by decide +kernel))
  have hcount := congrArg (fun m : KeyedMap DocId Text => m.entries.length) hall
  exact absurd hcount (by decide +kernel)

end Example
end Savoire.VaultTransfer
