import Savoire.Vault.Transfer

/-! What the plan of a transfer gives to each source document: the id and the path in the target. -/
namespace Savoire.VaultTransfer
open VaultClient (DocId Directory)

section Registration
variable {accepts : List DocId → Bool} {id : DocId} {fuel : ℕ} {batch ids : List DocId}

theorem of_visit (h : id ∈ visit accepts fuel batch) : id ∈ batch ∧ accepts [id] = false := by
  induction fuel generalizing batch with
  | zero => cases h
  | succ fuel ih =>
    rw [visit] at h
    split at h
    · cases h
    · split at h
      · cases h
      · rename_i hbad
        split at h
        · rename_i hone
          obtain ⟨a, rfl⟩ := List.length_eq_one_iff.1 hone
          rw [List.mem_singleton.1 h]
          exact ⟨List.mem_singleton_self a, by simpa using hbad⟩
        · obtain h | h := List.mem_append.1 h
          · exact ⟨List.mem_of_mem_take (ih h).1, (ih h).2⟩
          · exact ⟨List.mem_of_mem_drop (ih h).1, (ih h).2⟩

theorem mem_visit (hrefused : ∀ ids, id ∈ ids → accepts ids = false) (hid : id ∈ batch) (hfuel : batch.length ≤ fuel) :
    id ∈ visit accepts fuel batch := by
  induction fuel generalizing batch with
  | zero =>
    have hpos := List.length_pos_of_mem hid
    omega
  | succ fuel ih =>
    rw [visit, if_neg (List.ne_nil_of_mem hid), if_neg (by simp [hrefused batch hid])]
    split
    · exact hid
    · -- it is in one of the halves, which are shorter
      rw [← List.take_append_drop ((batch.length + 1) / 2) batch] at hid
      obtain hid | hid := List.mem_append.1 hid
      · exact List.mem_append_left _ (ih hid (by rw [List.length_take]; omega))
      · exact List.mem_append_right _ (ih hid (by rw [List.length_drop]; omega))

theorem flatten_batches (fuel : ℕ) (ids : List DocId) (hfuel : ids.length ≤ fuel) : (batches fuel ids).flatten = ids := by
  induction fuel generalizing ids with
  | zero =>
    have hnil : ids = [] := List.length_eq_zero_iff.1 (by omega)
    rw [hnil]
    rfl
  | succ fuel ih =>
    rw [batches]
    split
    · rename_i hnil
      rw [hnil]
      rfl
    · rename_i hne
      rw [List.flatten_cons, ih _ (by rw [List.length_drop]; unfold registerBatch; omega), List.take_append_drop]

theorem of_registerFinding (h : id ∈ registerFinding accepts ids) : id ∈ ids ∧ accepts [id] = false := by
  obtain ⟨batch, hbatch, hid⟩ := List.mem_flatMap.1 h
  obtain ⟨hmem, hrefused⟩ := of_visit hid
  have hflat : id ∈ (batches ids.length ids).flatten := List.mem_flatten.2 ⟨batch, hbatch, hmem⟩
  rw [flatten_batches ids.length ids le_rfl] at hflat
  exact ⟨hflat, hrefused⟩

theorem mem_registerFinding (hrefused : ∀ ids, id ∈ ids → accepts ids = false) (hid : id ∈ ids) :
    id ∈ registerFinding accepts ids := by
  rw [← flatten_batches ids.length ids le_rfl] at hid
  obtain ⟨batch, hbatch, hmem⟩ := List.mem_flatten.1 hid
  exact List.mem_flatMap.2 ⟨batch, hbatch, mem_visit hrefused hmem le_rfl⟩

end Registration

section Relabel
variable {kindOf : Text → EntryKind} {docs : KeyedMap DocId Text} {target : Directory} {rejected : List DocId}
  {uuid : DocId → DocId} {done rest : List Plan} {plan p : Plan} {id : DocId}

/-- Where a document of the plan goes: it was there, it comes under its own id, it continues a
document of its path, or it comes under a new id. -/
inductive Origin (docs : KeyedMap DocId Text) (target : Directory) (rejected : List DocId) (uuid : DocId → DocId)
    (p : Plan) : Prop
  | own (hexisting : p.existing = true) (hid : p.targetId = p.source.1)
      (hthere : target.getById p.source.1 = some p.targetPath)
  | accepted (hexisting : p.existing = false) (hid : p.targetId = p.source.1)
      (hthere : target.getById p.source.1 = none) (haccepted : p.source.1 ∉ rejected)
  | resumed (hexisting : p.existing = true) (hthere : target.getById p.source.1 = none)
      (hrejected : p.source.1 ∈ rejected) (hpath : target.getById p.targetId = some p.source.2)
      (hother : docs.get p.targetId = none)
  | renewed (hexisting : p.existing = false) (hthere : target.getById p.source.1 = none)
      (hrejected : p.source.1 ∈ rejected) (hid : p.targetId = uuid p.source.1)

def First (docs : KeyedMap DocId Text) (kindOf : Text → EntryKind) (target : Directory) (p : Plan) : Prop :=
  docs.get p.source.1 = some p.source.2 ∧ p = firstPlan kindOf target p.source

theorem claimed_iff {plans : List Plan} : claimed plans id = true ↔ ∃ p ∈ plans, p.existing = true ∧ p.targetId = id := by
  simp [claimed]

theorem of_resumed {plans : List Plan} (h : resumed kindOf target plans plan = some id) :
    target.getById id = some plan.source.2 ∧ claimed plans id = false := by
  unfold resumed at h
  split at h
  · rename_i j hj
    split at h
    · rename_i hfree
      cases h
      obtain ⟨doc, hdoc, hpath, rfl⟩ := KeyedMap.of_get_ofList hj
      refine ⟨?_, by simpa using hfree.2⟩
      rw [← hpath]
      exact Directory.mem_getAll.1 hdoc
    · cases h
  · cases h

def OwnClaimed (docs : KeyedMap DocId Text) (target : Directory) (plans : List Plan) : Prop :=
  ∀ id, docs.get id ≠ none → target.getById id ≠ none → claimed plans id = true

theorem OwnClaimed.replace {plan' : Plan} (h : OwnClaimed docs target (done ++ plan :: rest)) (hplan : plan.existing = false) :
    OwnClaimed docs target (done ++ [plan'] ++ rest) := by
  intro id hdoc hthere
  obtain ⟨q, hq, hexisting, hid⟩ := claimed_iff.1 (h id hdoc hthere)
  refine claimed_iff.2 ⟨q, ?_, hexisting, hid⟩
  obtain hq | hq := List.mem_append.1 hq
  · simp [hq]
  · obtain rfl | hq := List.mem_cons.1 hq
    · rw [hplan] at hexisting
      cases hexisting
    · simp [hq]

section
variable (h : First docs kindOf target plan)
include h

theorem First.of_none (hthere : target.getById plan.source.1 = none) :
    plan.existing = false ∧ plan.targetId = plan.source.1 ∧ plan.targetPath = plan.source.2 := by
  obtain ⟨-, hplan⟩ := h
  rw [hplan]
  simp [firstPlan, hthere]

theorem First.of_some {path : Text} (hthere : target.getById plan.source.1 = some path) :
    plan.existing = true ∧ plan.targetId = plan.source.1 ∧ plan.targetPath = path := by
  obtain ⟨-, hplan⟩ := h
  rw [hplan]
  simp [firstPlan, hthere]

theorem First.existing_iff :
    plan.existing = false ↔ target.getById plan.source.1 = none := by
  cases hthere : target.getById plan.source.1 with
  | none => simp [(h.of_none hthere).1]
  | some path => simp [(h.of_some hthere).1]

theorem First.targetId : plan.targetId = plan.source.1 := by
  rw [h.2]
  rfl

end

structure Relabeled (docs : KeyedMap DocId Text) (target : Directory) (rejected : List DocId) (uuid : DocId → DocId)
    (p : Plan) : Prop where
  source : docs.get p.source.1 = some p.source.2
  origin : Origin docs target rejected uuid p
  path : p.existing = false → p.targetPath = p.source.2

theorem relabeled_first (h : First docs kindOf target plan) (hkeep : plan.existing = true ∨ plan.targetId ∉ rejected) :
    Relabeled docs target rejected uuid plan := by
  cases hthere : target.getById plan.source.1 with
  | none =>
    obtain ⟨hexisting, hid, hpath⟩ := h.of_none hthere
    have haccepted : plan.source.1 ∉ rejected := by
      rw [← hid]
      exact hkeep.resolve_left (by simp [hexisting])
    exact ⟨h.1, .accepted hexisting hid hthere haccepted, fun _ => hpath⟩
  | some path =>
    obtain ⟨hexisting, hid, hpath⟩ := h.of_some hthere
    refine ⟨h.1, .own hexisting hid (hthere.trans (congrArg some hpath.symm)), fun hnot => ?_⟩
    rw [hexisting] at hnot
    cases hnot

theorem relabel_cons (hfirst : First docs kindOf target plan)
    (hclaimed : OwnClaimed docs target (done ++ plan :: rest)) :
    ∃ plan', relabel kindOf target rejected uuid done (plan :: rest) =
        relabel kindOf target rejected uuid (done ++ [plan']) rest ∧
      plan'.source = plan.source ∧ Relabeled docs target rejected uuid plan' ∧
      OwnClaimed docs target (done ++ [plan'] ++ rest) ∧
      (plan'.existing = false → plan.source.1 ∈ rejected → resumed kindOf target (done ++ plan :: rest) plan = none) := by
  rw [relabel]
  split
  · rename_i hkeep
    refine ⟨plan, rfl, rfl, relabeled_first hfirst hkeep, by simpa using hclaimed, fun hnot hrejected => ?_⟩
    rw [← hfirst.targetId] at hrejected
    exact absurd hrejected (hkeep.resolve_left (by simp [hnot]))
  · rename_i hchange
    obtain ⟨hnew, hrejected⟩ := not_or.1 hchange
    rw [Bool.not_eq_true] at hnew
    rw [not_not, hfirst.targetId] at hrejected
    have hthere := hfirst.existing_iff.1 hnew
    split
    · rename_i id hid
      obtain ⟨hpath, hfree⟩ := of_resumed hid
      refine ⟨_, rfl, rfl, ⟨hfirst.1, .resumed rfl hthere hrejected hpath ?_, fun hnot => ?_⟩, hclaimed.replace hnew,
        fun hnot => ?_⟩
      · -- a source document that the target has is claimed
        by_contra hsource
        rw [hclaimed id hsource (by simp [hpath])] at hfree
        cases hfree
      · cases hnot
      · cases hnot
    · rename_i hnone
      refine ⟨_, rfl, rfl, ⟨hfirst.1, .renewed hnew hthere hrejected rfl, fun _ => (hfirst.of_none hthere).2.2⟩,
        hclaimed.replace hnew, fun _ _ => hnone⟩

theorem relabel_spec (hrest : ∀ q ∈ rest, First docs kindOf target q) (hclaimed : OwnClaimed docs target (done ++ rest))
    (hdone : ∀ q ∈ done, Relabeled docs target rejected uuid q) :
    (relabel kindOf target rejected uuid done rest).map (·.source) = (done ++ rest).map (·.source) ∧
      ∀ q ∈ relabel kindOf target rejected uuid done rest, Relabeled docs target rejected uuid q := by
  induction rest generalizing done with
  | nil =>
    rw [relabel, List.append_nil]
    exact ⟨rfl, hdone⟩
  | cons plan rest ih =>
    obtain ⟨plan', hnext, hsource, hplan', hclaimed', -⟩ := relabel_cons (hrest plan List.mem_cons_self) hclaimed
    rw [hnext]
    have hdone' : ∀ q ∈ done ++ [plan'], Relabeled docs target rejected uuid q := by
      intro q hq
      obtain hq | hq := List.mem_append.1 hq
      · exact hdone q hq
      · rw [List.mem_singleton.1 hq]
        exact hplan'
    obtain ⟨hsources, hall⟩ := ih (fun q hq => hrest q (List.mem_cons_of_mem plan hq)) hclaimed' hdone'
    refine ⟨hsources.trans ?_, hall⟩
    simp [hsource]

theorem mem_relabel_of_done (q : Plan) (hq : q ∈ done) : q ∈ relabel kindOf target rejected uuid done rest := by
  induction rest generalizing done with
  | nil => exact hq
  | cons plan rest ih =>
    have hnext : ∀ plan', q ∈ done ++ [plan'] := fun plan' => List.mem_append_left _ hq
    rw [relabel]
    split
    · exact ih (hnext _)
    · split
      · exact ih (hnext _)
      · exact ih (hnext _)

/-- A rejected document is resumed where the target has a document of its path that is of no source
document, when no other rejected document has its path. -/
theorem relabel_resumes (hrest : ∀ q ∈ rest, First docs kindOf target q)
    (hclaimed : OwnClaimed docs target (done ++ rest)) (hdone : ∀ q ∈ done, Relabeled docs target rejected uuid q)
    (hdistinct : target.Distinct) (hsources : ((done ++ rest).map (·.source.1)).Nodup) (hplan : plan ∈ rest)
    (hrejected : plan.source.1 ∈ rejected) (hpath : target.getById id = some plan.source.2) (hother : docs.get id = none)
    (hapart : ∀ i, docs.get i = some plan.source.2 → target.getById i = none → i ∈ rejected → i = plan.source.1) :
    ∃ q ∈ relabel kindOf target rejected uuid done rest, q.source = plan.source ∧ q.existing = true := by
  induction rest generalizing done with
  | nil => cases hplan
  | cons first rest ih =>
    obtain ⟨first', hnext, hsource, hfirst', hclaimed', hnone⟩ := relabel_cons (hrest first List.mem_cons_self) hclaimed
    rw [hnext]
    have hdone' : ∀ q ∈ done ++ [first'], Relabeled docs target rejected uuid q := by
      intro q hq
      obtain hq | hq := List.mem_append.1 hq
      · exact hdone q hq
      · rw [List.mem_singleton.1 hq]
        exact hfirst'
    obtain rfl | hplan := List.mem_cons.1 hplan
    · refine ⟨first', mem_relabel_of_done first' (by simp), hsource, ?_⟩
      by_contra hnot
      rw [Bool.not_eq_true] at hnot
      have hresumed := hnone hnot hrejected
      obtain ⟨doc, hdoc, hdocPath, hget⟩ := KeyedMap.exists_get_ofList Prod.snd Prod.fst (Directory.mem_getAll.2 hpath)
      have hid : doc.1 = id := by
        refine hdistinct doc.1 id plan.source.2 ?_ hpath
        rw [← hdocPath]
        exact Directory.mem_getAll.1 hdoc
      have hkind : kindOf plan.source.2 = plan.kind := by
        rw [(hrest plan List.mem_cons_self).2]
        rfl
      have hby : (byPath target).get plan.source.2 = some id := hget.trans (congrArg some hid)
      have hclaim : claimed (done ++ plan :: rest) id = true := by
        by_contra hfree
        rw [resumed, hby] at hresumed
        simp [hkind, hfree] at hresumed
      obtain ⟨q, hq, hexisting, hqid⟩ := claimed_iff.1 hclaim
      obtain hq | hq := List.mem_append.1 hq
      · have hqsource := (hdone q hq).source
        cases (hdone q hq).origin with
        | own _ hown _ =>
          rw [← hown, hqid, hother] at hqsource
          cases hqsource
        | accepted hnew _ _ _ =>
          rw [hnew] at hexisting
          cases hexisting
        | resumed _ hqthere hqrejected hqpath _ =>
          -- it would be the same document
          rw [hqid, hpath] at hqpath
          rw [← Option.some.inj hqpath] at hqsource
          have hsame := hapart q.source.1 hqsource hqthere hqrejected
          rw [List.map_append] at hsources
          refine (List.nodup_append.1 hsources).2.2 q.source.1 (List.mem_map_of_mem hq) plan.source.1 ?_ hsame
          exact List.mem_map_of_mem (f := fun r : Plan => r.source.1) List.mem_cons_self
        | renewed hnew _ _ _ =>
          rw [hnew] at hexisting
          cases hexisting
      · have hqfirst := hrest q hq
        have hqsource := hqfirst.1
        rw [← hqfirst.targetId, hqid, hother] at hqsource
        cases hqsource
    · refine ih (fun q hq => hrest q (List.mem_cons_of_mem first hq)) hclaimed' hdone' ?_ hplan
      simpa [hsource] using hsources

def Apart (plans : List Plan) : Prop :=
  plans.Pairwise fun a b => a.existing = true → b.existing = true → a.targetId ≠ b.targetId

theorem Apart.replace {plan' : Plan} (h : Apart (done ++ plan :: rest))
    (hfree : plan'.existing = true → claimed (done ++ plan :: rest) plan'.targetId = false) :
    Apart (done ++ plan' :: rest) := by
  obtain ⟨hdone, hrest, hboth⟩ := List.pairwise_append.1 h
  have hother : ∀ b ∈ done ++ plan :: rest, plan'.existing = true → b.existing = true → b.targetId ≠ plan'.targetId := by
    intro b hb hplan hexisting heq
    have hclaimed := claimed_iff.2 ⟨b, hb, hexisting, heq⟩
    rw [hfree hplan] at hclaimed
    cases hclaimed
  refine List.pairwise_append.2 ⟨hdone, .cons (fun b hb hplan hexisting => ?_) (List.pairwise_cons.1 hrest).2, ?_⟩
  · exact (hother b (by simp [hb]) hplan hexisting).symm
  · intro a ha b hb haexisting hbexisting
    obtain rfl | hb := List.mem_cons.1 hb
    · exact hother a (by simp [ha]) hbexisting haexisting
    · exact hboth a ha b (List.mem_cons_of_mem plan hb) haexisting hbexisting

theorem relabel_apart (h : Apart (done ++ rest)) : Apart (relabel kindOf target rejected uuid done rest) := by
  induction rest generalizing done with
  | nil => rwa [List.append_nil] at h
  | cons plan rest ih =>
    rw [relabel]
    split
    · exact ih (by simpa using h)
    · rename_i hchange
      split
      · rename_i id hid
        refine ih ?_
        rw [List.append_assoc]
        exact h.replace fun _ => (of_resumed hid).2
      · refine ih ?_
        rw [List.append_assoc]
        exact h.replace fun hexisting => absurd (.inl hexisting) hchange

end Relabel

section Assign
variable {taken : List Text} {plans : List Plan} {p q : Plan}

/-- The paths in use when the loop over the paths comes to the plan of a document. -/
def takenAt : List Text → List Plan → DocId → List Text
  | taken, [], _ => taken
  | taken, plan :: rest, id =>
    if plan.source.1 = id then taken
    else if plan.existing then takenAt taken rest id
    else takenAt ((if plan.targetPath ∈ taken then uniquePath plan.targetPath taken else plan.targetPath) :: taken) rest id

theorem uniquePath_not_mem {path : Text} : uniquePath path taken ∉ taken := by
  have hinj := VaultClient.candidate_injective (VaultClient.splitExtension path).1 (VaultClient.splitExtension path).2
  exact FirstFree.first_not_mem fun _ _ h => Nat.succ.inj (hinj h)

/-- What the loop gives to one plan. -/
structure Assigned (taken : List Text) (p q : Plan) : Prop where
  source : q.source = p.source
  targetId : q.targetId = p.targetId
  existing : q.existing = p.existing
  same : p.existing = true → q.targetPath = p.targetPath
  free : p.existing = false → q.targetPath ∉ taken

theorem Assigned.more {path : Text} (h : Assigned (path :: taken) p q) : Assigned taken p q :=
  { h with free := fun hp hmem => h.free hp (List.mem_cons_of_mem path hmem) }

theorem assigned_of_existing (h : p.existing = true) : Assigned taken p p := by
  refine ⟨rfl, rfl, rfl, fun _ => rfl, fun hnew => ?_⟩
  rw [h] at hnew
  cases hnew

theorem assigned_new {path : Text} (h : p.existing = false) (hpath : path ∉ taken) :
    Assigned taken p { p with targetPath := path } := by
  refine ⟨rfl, rfl, rfl, fun hexisting => ?_, fun _ => hpath⟩
  rw [h] at hexisting
  cases hexisting

theorem newPath_not_mem (path : Text) : (if path ∈ taken then uniquePath path taken else path) ∉ taken := by
  split
  · exact uniquePath_not_mem
  · assumption

theorem of_assign (h : q ∈ assign taken plans) : ∃ p ∈ plans, Assigned taken p q := by
  induction plans generalizing taken with
  | nil => cases h
  | cons plan rest ih =>
    rw [assign] at h
    split at h
    · rename_i hexisting
      obtain rfl | h := List.mem_cons.1 h
      · exact ⟨q, List.mem_cons_self, assigned_of_existing hexisting⟩
      · obtain ⟨p, hp, hpq⟩ := ih h
        exact ⟨p, List.mem_cons_of_mem plan hp, hpq⟩
    · rename_i hnew
      obtain rfl | h := List.mem_cons.1 h
      · exact ⟨plan, List.mem_cons_self, assigned_new (by simpa using hnew) (newPath_not_mem _)⟩
      · obtain ⟨p, hp, hpq⟩ := ih h
        exact ⟨p, List.mem_cons_of_mem plan hp, hpq.more⟩

theorem assign_sources (taken : List Text) (plans : List Plan) :
    (assign taken plans).map (·.source.1) = plans.map (·.source.1) := by
  induction plans generalizing taken with
  | nil => rfl
  | cons plan rest ih =>
    rw [assign]
    split
    · rw [List.map_cons, List.map_cons, ih]
    · rw [List.map_cons, List.map_cons, ih]

theorem assign_apart (taken : List Text) (plans : List Plan) :
    (assign taken plans).Pairwise fun a b => a.existing = false → b.existing = false → a.targetPath ≠ b.targetPath := by
  induction plans generalizing taken with
  | nil => exact .nil
  | cons plan rest ih =>
    rw [assign]
    split
    · rename_i hexisting
      refine .cons (fun b _ hnew => ?_) (ih taken)
      rw [hexisting] at hnew
      cases hnew
    · refine .cons (fun b hb _ hnew heq => ?_) (ih _)
      -- the later one avoids the paths given before
      obtain ⟨p, -, hp⟩ := of_assign hb
      refine hp.free (hp.existing.symm.trans hnew) ?_
      rw [← heq]
      exact List.mem_cons_self

theorem assign_free (hsources : (plans.map (·.source.1)).Nodup) (hp : p ∈ plans) (hq : q ∈ assign taken plans)
    (hsame : q.source.1 = p.source.1) (hnew : p.existing = false) (hfree : p.targetPath ∉ takenAt taken plans p.source.1) :
    q.targetPath = p.targetPath := by
  induction plans generalizing taken with
  | nil => cases hp
  | cons plan rest ih =>
    obtain ⟨hfirst, hrest⟩ := List.nodup_cons.1 hsources
    have hlater : ∀ r : Plan, r.source.1 ∈ rest.map (·.source.1) → r.source.1 ≠ plan.source.1 := by
      intro r hr heq
      rw [heq] at hr
      exact hfirst hr
    have hqrest : ∀ taken', q ∈ assign taken' rest → q.source.1 ∈ rest.map (·.source.1) := by
      intro taken' hmem
      rw [← assign_sources taken' rest]
      exact List.mem_map_of_mem (f := fun r : Plan => r.source.1) hmem
    rw [assign] at hq
    rw [takenAt] at hfree
    obtain rfl | hp := List.mem_cons.1 hp
    · rw [if_pos rfl] at hfree
      rw [if_neg (by simp [hnew])] at hq
      obtain rfl | hq := List.mem_cons.1 hq
      · exact if_neg hfree
      · exact absurd hsame (hlater q (hqrest _ hq))
    · have hpne := hlater p (List.mem_map_of_mem (f := fun r : Plan => r.source.1) hp)
      rw [if_neg hpne.symm] at hfree
      split at hq
      · rename_i hexisting
        rw [if_pos hexisting] at hfree
        obtain rfl | hq := List.mem_cons.1 hq
        · exact absurd hsame.symm hpne
        · exact ih hrest hp hq hfree
      · rename_i hexisting
        rw [if_neg hexisting] at hfree
        obtain rfl | hq := List.mem_cons.1 hq
        · exact absurd hsame.symm hpne
        · exact ih hrest hp hq hfree

end Assign

section Whole
variable (kindOf : Text → EntryKind) (docs : KeyedMap DocId Text) (target : Directory)
  (accepts acceptsNew : List DocId → Bool) (uuid : DocId → DocId)

def firstPlans : List Plan := docs.entries.map (firstPlan kindOf target)

def rejectedIds : List DocId := registerFinding accepts (((firstPlans kindOf docs target).filter (!·.existing)).map (·.targetId))

def relabeledPlans : List Plan :=
  relabel kindOf target (rejectedIds kindOf docs target accepts) uuid [] (firstPlans kindOf docs target)

/-- The plans whose paths are chosen: without those whose new id was rejected too. -/
def keptPlans : List Plan :=
  let relabeled := relabeledPlans kindOf docs target accepts uuid
  let stillRejected := registerFinding acceptsNew ((relabeled.filter renewed).map (·.targetId))
  relabeled.filter fun plan => !(renewed plan && decide (plan.targetId ∈ stillRejected))

def takenPaths : List Text :=
  target.paths ++ ((keptPlans kindOf docs target accepts acceptsNew uuid).filter (·.existing)).map (·.targetPath)

def finalPlans : List Plan :=
  assign (takenPaths kindOf docs target accepts acceptsNew uuid) (keptPlans kindOf docs target accepts acceptsNew uuid)

variable {kindOf docs target accepts acceptsNew uuid} {p q : Plan} {id : DocId}

theorem first_of_mem (h : p ∈ firstPlans kindOf docs target) : First docs kindOf target p := by
  obtain ⟨doc, hdoc, rfl⟩ := List.mem_map.1 h
  exact ⟨KeyedMap.mem_iff.1 hdoc, rfl⟩

theorem exists_first {path : Text} (h : docs.get id = some path) :
    ∃ p ∈ firstPlans kindOf docs target, p.source = (id, path) :=
  ⟨_, List.mem_map_of_mem (KeyedMap.mem_iff.2 h), rfl⟩

theorem firstPlans_sources : (firstPlans kindOf docs target).map (·.source.1) = docs.entries.map Prod.fst := by
  rw [firstPlans, List.map_map]
  rfl

theorem ownClaimed_first : OwnClaimed docs target ([] ++ firstPlans kindOf docs target) := by
  intro id hid hthere
  obtain ⟨path, hpath⟩ := Option.ne_none_iff_exists'.1 hid
  obtain ⟨p, hp, hsource⟩ := @exists_first kindOf docs target id path hpath
  obtain ⟨there, hthere⟩ := Option.ne_none_iff_exists'.1 hthere
  have hsome : target.getById p.source.1 = some there := by rw [hsource]; exact hthere
  obtain ⟨hexisting, htarget, -⟩ := (first_of_mem hp).of_some hsome
  exact claimed_iff.2 ⟨p, hp, hexisting, by rw [htarget, hsource]⟩

theorem relabeledPlans_spec :
    (relabeledPlans kindOf docs target accepts uuid).map (·.source) = (firstPlans kindOf docs target).map (·.source) ∧
      ∀ q ∈ relabeledPlans kindOf docs target accepts uuid,
        Relabeled docs target (rejectedIds kindOf docs target accepts) uuid q :=
  relabel_spec (fun _ => first_of_mem) ownClaimed_first fun _ hq => absurd hq List.not_mem_nil

theorem relabeledPlans_sources : ((relabeledPlans kindOf docs target accepts uuid).map (·.source.1)).Nodup := by
  have hmap : (relabeledPlans kindOf docs target accepts uuid).map (·.source.1) =
      (firstPlans kindOf docs target).map (·.source.1) := by
    have h := congrArg (List.map Prod.fst) (@relabeledPlans_spec kindOf docs target accepts uuid).1
    rwa [List.map_map, List.map_map] at h
  rw [hmap, firstPlans_sources]
  exact docs.nodup

theorem keptPlans_sources : ((keptPlans kindOf docs target accepts acceptsNew uuid).map (·.source.1)).Nodup :=
  relabeledPlans_sources.sublist (List.filter_sublist.map _)

theorem finalPlans_sources : ((finalPlans kindOf docs target accepts acceptsNew uuid).map (·.source.1)).Nodup := by
  rw [finalPlans, assign_sources]
  exact keptPlans_sources

theorem eq_of_source (hp : p ∈ finalPlans kindOf docs target accepts acceptsNew uuid)
    (hq : q ∈ finalPlans kindOf docs target accepts acceptsNew uuid) (h : p.source.1 = q.source.1) : p = q :=
  List.inj_on_of_nodup_map finalPlans_sources hp hq h

section
variable (hq : q ∈ finalPlans kindOf docs target accepts acceptsNew uuid)
include hq

theorem of_final :
    ∃ p ∈ keptPlans kindOf docs target accepts acceptsNew uuid,
      Relabeled docs target (rejectedIds kindOf docs target accepts) uuid p ∧
        Assigned (takenPaths kindOf docs target accepts acceptsNew uuid) p q := by
  obtain ⟨p, hp, hpq⟩ := of_assign hq
  exact ⟨p, hp, relabeledPlans_spec.2 p (List.mem_of_mem_filter hp), hpq⟩

theorem source_final :
    docs.get q.source.1 = some q.source.2 := by
  obtain ⟨p, -, hp, hpq⟩ := of_final hq
  rw [hpq.source]
  exact hp.source

theorem origin_final :
    Origin docs target (rejectedIds kindOf docs target accepts) uuid q := by
  obtain ⟨p, -, hp, hpq⟩ := of_final hq
  cases hp.origin with
  | own hexisting hid hthere =>
    refine .own (hpq.existing.trans hexisting) (by rw [hpq.targetId, hpq.source, hid]) ?_
    rw [hpq.source, hpq.same hexisting]
    exact hthere
  | accepted hexisting hid hthere haccepted =>
    refine .accepted (hpq.existing.trans hexisting) (by rw [hpq.targetId, hpq.source, hid]) ?_ ?_
    · rwa [hpq.source]
    · rwa [hpq.source]
  | resumed hexisting hthere hrejected hpath hother =>
    refine .resumed (hpq.existing.trans hexisting) ?_ ?_ ?_ ?_
    · rwa [hpq.source]
    · rwa [hpq.source]
    · rwa [hpq.source, hpq.targetId]
    · rwa [hpq.targetId]
  | renewed hexisting hthere hrejected hid =>
    refine .renewed (hpq.existing.trans hexisting) ?_ ?_ ?_
    · rwa [hpq.source]
    · rwa [hpq.source]
    · rw [hpq.targetId, hpq.source, hid]

end

theorem mem_rejectedIds {path : Text} (hdoc : docs.get id = some path) (hthere : target.getById id = none)
    (hrefused : ∀ ids, id ∈ ids → accepts ids = false) : id ∈ rejectedIds kindOf docs target accepts := by
  obtain ⟨p, hp, hsource⟩ := @exists_first kindOf docs target id path hdoc
  have hnone : target.getById p.source.1 = none := by rw [hsource]; exact hthere
  obtain ⟨hexisting, htarget, -⟩ := (first_of_mem hp).of_none hnone
  refine mem_registerFinding hrefused (List.mem_map.2 ⟨p, List.mem_filter.2 ⟨hp, by simp [hexisting]⟩, ?_⟩)
  rw [htarget, hsource]

theorem existing_final_apart (hp : p ∈ finalPlans kindOf docs target accepts acceptsNew uuid)
    (hq : q ∈ finalPlans kindOf docs target accepts acceptsNew uuid) (hpexisting : p.existing = true)
    (hqexisting : q.existing = true) (h : p.targetId = q.targetId) : p = q := by
  have hfirst : Apart ([] ++ firstPlans kindOf docs target) := by
    have hids : (firstPlans kindOf docs target).Pairwise fun a b => a.source.1 ≠ b.source.1 := by
      rw [← List.pairwise_map (f := fun a : Plan => a.source.1), firstPlans_sources]
      exact docs.nodup
    refine hids.imp_of_mem fun {a b} ha hb hab _ _ => ?_
    rw [(first_of_mem ha).targetId, (first_of_mem hb).targetId]
    exact hab
  have hapart : Apart (relabeledPlans kindOf docs target accepts uuid) := relabel_apart hfirst
  have hall := List.Pairwise.forall_of_forall_of_flip
    (R := fun a b : Plan => a.existing = true → b.existing = true → a.targetId = b.targetId → a = b)
    (fun _ _ _ _ _ => rfl) (hapart.imp fun hab ha hb heq => absurd heq (hab ha hb))
    (hapart.imp fun hab hb ha heq => absurd heq.symm (hab ha hb))
  obtain ⟨a, ha, -, hap⟩ := of_final hp
  obtain ⟨b, hb, -, hbq⟩ := of_final hq
  have hab := hall (List.mem_of_mem_filter ha) (List.mem_of_mem_filter hb) (hap.existing.symm.trans hpexisting)
    (hbq.existing.symm.trans hqexisting) (by rw [← hap.targetId, ← hbq.targetId, h])
  exact eq_of_source hp hq (by rw [hap.source, hbq.source, hab])

theorem path_final (hq : q ∈ finalPlans kindOf docs target accepts acceptsNew uuid) (hnew : q.existing = false) :
    q.targetPath ∉ target.paths := by
  obtain ⟨p, -, -, hpq⟩ := of_final hq
  exact fun hmem => hpq.free (hpq.existing.symm.trans hnew) (List.mem_append_left _ hmem)

theorem path_final_apart (hp : p ∈ finalPlans kindOf docs target accepts acceptsNew uuid)
    (hq : q ∈ finalPlans kindOf docs target accepts acceptsNew uuid) (hpnew : p.existing = false)
    (hqnew : q.existing = false) (h : p.targetPath = q.targetPath) : p = q := by
  have hapart := assign_apart (takenPaths kindOf docs target accepts acceptsNew uuid)
    (keptPlans kindOf docs target accepts acceptsNew uuid)
  have hall := List.Pairwise.forall_of_forall_of_flip
    (R := fun a b : Plan => a.existing = false → b.existing = false → a.targetPath = b.targetPath → a = b)
    (fun _ _ _ _ _ => rfl) (hapart.imp fun hab ha hb heq => absurd heq (hab ha hb))
    (hapart.imp fun hab hb ha heq => absurd heq.symm (hab ha hb))
  exact hall hp hq hpnew hqnew h

theorem path_final_free (hq : q ∈ finalPlans kindOf docs target accepts acceptsNew uuid) (hnew : q.existing = false)
    (hfree : q.source.2 ∉ takenAt (takenPaths kindOf docs target accepts acceptsNew uuid)
      (keptPlans kindOf docs target accepts acceptsNew uuid) q.source.1) : q.targetPath = q.source.2 := by
  obtain ⟨p, hp, hrelabeled, hpq⟩ := of_final hq
  have hpnew := hpq.existing.symm.trans hnew
  have hpath := hrelabeled.path hpnew
  rw [hpq.source, ← hpath] at hfree
  rw [assign_free keptPlans_sources hp hq (by rw [hpq.source]) hpnew hfree, hpath, hpq.source]

theorem resumed_final (hdistinct : target.Distinct) (hq : q ∈ finalPlans kindOf docs target accepts acceptsNew uuid)
    (hrejected : q.source.1 ∈ rejectedIds kindOf docs target accepts) (hpath : target.getById id = some q.source.2)
    (hother : docs.get id = none) (hapart : ∀ i, docs.get i = some q.source.2 → target.getById i = none →
      i ∈ rejectedIds kindOf docs target accepts → i = q.source.1) : q.existing = true := by
  obtain ⟨p, hp, -, hpq⟩ := of_final hq
  obtain ⟨plan, hplan, hplanSource⟩ := @exists_first kindOf docs target q.source.1 q.source.2 (source_final hq)
  have hsources : ((([] : List Plan) ++ firstPlans kindOf docs target).map (·.source.1)).Nodup := by
    rw [List.nil_append, firstPlans_sources]
    exact docs.nodup
  have hnil : ∀ r ∈ ([] : List Plan), Relabeled docs target (rejectedIds kindOf docs target accepts) uuid r :=
    fun r hr => absurd hr List.not_mem_nil
  have hfirst : ∀ r ∈ firstPlans kindOf docs target, First docs kindOf target r := fun r hr => first_of_mem hr
  obtain ⟨r, hr, hrsource, hrexisting⟩ := relabel_resumes hfirst ownClaimed_first hnil hdistinct hsources hplan
    (by rwa [hplanSource]) (by rwa [hplanSource]) hother (by rwa [hplanSource])
  have hsame : r = p := by
    refine List.inj_on_of_nodup_map relabeledPlans_sources hr (List.mem_of_mem_filter hp) ?_
    rw [hrsource, hplanSource, hpq.source]
  rw [hpq.existing, ← hsame]
  exact hrexisting

end Whole
end Savoire.VaultTransfer
