import Mathlib.Data.List.Dedup
import Savoire.Access.Store
import Savoire.Library.Transition

/-! The registry document to vault: batches of ids that are registered, annexes that follow their
documents, and the vault that the change feed writes for a document. -/
namespace Savoire.Access
open Transition

/-- `Distinct()` -/
def distinct (ids : List Text) : List Text := ids.reverse.dedup.reverse

theorem mem_distinct {ids : List Text} {id : Text} : id ∈ distinct ids ↔ id ∈ ids := by
  simp [distinct]

namespace VaultDocuments

def vaultAt (rows : List VaultDocument) (docId : Text) : Option Text :=
  (rows.find? fun d => d.docId == docId).map (·.vaultId)

def refused (existing : Text → Option Text) (vaultId id : Text) : Bool :=
  match existing id with
  | some owner => owner != vaultId
  | none => match AnnexDocuments.parentOf id with
    | some parent => match existing parent with
      | some parentOwner => parentOwner != vaultId
      | none => false
    | none => false

def batchIds (docIds : List Text) : List Text := distinct (docIds.filter fun id => !Text.isNullOrWhiteSpace (some id))

def existing (s : Store) (ids : List Text) : Text → Option Text :=
  let lookup := distinct (ids ++ ids.filterMap AnnexDocuments.parentOf)
  vaultAt (s.vaultDocuments.filter fun d => d.docId ∈ lookup)

def registerAsync (s : Store) (vaultId : Text) (docIds : List Text) : Store × List Text :=
  let ids := batchIds docIds
  let known := existing s ids
  let added := ids.filter fun id => (known id).isNone && !refused known vaultId id
  ({ s with vaultDocuments := s.vaultDocuments ++ added.map fun id => ⟨id, vaultId, none⟩ },
    ids.filter (refused known vaultId))

end VaultDocuments

def IndexerChangeWriter.docVault (rows : List VaultDocument) (resourceId : Text) : Option Text :=
  let parent := (AnnexDocuments.parentOf resourceId).getD resourceId
  ((rows.filter fun d => d.docId = resourceId ∨ (d.docId = parent ∧ resourceId ∉ rows.map (·.docId))).map
    (·.vaultId)).head?

section Lookup
variable {rows : List VaultDocument} {id v : Text}

theorem vaultAt_isSome : (VaultDocuments.vaultAt rows id).isSome ↔ id ∈ rows.map (·.docId) := by
  simp [VaultDocuments.vaultAt, List.find?_isSome]

theorem vaultAt_mem (h : VaultDocuments.vaultAt rows id = some v) : ∃ d ∈ rows, d.docId = id ∧ d.vaultId = v := by
  obtain ⟨d, hd, rfl⟩ := Option.map_eq_some_iff.1 h
  exact ⟨d, List.mem_of_find?_eq_some hd, by simpa using List.find?_some hd, rfl⟩

theorem vaultAt_eq_none : VaultDocuments.vaultAt rows id = none ↔ id ∉ rows.map (·.docId) := by
  rw [← vaultAt_isSome]
  simp

theorem getVaultId_eq (s : Store) (id : Text) : VaultDocuments.getVaultId s id =
    (VaultDocuments.vaultAt s.vaultDocuments id).or
      ((AnnexDocuments.parentOf id).bind (VaultDocuments.vaultAt s.vaultDocuments)) := by
  unfold VaultDocuments.getVaultId VaultDocuments.get VaultDocuments.vaultAt
  cases s.vaultDocuments.find? fun d => d.docId == id with
  | some d => rfl
  | none => cases AnnexDocuments.parentOf id <;> rfl

theorem vaultAt_eq_head? : VaultDocuments.vaultAt rows id =
    ((rows.filter fun d => d.docId = id).map (·.vaultId)).head? := by
  simp only [VaultDocuments.vaultAt, List.head?_map, List.head?_filter, beq_eq_decide]

theorem docVault_eq (s : Store) (id : Text) :
    IndexerChangeWriter.docVault s.vaultDocuments id = VaultDocuments.getVaultId s id := by
  rw [getVaultId_eq, IndexerChangeWriter.docVault]
  by_cases hid : id ∈ s.vaultDocuments.map (·.docId)
  · obtain ⟨v, hv⟩ := Option.isSome_iff_exists.1 (vaultAt_isSome.2 hid)
    rw [hv, Option.some_or, ← hv, vaultAt_eq_head?]
    simp [hid]
  · rw [vaultAt_eq_none.2 hid, Option.none_or]
    have hother : ∀ parent, (s.vaultDocuments.filter fun d =>
        decide (d.docId = id ∨ (d.docId = parent ∧ id ∉ s.vaultDocuments.map (·.docId)))) =
          s.vaultDocuments.filter fun d => d.docId = parent := by
      refine fun parent => List.filter_congr fun d hd => ?_
      have hne : d.docId ≠ id := fun he => hid (List.mem_map.2 ⟨d, hd, he⟩)
      simp [hne, hid]
    rw [hother]
    cases AnnexDocuments.parentOf id with
    | none =>
      rw [Option.getD_none, Option.bind_none, ← vaultAt_eq_head?]
      exact vaultAt_eq_none.2 hid
    | some parent =>
      exact vaultAt_eq_head?.symm

end Lookup

structure Consistent (rows : List VaultDocument) : Prop where
  oneVault : ∀ d ∈ rows, ∀ d' ∈ rows, d.docId = d'.docId → d.vaultId = d'.vaultId
  annex : ∀ a ∈ rows, ∀ d ∈ rows, AnnexDocuments.parentOf a.docId = some d.docId → a.vaultId = d.vaultId

theorem parentOf_parent {id parent : Text} (h : AnnexDocuments.parentOf id = some parent) :
    AnnexDocuments.parentOf parent = none := by
  unfold AnnexDocuments.parentOf at h
  dsimp only at h
  obtain ⟨-, rfl⟩ := Option.ite_some_none_eq_some.1 h
  have hnot : '~' ∉ id.take (id.idxOf '~') := by
    intro hmem
    obtain ⟨i, hi, hget⟩ := List.mem_take_iff_getElem.1 hmem
    have hlt : i < List.findIdx (· == '~') id := by
      have : i < id.idxOf '~' := by omega
      simpa [List.idxOf] using this
    have hne := List.not_of_lt_findIdx hlt
    simp [hget] at hne
  unfold AnnexDocuments.parentOf
  rw [List.idxOf_eq_length hnot]
  rw [if_neg (by omega)]

section Call
variable {s : Store} {vaultId id : Text} {docIds : List Text}

theorem existing_eq {ids : List Text} (h : id ∈ ids ∨ ∃ c ∈ ids, AnnexDocuments.parentOf c = some id) :
    VaultDocuments.existing s ids id = VaultDocuments.vaultAt s.vaultDocuments id := by
  have hlookup : id ∈ distinct (ids ++ ids.filterMap AnnexDocuments.parentOf) := by
    rw [mem_distinct, List.mem_append, List.mem_filterMap]
    exact h
  rw [VaultDocuments.existing, vaultAt_eq_head?, vaultAt_eq_head?, List.filter_filter]
  have hfilter : (s.vaultDocuments.filter fun d => decide (d.docId = id) &&
      decide (d.docId ∈ distinct (ids ++ ids.filterMap AnnexDocuments.parentOf))) =
        s.vaultDocuments.filter fun d => d.docId = id := by
    refine List.filter_congr fun d _ => ?_
    by_cases hd : d.docId = id
    · simp [hd, hlookup]
    · simp [hd]
  rw [hfilter]

theorem refused_eq {ids : List Text} (h : id ∈ ids) :
    VaultDocuments.refused (VaultDocuments.existing s ids) vaultId id =
      VaultDocuments.refused (VaultDocuments.vaultAt s.vaultDocuments) vaultId id := by
  rw [VaultDocuments.refused, VaultDocuments.refused, existing_eq (.inl h)]
  cases hparent : AnnexDocuments.parentOf id with
  | none => rfl
  | some parent => simp only [existing_eq (.inr ⟨id, h, hparent⟩)]

theorem refused_iff (rows : List VaultDocument) :
    VaultDocuments.refused (VaultDocuments.vaultAt rows) vaultId id = true ↔
      (∃ v, VaultDocuments.vaultAt rows id = some v ∧ v ≠ vaultId) ∨
      VaultDocuments.vaultAt rows id = none ∧ ∃ parent v, AnnexDocuments.parentOf id = some parent ∧
        VaultDocuments.vaultAt rows parent = some v ∧ v ≠ vaultId := by
  unfold VaultDocuments.refused
  cases VaultDocuments.vaultAt rows id with
  | some v => simp
  | none => cases AnnexDocuments.parentOf id with
    | none => simp
    | some parent => cases hv : VaultDocuments.vaultAt rows parent <;> simp [hv]

theorem mem_batchIds :
    id ∈ VaultDocuments.batchIds docIds ↔ id ∈ docIds ∧ Text.isNullOrWhiteSpace (some id) = false := by
  simp [VaultDocuments.batchIds, mem_distinct]

theorem rejected_iff : id ∈ (VaultDocuments.registerAsync s vaultId docIds).2 ↔
    id ∈ VaultDocuments.batchIds docIds ∧
      VaultDocuments.refused (VaultDocuments.vaultAt s.vaultDocuments) vaultId id = true := by
  simp only [VaultDocuments.registerAsync, List.mem_filter]
  exact and_congr_right fun h => by rw [refused_eq h]

def added (s : Store) (vaultId : Text) (docIds : List Text) : List Text :=
  (VaultDocuments.batchIds docIds).filter fun id => (VaultDocuments.vaultAt s.vaultDocuments id).isNone &&
    !VaultDocuments.refused (VaultDocuments.vaultAt s.vaultDocuments) vaultId id

theorem registerAsync_rows : (VaultDocuments.registerAsync s vaultId docIds).1.vaultDocuments =
    s.vaultDocuments ++ (added s vaultId docIds).map fun id => ⟨id, vaultId, none⟩ := by
  simp only [VaultDocuments.registerAsync, added]
  congr 2
  refine List.filter_congr fun id hid => ?_
  rw [existing_eq (.inl hid), refused_eq hid]

structure Fits (rows : List VaultDocument) (vaultId id : Text) : Prop where
  own : ∀ v, VaultDocuments.vaultAt rows id = some v → v = vaultId
  parent : ∀ p v, AnnexDocuments.parentOf id = some p → VaultDocuments.vaultAt rows p = some v → v = vaultId
  annex : ∀ a ∈ rows, AnnexDocuments.parentOf a.docId = some id → a.vaultId = vaultId

variable {rows : List VaultDocument}

theorem Consistent.vaultAt_eq (h : Consistent rows) {d : VaultDocument} (hd : d ∈ rows) :
    VaultDocuments.vaultAt rows d.docId = some d.vaultId := by
  obtain ⟨v, hv⟩ := Option.isSome_iff_exists.1 (vaultAt_isSome.2 (List.mem_map_of_mem hd))
  obtain ⟨d', hd', hid, rfl⟩ := vaultAt_mem hv
  rw [hv, h.oneVault d' hd' d hd hid]

theorem consistent_append_iff (h : Consistent rows) (ids : List Text) :
    Consistent (rows ++ ids.map fun id => ⟨id, vaultId, none⟩) ↔ ∀ id ∈ ids, Fits rows vaultId id := by
  have hmem : ∀ d : VaultDocument, d ∈ rows ++ ids.map (fun id => (⟨id, vaultId, none⟩ : VaultDocument)) ↔
      d ∈ rows ∨ ∃ id ∈ ids, (⟨id, vaultId, none⟩ : VaultDocument) = d := by
    simp
  constructor
  · intro hall id hid
    have hnew := (hmem ⟨id, vaultId, none⟩).2 (.inr ⟨id, hid, rfl⟩)
    refine ⟨fun v hv => ?_, fun p v hp hv => ?_, fun a ha hp => ?_⟩
    · obtain ⟨d, hd, hdid, rfl⟩ := vaultAt_mem hv
      exact hall.oneVault d ((hmem d).2 (.inl hd)) _ hnew hdid
    · obtain ⟨d, hd, rfl, rfl⟩ := vaultAt_mem hv
      exact (hall.annex _ hnew d ((hmem d).2 (.inl hd)) hp).symm
    · exact hall.annex a ((hmem a).2 (.inl ha)) _ hnew hp
  · intro hfits
    refine ⟨fun d hd d' hd' hid => ?_, fun a ha d hd hp => ?_⟩
    · obtain hd | ⟨c, hc, rfl⟩ := (hmem d).1 hd
      · obtain hd' | ⟨c', hc', rfl⟩ := (hmem d').1 hd'
        · exact h.oneVault d hd d' hd' hid
        · have hown := h.vaultAt_eq hd
          rw [show d.docId = c' from hid] at hown
          exact (hfits c' hc').own _ hown
      · obtain hd' | ⟨c', hc', rfl⟩ := (hmem d').1 hd'
        · have hown := h.vaultAt_eq hd'
          rw [show d'.docId = c from hid.symm] at hown
          exact ((hfits c hc).own _ hown).symm
        · rfl
    · obtain ha | ⟨c, hc, rfl⟩ := (hmem a).1 ha
      · obtain hd | ⟨c', hc', rfl⟩ := (hmem d).1 hd
        · exact h.annex a ha d hd hp
        · exact (hfits c' hc').annex a ha hp
      · obtain hd | ⟨c', hc', rfl⟩ := (hmem d).1 hd
        · exact ((hfits c hc).parent _ _ hp (h.vaultAt_eq hd)).symm
        · rfl

end Call

/-- A call of `RegisterAsync`. -/
structure RegisterCall where
  vaultId : Text
  docIds : List Text

def registerStep (s : Store) (c : RegisterCall) : Option Store :=
  some (VaultDocuments.registerAsync s c.vaultId c.docIds).1

def NoAnnexElsewhere (s : Store) (c : RegisterCall) : Prop :=
  ∀ id ∈ VaultDocuments.batchIds c.docIds, VaultDocuments.vaultAt s.vaultDocuments id = none →
    ∀ a ∈ s.vaultDocuments, AnnexDocuments.parentOf a.docId = some id → a.vaultId = c.vaultId

instance (s : Store) (c : RegisterCall) : Decidable (NoAnnexElsewhere s c) := by
  unfold NoAnnexElsewhere
  infer_instance

section Runs
variable {s : Store} {c : RegisterCall}

theorem consistent_register_iff (h : Consistent s.vaultDocuments) :
    Consistent (VaultDocuments.registerAsync s c.vaultId c.docIds).1.vaultDocuments ↔ NoAnnexElsewhere s c := by
  rw [registerAsync_rows, consistent_append_iff h]
  constructor
  · intro hfits id hid hnone a ha hp
    refine (hfits id ?_).annex a ha hp
    have hnot : VaultDocuments.refused (VaultDocuments.vaultAt s.vaultDocuments) c.vaultId id = false := by
      rw [VaultDocuments.refused, hnone, parentOf_parent hp]
    simp [added, hid, hnone, hnot]
  · intro hok id hid
    simp only [added, List.mem_filter, Bool.and_eq_true, Option.isNone_iff_eq_none, Bool.not_eq_true'] at hid
    obtain ⟨hbatch, hnone, hnot⟩ := hid
    refine ⟨fun v hv => by simp [hnone] at hv, fun p v hp hv => ?_, hok id hbatch hnone⟩
    by_contra hne
    rw [Bool.eq_false_iff] at hnot
    exact hnot ((refused_iff _).2 (.inr ⟨hnone, p, v, hp, hv, hne⟩))

theorem rejected_iff_breaks (h : Consistent s.vaultDocuments) (hok : NoAnnexElsewhere s c) (id : Text) :
    id ∈ (VaultDocuments.registerAsync s c.vaultId c.docIds).2 ↔
      id ∈ c.docIds ∧ Text.isNullOrWhiteSpace (some id) = false ∧
        ¬ Consistent (s.vaultDocuments ++ [⟨id, c.vaultId, none⟩]) := by
  rw [rejected_iff, mem_batchIds, and_assoc]
  refine and_congr_right fun hid => and_congr_right fun hblank => ?_
  have hbatch := mem_batchIds.2 ⟨hid, hblank⟩
  have hone : Consistent (s.vaultDocuments ++ [id].map fun id => ⟨id, c.vaultId, none⟩) ↔
      ∀ i ∈ [id], Fits s.vaultDocuments c.vaultId i := consistent_append_iff h [id]
  simp only [List.map_cons, List.map_nil, List.forall_mem_singleton] at hone
  rw [hone, refused_iff]
  constructor
  · rintro (⟨v, hv, hne⟩ | ⟨hnone, p, v, hp, hv, hne⟩) hfits
    · exact hne (hfits.own v hv)
    · exact hne (hfits.parent p v hp hv)
  · intro hnot
    cases hown : VaultDocuments.vaultAt s.vaultDocuments id with
    | some v =>
      refine .inl ⟨v, rfl, fun hv => hnot ?_⟩
      obtain ⟨d, hd, rfl, hdv⟩ := vaultAt_mem hown
      refine ⟨fun w hw => ?_, fun p w hp hw => ?_, fun a ha hp => ?_⟩
      · rw [hown, Option.some.injEq] at hw
        exact hw ▸ hv
      · obtain ⟨q, hq, rfl, rfl⟩ := vaultAt_mem hw
        rw [← h.annex d hd q hq hp, hdv, hv]
      · rw [h.annex a ha d hd hp, hdv, hv]
    | none =>
      by_contra hno
      refine hnot ⟨fun w hw => by simp [hown] at hw, fun p w hp hw => ?_, hok id hbatch hown⟩
      by_contra hne
      exact hno (.inr ⟨rfl, p, w, hp, hw, hne⟩)

end Runs

/-- As long as no document is registered away from an annex of its own, the registry is consistent,
a batch refuses what would break it, and the next batch breaks it exactly if it does not meet this
condition. -/
theorem annexes_follow (s₀ s : Store) (h₀ : s₀.vaultDocuments = [])
    (h : Run registerStep NoAnnexElsewhere s₀ s) :
    Consistent s.vaultDocuments ∧
    (∀ docId, IndexerChangeWriter.docVault s.vaultDocuments docId = VaultDocuments.getVaultId s docId) ∧
    ∀ c : RegisterCall,
      (NoAnnexElsewhere s c → ∀ id, id ∈ (VaultDocuments.registerAsync s c.vaultId c.docIds).2 ↔
        id ∈ c.docIds ∧ Text.isNullOrWhiteSpace (some id) = false ∧
          ¬ Consistent (s.vaultDocuments ++ [⟨id, c.vaultId, none⟩])) ∧
      (Consistent (VaultDocuments.registerAsync s c.vaultId c.docIds).1.vaultDocuments ↔ NoAnnexElsewhere s c) := by
  have hcons : Consistent s.vaultDocuments := by
    refine h.invariant (fun s => Consistent s.vaultDocuments) ?_ ?_
    · rw [h₀]
      exact ⟨by simp, by simp⟩
    · intro s c s' hs hok hstep
      cases hstep
      exact (consistent_register_iff hs).2 hok
  exact ⟨hcons, docVault_eq s, fun c => ⟨fun hok => rejected_iff_breaks hcons hok, consistent_register_iff hcons⟩⟩

/-- A server without rows. -/
def emptyStore : Store where
  vaults := []
  members := []
  permissions := []
  shareLinks := []
  vaultDocuments := []
  users := []
  permissionKeys := nodup_no_permissions
  linkIds := nodup_no_links

/-- The annex of a document and the document itself, in one vault. -/
theorem annexes_follow_document : ∃ s : Store, Run registerStep NoAnnexElsewhere emptyStore s ∧
    s.vaultDocuments.length = 2 ∧ Consistent s.vaultDocuments := by
  have hrun : ∃ s : Store, exec registerStep NoAnnexElsewhere emptyStore
      [⟨"a".toList, ["d~rows".toList]⟩, ⟨"a".toList, ["d".toList]⟩] = some s ∧ s.vaultDocuments.length = 2 :=
    ⟨_, rfl, by decide⟩
  obtain ⟨s, hs, hlen⟩ := hrun
  have h := run_of_exec _ _ s hs
  exact ⟨s, h, hlen, (annexes_follow emptyStore s rfl h).1⟩

/-- The annex in one vault, then its document in another one. -/
theorem annex_in_other_vault : ∃ s : Store, Run registerStep (fun _ _ => True) emptyStore s ∧
    ¬ Consistent s.vaultDocuments := by
  have hrun : ∃ s : Store, exec registerStep (fun _ _ => True) emptyStore
      [⟨"a".toList, ["d~rows".toList]⟩, ⟨"b".toList, ["d".toList]⟩] = some s ∧
      s.vaultDocuments = [⟨"d~rows".toList, "a".toList, none⟩, ⟨"d".toList, "b".toList, none⟩] :=
    ⟨_, rfl, by decide⟩
  obtain ⟨s, hs, hrows⟩ := hrun
  refine ⟨s, run_of_exec _ _ s hs, fun hcons => ?_⟩
  rw [hrows] at hcons
  have := hcons.annex ⟨"d~rows".toList, "a".toList, none⟩ (by simp) ⟨"d".toList, "b".toList, none⟩ (by simp) (by decide)
  exact absurd this (by decide)

end Savoire.Access
