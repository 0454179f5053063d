import Savoire.Indexer.Feed

/-! What a write does to the feed: it appends the row of its resource and drops the old one, and
with a deletion those of the vault. -/
namespace Savoire.Indexer
open Access Transition

section Registry
variable {rows : List VaultDocument} {id v : Text}

theorem docVault_or (rows : List VaultDocument) (id : Text) : Access.IndexerChangeWriter.docVault rows id =
    (VaultDocuments.vaultAt rows id).or ((AnnexDocuments.parentOf id).bind (VaultDocuments.vaultAt rows)) := by
  have h := docVault_eq { emptyStore with vaultDocuments := rows } id
  rwa [getVaultId_eq] at h

theorem vaultAt_append (new : List VaultDocument) : VaultDocuments.vaultAt (rows ++ new) id =
    (VaultDocuments.vaultAt rows id).or (VaultDocuments.vaultAt new id) := by
  simp only [VaultDocuments.vaultAt, List.find?_append]
  cases rows.find? fun d => d.docId == id <;> rfl

theorem vaultAt_map {ids : List Text} : VaultDocuments.vaultAt (ids.map fun c => ⟨c, v, none⟩) id =
    if id ∈ ids then some v else none := by
  induction ids with
  | nil => rfl
  | cons c ids ih =>
    by_cases hc : c = id
    · simp [VaultDocuments.vaultAt, hc]
    · have hne : ¬ id = c := fun h => hc h.symm
      simpa [VaultDocuments.vaultAt, hc, hne] using ih

theorem docVault_register (s : Store) (w : Text) (docIds : List Text)
    (h : Access.IndexerChangeWriter.docVault s.vaultDocuments id = some v) :
    Access.IndexerChangeWriter.docVault (VaultDocuments.registerAsync s w docIds).1.vaultDocuments id = some v := by
  rw [docVault_or] at h ⊢
  rw [registerAsync_rows, vaultAt_append]
  cases hown : VaultDocuments.vaultAt s.vaultDocuments id with
  | some u =>
    rw [hown, Option.some_or] at h
    rw [Option.some_or, Option.some_or, h]
  | none =>
    rw [hown, Option.none_or] at h
    obtain ⟨parent, hp, hv⟩ := Option.bind_eq_some_iff.1 h
    rw [Option.none_or, vaultAt_map, hp, Option.bind_some, vaultAt_append, hv, Option.some_or]
    split
    · rename_i hadded
      have hnot : VaultDocuments.refused (VaultDocuments.vaultAt s.vaultDocuments) w id = false := by
        have := (List.mem_filter.1 hadded).2
        simp only [Bool.and_eq_true, Bool.not_eq_true'] at this
        exact this.2
      have hw : w = v := by
        by_contra hne
        rw [Bool.eq_false_iff] at hnot
        exact hnot ((refused_iff _).2 (.inr ⟨hown, parent, v, hp, hv, Ne.symm hne⟩))
      rw [hw, Option.some_or]
    · exact Option.none_or

theorem vaultAt_delete {w : Text} (h : VaultDocuments.vaultAt rows id = some v) (hne : v ≠ w) :
    VaultDocuments.vaultAt (rows.filter (·.vaultId ≠ w)) id = some v := by
  obtain ⟨d, hd, rfl⟩ := Option.map_eq_some_iff.1 h
  obtain ⟨hid, as, bs, rfl, has⟩ := List.find?_eq_some_iff_append.1 hd
  have hnone : (as.filter (·.vaultId ≠ w)).find? (fun d => d.docId == id) = none := by
    refine List.find?_eq_none.2 fun x hx => ?_
    simpa using has x (List.mem_filter.1 hx).1
  rw [VaultDocuments.vaultAt, List.filter_append, List.find?_append, hnone, Option.none_or,
    List.filter_cons_of_pos (by simpa using hne), List.find?_cons, hid]
  rfl

theorem docVault_delete {w : Text} (h : Access.IndexerChangeWriter.docVault rows id = some v) (hne : v ≠ w) :
    Access.IndexerChangeWriter.docVault (rows.filter (·.vaultId ≠ w)) id = some v := by
  rw [docVault_or] at h ⊢
  cases hown : VaultDocuments.vaultAt rows id with
  | some u =>
    rw [hown, Option.some_or] at h
    obtain rfl := Option.some.inj h
    rw [vaultAt_delete hown hne, Option.some_or]
  | none =>
    rw [hown, Option.none_or] at h
    obtain ⟨parent, hp, hv⟩ := Option.bind_eq_some_iff.1 h
    have hnone : VaultDocuments.vaultAt (rows.filter (·.vaultId ≠ w)) id = none := by
      rw [vaultAt_eq_none] at hown ⊢
      exact fun hmem => hown (List.Sublist.subset (List.filter_sublist.map _) hmem)
    rw [hnone, Option.none_or, hp, Option.bind_some, vaultAt_delete hv hne]

end Registry

def Formed (documents : List VaultDocument) (r : IndexerChangeEntity) : Prop :=
  match r.change.kind, r.change.docId with
  | .document, some d => r.resourceKey = resourceKey .document d ∧
      Access.IndexerChangeWriter.docVault documents d = some r.change.vaultId
  | .document, none => False
  | _, some _ => False
  | kind, none => r.resourceKey = resourceKey kind r.change.vaultId

/-- `d` is `c` or a later change of the resource of `c`. -/
structure Later (c d : IndexerChange) : Prop where
  seq : c.seq ≤ d.seq
  vaultId : d.vaultId = c.vaultId
  kind : d.kind = c.kind
  docId : d.docId = c.docId

instance (c d : IndexerChange) : Decidable (Later c d) :=
  decidable_of_iff (c.seq ≤ d.seq ∧ d.vaultId = c.vaultId ∧ d.kind = c.kind ∧ d.docId = c.docId)
    ⟨fun ⟨h₁, h₂, h₃, h₄⟩ => ⟨h₁, h₂, h₃, h₄⟩, fun h => ⟨h.seq, h.vaultId, h.kind, h.docId⟩⟩

theorem Later.refl (c : IndexerChange) : Later c c := ⟨Int.le_refl _, rfl, rfl, rfl⟩

theorem Later.trans {c d e : IndexerChange} (hcd : Later c d) (hde : Later d e) : Later c e where
  seq := Int.le_trans hcd.seq hde.seq
  vaultId := hde.vaultId.trans hcd.vaultId
  kind := hde.kind.trans hcd.kind
  docId := hde.docId.trans hcd.docId

theorem Later.inScope (sc : Scope) {c d : IndexerChange} (h : Later c d) : sc.inScope d = sc.inScope c := by
  rw [Scope.inScope, Scope.inScope, h.kind, h.vaultId]

theorem sep_notMem_toText (k : IndexerChangeKind) : ':' ∉ k.toText := by
  cases k <;> decide

theorem toText_inj {k k' : IndexerChangeKind} (h : k.toText = k'.toText) : k = k' := by
  revert h
  cases k <;> cases k' <;> decide

theorem resourceKey_inj {k k' : IndexerChangeKind} {id id' : Text}
    (h : resourceKey k id = resourceKey k' id') : k = k' ∧ id = id' := by
  have htake := congrArg (List.takeWhile (· ≠ ':')) h
  have hdrop := congrArg (List.dropWhile (· ≠ ':')) h
  rw [resourceKey, resourceKey, Text.takeWhile_sep _ _ _ (sep_notMem_toText k),
    Text.takeWhile_sep _ _ _ (sep_notMem_toText k')] at htake
  rw [resourceKey, resourceKey, Text.dropWhile_sep _ _ _ (sep_notMem_toText k),
    Text.dropWhile_sep _ _ _ (sep_notMem_toText k')] at hdrop
  exact ⟨toText_inj htake, List.tail_eq_of_cons_eq hdrop⟩

theorem Formed.same {documents : List VaultDocument} {r r' : IndexerChangeEntity} (h : Formed documents r)
    (h' : Formed documents r') (hkey : r.resourceKey = r'.resourceKey) :
    r'.change.vaultId = r.change.vaultId ∧ r'.change.kind = r.change.kind ∧ r'.change.docId = r.change.docId := by
  obtain ⟨key, seq, vault, kind, docId⟩ := r
  obtain ⟨key', seq', vault', kind', docId'⟩ := r'
  cases kind <;> cases docId <;> cases kind' <;> cases docId' <;>
    simp only [Formed] at h h' <;> grind [resourceKey_inj]

structure Written (f f' : Feed) (row : IndexerChangeEntity) : Prop where
  seq : f.sequence < row.change.seq
  rows : ∃ keep : IndexerChangeEntity → Bool, f'.rows = f.rows.filter keep ++ [row] ∧
    ∀ x ∈ f.rows, keep x = false → x.resourceKey = row.resourceKey ∨
      (row.change ∈ f'.purges ∧ x.change.vaultId = row.change.vaultId ∧ x.change.kind ≠ .vaultDeleted)
  sequence : f'.sequence = row.change.seq
  committed : f'.committed = f.committed ++ [row.change]
  purges : f'.purges = f.purges ∨ f'.purges = f.purges ++ [row.change] ∧ row.change.kind = .vaultDeleted
  formed : ∀ x ∈ f'.rows, Formed f.store.vaultDocuments x → Formed f'.store.vaultDocuments x
  formedRow : Formed f.store.vaultDocuments row

section Writers
variable {f : Feed} {seq : Int}

theorem replaceAsync_written {key : Text} {change : IndexerChange} (hseq : f.sequence < change.seq)
    (h : Formed f.store.vaultDocuments ⟨key, change⟩) :
    Written f (IndexerChangeWriter.replaceAsync f key change) ⟨key, change⟩ where
  seq := hseq
  rows := ⟨fun r => r.resourceKey ≠ key, rfl, fun x _ hx => .inl (by simpa using hx)⟩
  sequence := rfl
  committed := rfl
  purges := .inl rfl
  formed := fun _ _ hx => hx
  formedRow := h

theorem recordVaultAsync_written (v : Text) (hseq : f.sequence < seq) :
    ∃ row, Written f (IndexerChangeWriter.recordVaultAsync f seq v) row :=
  ⟨_, replaceAsync_written hseq rfl⟩

theorem recordOperationAsync_written (type : CrdtResourceType) (id : Text) (hseq : f.sequence < seq) :
    IndexerChangeWriter.recordOperationAsync f seq type id = f ∨
      ∃ row, Written f (IndexerChangeWriter.recordOperationAsync f seq type id) row := by
  cases type with
  | vault =>
    by_cases hid : Text.startsWith id "vault:".toList = true
    · right
      rw [IndexerChangeWriter.recordOperationAsync, if_pos hid]
      exact recordVaultAsync_written _ hseq
    · left
      rw [IndexerChangeWriter.recordOperationAsync, if_neg hid]
  | document | room =>
    cases hv : Access.IndexerChangeWriter.docVault f.store.vaultDocuments id with
    | none =>
      left
      rw [IndexerChangeWriter.recordOperationAsync, hv]
    | some v =>
      right
      rw [IndexerChangeWriter.recordOperationAsync, hv]
      exact ⟨_, replaceAsync_written hseq ⟨rfl, hv⟩⟩
  | index =>
    cases hv : IndexerChangeWriter.settingsVaultOf id with
    | none =>
      left
      rw [IndexerChangeWriter.recordOperationAsync, hv]
    | some v =>
      right
      rw [IndexerChangeWriter.recordOperationAsync, hv]
      exact ⟨_, replaceAsync_written hseq rfl⟩

theorem vaultLeaves_written (v : Text) (hseq : f.sequence < seq) :
    ∃ row, Written f (IndexerChangeWriter.recordVaultGoneAsync f seq v false) row :=
  ⟨_, replaceAsync_written hseq rfl⟩

theorem deleteAsync_written (v : Text) (hseq : f.sequence < seq) :
    ∃ row, Written f (Vaults.deleteAsync f seq v) row := by
  let row : IndexerChangeEntity := ⟨resourceKey .vaultDeleted v, seq, v, .vaultDeleted, none⟩
  let keep : IndexerChangeEntity → Bool := fun r =>
    decide (r.resourceKey ≠ row.resourceKey) && !(r.change.vaultId == v && r.change.kind != .vaultDeleted)
  have hrows : (Vaults.deleteAsync f seq v).rows = f.rows.filter keep ++ [row] := by
    simp [Vaults.deleteAsync, IndexerChangeWriter.recordVaultGoneAsync, IndexerChangeWriter.replaceAsync,
      List.filter_filter, keep, row, Bool.and_comm]
  refine ⟨row, hseq, ⟨keep, hrows, fun x _ hx => ?_⟩, rfl, rfl, .inr ⟨rfl, rfl⟩, fun x hx hform => ?_, rfl⟩
  · simp only [keep, Bool.and_eq_false_iff, decide_eq_false_iff_not, not_not, Bool.not_eq_false',
      Bool.and_eq_true, beq_iff_eq, bne_iff_ne] at hx
    refine hx.imp id fun h => ⟨?_, h⟩
    simp [Vaults.deleteAsync, IndexerChangeWriter.recordVaultGoneAsync, row]
  · have hkeep : x.change.vaultId = v → x.change.kind = .vaultDeleted := by
      rw [hrows, List.mem_append, List.mem_filter, List.mem_singleton] at hx
      obtain ⟨_, hx⟩ | rfl := hx
      · simp only [keep, Bool.and_eq_true, decide_eq_true_eq, Bool.not_eq_true', Bool.and_eq_false_iff,
          beq_eq_false_iff_ne, bne_eq_false_iff_eq] at hx
        exact fun hv => hx.2.resolve_left fun hne => hne hv
      · exact fun _ => rfl
    obtain ⟨key, c, w, kind, docId⟩ := x
    cases kind with
    | document =>
      cases docId with
      | none => exact hform
      | some d =>
        refine ⟨hform.1, docVault_delete hform.2 fun hv => ?_⟩
        cases hkeep hv
    | vault | vaultDeleted | settings => cases docId <;> exact hform

end Writers
end Savoire.Indexer
