import Savoire.Indexer.Writes

/-! What the reader takes of the table in one batch, and what a step of the feed can do. -/
namespace Savoire.Indexer
open Access Transition

/-- The changes after a cursor, in the order of the table. -/
def pending (rows : List IndexerChangeEntity) (last : Int) : List IndexerChange :=
  (rows.map (·.change)).filter (last < ·.seq)

section Reader
variable {rows : List IndexerChangeEntity}

theorem mem_pending {last : Int} {c : IndexerChange} :
    c ∈ pending rows last ↔ (∃ r ∈ rows, r.change = c) ∧ last < c.seq := by
  simp [pending]

theorem pending_sorted (h : rows.Pairwise (·.change.seq < ·.change.seq)) (last : Int) :
    (pending rows last).Pairwise (·.seq < ·.seq) := by
  have hmap : (rows.map (·.change)).Pairwise (·.seq < ·.seq) := List.pairwise_map.2 h
  exact hmap.filter _

theorem getSinceAsync_eq (h : rows.Pairwise (·.change.seq < ·.change.seq)) (since : Int) (max : Nat) :
    getSinceAsync rows since max = (pending rows since).take max := by
  have hsorted : (pending rows since).Pairwise (·.seq ≤ ·.seq) := (pending_sorted h since).imp Int.le_of_lt
  rw [getSinceAsync, ← pending, hsorted.insertionSort_eq]

theorem examine_spec (sc : Scope) (r : Reading) (batch : List IndexerChange) (hr : r.result.length < r.limit) :
    ∃ taken left, batch = taken ++ left ∧
      GetIndexerChanges.examine sc r batch = { r with
        last := (taken.getLast?.map (·.seq)).getD r.last
        result := r.result ++ taken.filter sc.inScope
        scanned := r.scanned + taken.length } ∧
      (batch ≠ [] → taken ≠ []) ∧
      (left = [] ∨ (r.result ++ taken.filter sc.inScope).length = r.limit) := by
  induction batch generalizing r with
  | nil => exact ⟨[], [], rfl, by simp [GetIndexerChanges.examine], by simp, .inl rfl⟩
  | cons change batch ih =>
    have hres : r.result ++ [change].filter sc.inScope =
        if sc.inScope change then r.result ++ [change] else r.result := by
      by_cases hin : sc.inScope change <;> simp [hin]
    rw [GetIndexerChanges.examine]
    dsimp only
    rw [← hres]
    split
    · rename_i hlimit
      exact ⟨[change], batch, rfl, by simp, by simp, .inr hlimit⟩
    · rename_i hlimit
      have hlen : ([change].filter sc.inScope).length ≤ 1 := List.length_filter_le ..
      have hlt : (r.result ++ [change].filter sc.inScope).length < r.limit := by
        rw [List.length_append] at hlimit ⊢
        omega
      obtain ⟨taken, left, hbatch, heq, -, hleft⟩ := ih { r with
        last := change.seq
        scanned := r.scanned + 1
        result := r.result ++ [change].filter sc.inScope } hlt
      refine ⟨change :: taken, left, by rw [hbatch, List.cons_append], ?_, by simp, ?_⟩
      · rw [heq]
        have hlast : ((change :: taken).getLast?.map (·.seq)).getD r.last =
            (taken.getLast?.map (·.seq)).getD change.seq := by
          cases taken with
          | nil => rfl
          | cons c cs => rfl
        have hfilter : r.result ++ [change].filter sc.inScope ++ taken.filter sc.inScope =
            r.result ++ (change :: taken).filter sc.inScope := by
          rw [List.append_assoc, ← List.filter_append, List.singleton_append]
        simp only [hlast, hfilter, List.length_cons]
        congr 1
        omega
      · refine hleft.imp id fun h => ?_
        rw [← h, List.append_assoc, ← List.filter_append, List.singleton_append]

theorem turn_spec (sc : Scope) (r : Reading) (h : rows.Pairwise (·.change.seq < ·.change.seq))
    (hr : r.result.length < r.limit) :
    ∃ taken left, pending rows r.last = taken ++ left ∧
      (GetIndexerChanges.turn sc rows r).1 = { r with
        last := (taken.getLast?.map (·.seq)).getD r.last
        result := r.result ++ taken.filter sc.inScope
        scanned := r.scanned + taken.length } ∧
      (taken = [] → left = [] ∧ (GetIndexerChanges.turn sc rows r).2 = false) ∧
      ((GetIndexerChanges.turn sc rows r).2 = true →
        (r.result ++ taken.filter sc.inScope).length < r.limit ∧
        r.scanned + taken.length < GetIndexerChanges.maxScanned ∧ taken.length = GetIndexerChanges.batchSize) := by
  have hbatch := getSinceAsync_eq h r.last GetIndexerChanges.batchSize
  obtain ⟨taken, left, hsplit, hexamine, htaken, hleft⟩ := examine_spec sc r
    (getSinceAsync rows r.last GetIndexerChanges.batchSize) hr
  have hall : pending rows r.last = taken ++ (left ++ (pending rows r.last).drop GetIndexerChanges.batchSize) := by
    rw [← List.append_assoc, ← hsplit, hbatch, List.take_append_drop]
  refine ⟨taken, _, hall, ?_, fun hnil => ?_, fun hmore => ?_⟩
  · rw [GetIndexerChanges.turn]
    split
    · rename_i hempty
      obtain ⟨rfl, rfl⟩ := List.append_eq_nil_iff.1 (hsplit.symm.trans (List.length_eq_zero_iff.1 hempty))
      simp
    · split <;> exact hexamine
  · have hempty : getSinceAsync rows r.last GetIndexerChanges.batchSize = [] := by
      by_contra hne
      exact htaken hne hnil
    have hzero : pending rows r.last = [] := by
      have hlen := congrArg List.length (hbatch.symm.trans hempty)
      rw [List.length_take, List.length_nil, GetIndexerChanges.batchSize] at hlen
      exact List.length_eq_zero_iff.1 (by omega)
    refine ⟨(List.append_eq_nil_iff.1 (hall.symm.trans hzero)).2, ?_⟩
    rw [GetIndexerChanges.turn, hempty]
    rfl
  · rw [GetIndexerChanges.turn] at hmore
    split at hmore
    · cases hmore
    · split at hmore
      · cases hmore
      · rename_i hfull
        rw [hexamine, decide_eq_true_eq] at hmore
        obtain ⟨hlimit, hscanned⟩ := hmore
        dsimp only at hlimit hscanned
        obtain rfl | hlen := hleft
        · have hle : (getSinceAsync rows r.last GetIndexerChanges.batchSize).length ≤ GetIndexerChanges.batchSize := by
            exact List.length_take_le ..
          rw [hsplit, List.append_nil] at hle hfull
          omega
        · omega

theorem pending_taken (h : rows.Pairwise (·.change.seq < ·.change.seq)) {last : Int}
    {taken left : List IndexerChange} (hsplit : pending rows last = taken ++ left) :
    pending rows ((taken.getLast?.map (·.seq)).getD last) = left := by
  obtain rfl | ⟨front, d, rfl⟩ := List.eq_nil_or_concat taken
  · exact hsplit
  · rw [List.concat_eq_append] at hsplit ⊢
    have hsorted := pending_sorted h last
    rw [hsplit, List.pairwise_append, List.pairwise_append] at hsorted
    obtain ⟨⟨-, -, hfront⟩, -, hleft⟩ := hsorted
    have hd : last < d.seq := (mem_pending.1 (hsplit ▸ by simp : d ∈ pending rows last)).2
    have hagain : pending rows d.seq = (pending rows last).filter (d.seq < ·.seq) := by
      rw [pending, pending, List.filter_filter]
      refine List.filter_congr fun c _ => ?_
      by_cases hc : d.seq < c.seq
      · simp [hc, Int.lt_trans hd hc]
      · simp [hc]
    have hbefore : (front ++ [d]).filter (d.seq < ·.seq) = [] := by
      refine List.filter_eq_nil_iff.2 fun c hc => ?_
      rw [List.mem_append, List.mem_singleton] at hc
      obtain hc | rfl := hc
      · simpa using Int.le_of_lt (hfront c hc d (by simp))
      · simp
    have hafter : left.filter (d.seq < ·.seq) = left :=
      List.filter_eq_self.2 fun c hc => by simpa using hleft d (by simp) c hc
    simp only [List.getLast?_append, List.getLast?_singleton, Option.some_or, Option.map_some, Option.getD_some]
    rw [hagain, hsplit, List.filter_append, hbefore, hafter, List.nil_append]

end Reader

/-- Where the reader stands, inside a call or between two. -/
def State.last (s : State) : Int := match s.reading with
  | some r => r.last
  | none => s.cursor

/-- The changes of all answers and of the call in progress. -/
def State.seen (s : State) : List IndexerChange := match s.reading with
  | some r => s.delivered ++ r.result
  | none => s.delivered

section Step
variable {sc : Scope} {s s' : State} {e : Event}

theorem step_batch {r : Reading} (hr : s.reading = some r) : step sc s .batch =
    some (if (GetIndexerChanges.turn sc s.rows r).2 then
      { s with reading := some (GetIndexerChanges.turn sc s.rows r).1 }
    else { s with
      reading := none
      cursor := (GetIndexerChanges.turn sc s.rows r).1.last
      delivered := s.delivered ++ (GetIndexerChanges.turn sc s.rows r).1.result
      calls := s.calls + 1 }) := by
  rw [step, hr]
  dsimp only
  split
  · rename_i r' hturn
    rw [hturn, if_pos rfl]
  · rename_i r' hturn
    rw [hturn, if_neg (by simp)]

/-- A step writes a row, only registers documents, begins a call or reads a batch. -/
theorem step_cases (h : step sc s e = some s') :
    (∃ f row, s' = s.setFeed f ∧ Written s.toFeed f row) ∨
    (∃ store, s' = s.setFeed { s.toFeed with store := store } ∧
      ∀ r, Formed s.store.vaultDocuments r → Formed store.vaultDocuments r) ∨
    (∃ limit, s.reading = none ∧ s' = { s with reading := some (GetIndexerChanges.start s.cursor limit) }) ∨
    ∃ r, e = .batch ∧ s.reading = some r ∧
      s' = if (GetIndexerChanges.turn sc s.rows r).2 then
        { s with reading := some (GetIndexerChanges.turn sc s.rows r).1 }
      else { s with
        reading := none
        cursor := (GetIndexerChanges.turn sc s.rows r).1.last
        delivered := s.delivered ++ (GetIndexerChanges.turn sc s.rows r).1.result
        calls := s.calls + 1 } := by
  cases e with
  | operation seq type id =>
    rw [step, Option.ite_none_right_eq_some] at h
    obtain ⟨hseq, h⟩ := h
    cases h
    obtain hf | ⟨row, hrow⟩ := recordOperationAsync_written type id hseq
    · refine .inr (.inl ⟨s.store, ?_, fun _ hr => hr⟩)
      rw [hf]
    · exact .inl ⟨_, row, rfl, hrow⟩
  | vaultEnters seq v =>
    rw [step, Option.ite_none_right_eq_some] at h
    obtain ⟨hseq, h⟩ := h
    cases h
    obtain ⟨row, hrow⟩ := recordVaultAsync_written v hseq
    exact .inl ⟨_, row, rfl, hrow⟩
  | vaultLeaves seq v =>
    rw [step, Option.ite_none_right_eq_some] at h
    obtain ⟨hseq, h⟩ := h
    cases h
    obtain ⟨row, hrow⟩ := vaultLeaves_written v hseq
    exact .inl ⟨_, row, rfl, hrow⟩
  | vaultDeleted seq v =>
    rw [step, Option.ite_none_right_eq_some] at h
    obtain ⟨hseq, h⟩ := h
    cases h
    obtain ⟨row, hrow⟩ := deleteAsync_written v hseq
    exact .inl ⟨_, row, rfl, hrow⟩
  | register v docIds =>
    cases h
    refine .inr (.inl ⟨_, rfl, fun r hr => ?_⟩)
    obtain ⟨key, c, w, kind, docId⟩ := r
    cases kind with
    | document => cases docId with
      | none => exact hr
      | some d => exact ⟨hr.1, docVault_register _ _ _ hr.2⟩
    | vault | vaultDeleted | settings => cases docId <;> exact hr
  | call limit =>
    rw [step] at h
    split at h
    · cases h
    · rename_i hreading
      cases h
      exact .inr (.inr (.inl ⟨limit, hreading, rfl⟩))
  | batch =>
    cases hreading : s.reading with
    | none =>
      rw [step, hreading] at h
      cases h
    | some r =>
      rw [step_batch hreading] at h
      cases h
      exact .inr (.inr (.inr ⟨r, rfl, rfl, rfl⟩))

end Step

end Savoire.Indexer
