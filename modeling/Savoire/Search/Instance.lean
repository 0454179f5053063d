import Savoire.Search.VaultPages

/-! The global search of one indexer: the pages of the vaults merged, with one cursor for all. -/
namespace Savoire.GlobalSearch
open PagedMerge (Form)
open Paging (Source)
open Query (PageHost)

/-- `<` on texts, by their UTF-16 units. -/
def textLt (a b : Text) : Bool := decide (a.flatMap Utf.utf16 < b.flatMap Utf.utf16)

def compare (a b : Hit) : ℤ :=
  if a.score ≠ b.score then (if a.score < b.score then 1 else -1)
  else if a.vaultId ≠ b.vaultId then (if textLt a.vaultId b.vaultId then -1 else 1)
  else if textLt a.id b.id then -1
  else if textLt b.id a.id then 1
  else 0

structure VaultPage where
  vaultId : Text
  part : PagedMerge.Part Text
  hits : List SearchHit
  next : Option Text

def mergePages (pages : List VaultPage) (limit : ℕ) : List Hit × Parts :=
  PagedMerge.merge (fun a b => decide (compare a b < 0))
    (pages.map fun p => ⟨p.vaultId, p.part, hitsOf p.vaultId p.hits, p.next⟩) limit

theorem compare_lt_iff {a b : Hit} (h : a.vaultId ≠ b.vaultId) : compare a b < 0 ↔ a < b := by
  rw [Hit.lt_iff, compare]
  by_cases hscore : a.score = b.score
  · by_cases hlt : textLt a.vaultId b.vaultId = true
    · have hunits : a.vaultId.flatMap Utf.utf16 < b.vaultId.flatMap Utf.utf16 := by simpa [textLt] using hlt
      simp [hscore, h, hlt, hunits]
    · have hunits : ¬ a.vaultId.flatMap Utf.utf16 < b.vaultId.flatMap Utf.utf16 := by simpa [textLt] using hlt
      simp [hscore, h, hlt, hunits]
  · by_cases hlt : a.score < b.score
    · simp [hscore, hlt, hlt.le]
    · have hgt : b.score < a.score := lt_of_le_of_ne (not_lt.1 hlt) (Ne.symm hscore)
      simp [hscore, hlt, hgt]

/-- How the call to a vault ends: an answer, a request that is refused (400), too many calls (429),
or another failure. -/
inductive Reply
  | answered (r : SearchResult)
  | refused
  | overloaded
  | failed

def Reply.result : Reply → Option SearchResult
  | .answered r => some r
  | _ => none

def Reply.isRefused : Reply → Bool
  | .refused => true
  | _ => false

def Reply.isOverloaded : Reply → Bool
  | .overloaded => true
  | _ => false

inductive SearchError
  | invalidQuery
  | tooComplex
  | invalidCursor
  | refused
  | overloaded
  | unavailable
  deriving DecidableEq

structure Answer where
  hits : List Hit
  total : ℕ
  next : Option Text
  isPartial : Bool

/-- Ids become names of files. -/
def isVaultId (id : Text) : Bool :=
  match id with
  | [] => false
  | c :: rest =>
    c.isAlphanum && decide (rest.length ≤ 127) && rest.all (fun c => c.isAlphanum || c ∈ ['.', '_', '-']) &&
      !(id.zip id.tail).any fun p => p.1 = '.' && p.2 = '.'

/-- `[...new Set(ids)]` -/
def distinct (ids : List Text) : List Text := ids.reverse.dedup.reverse

section
variable (host : PageHost)

def readCursor (ids : List Text) : Option Text → Option (List (Text × PagedMerge.Part Text) × Bool)
  | none => some (ids.map fun id => (id, ⟨none, 0⟩), false)
  | some cursor => (decodeCursor host cursor).map fun d => (d.1.entries.filter fun e => e.1 ∈ ids, d.2)

def search (searchMaxVaults : ℕ) (call : Text → Option Text → ℕ → Reply) (vaultIds : List Text) (cursor : Option Text)
    (limit : ℕ) : Except SearchError Answer :=
  let ids := distinct vaultIds
  if ¬ ids.all isVaultId then .error .invalidQuery
  else if searchMaxVaults < ids.length then .error .tooComplex
  else if limit < 1 ∨ maxLimit < limit then .error .invalidQuery
  else
    match readCursor host ids cursor with
    | none => .error .invalidCursor
    | some (parts, isPartial) =>
      let replies := parts.map fun e => (e, call e.1 (truthy e.2.c) limit)
      if replies.any fun r => r.2.isRefused then .error .refused
      else
        let ok := replies.filterMap fun r => r.2.result.map (r.1, ·)
        if parts ≠ [] ∧ ok = [] then
          .error (if replies.any fun r => r.2.isOverloaded then .overloaded else .unavailable)
        else
          let isPartial := isPartial || decide (ok.length < parts.length)
          let pages := ok.map fun x => (⟨x.1.1, x.1.2, x.2.hits, truthy x.2.next⟩ : VaultPage)
          let merged := mergePages pages limit
          .ok {
            hits := merged.1
            total := (ok.map fun x => x.2.total).sum
            next := if merged.2.entries = [] then none else some (encodeCursor host merged.2 isPartial)
            isPartial := isPartial }

structure Vaults where
  results : Text → List SearchHit
  sorted : ∀ vaultId, (results vaultId).Pairwise Before

variable (key : Text) (vaults : Vaults) {ids : List Text} {c : Option Text} {limit : ℕ}

def Vaults.call (vaultId : Text) (c : Option Text) (limit : ℕ) : Reply :=
  match runSearch host key (vaults.results vaultId) c limit with
  | some r => .answered r
  | none => .refused

def Vaults.source (vaultId : Text) : Source Hit Text :=
  vaultSource host key vaultId (vaults.results vaultId) (vaults.sorted vaultId)

theorem Vaults.owner (v : Text) (c : Option Text) : ∀ x ∈ (vaults.source host key v).rest c, x.vaultId = v :=
  fun _ hx => vaultId_of_mem hx

theorem distinct_nodup (ids : List Text) : (distinct ids).Nodup := List.nodup_reverse.2 (List.nodup_dedup _)

theorem mem_distinct {id : Text} : id ∈ distinct ids ↔ id ∈ ids := by simp [distinct]

def indexerForm (ids : List Text) : Form Text Text Text where
  names := distinct ids
  parts c := (readCursor host (distinct ids) c).map Prod.fst
  write c m := encodeCursor host m ((readCursor host (distinct ids) c).elim false Prod.snd)
  parts_none := rfl
  parts_write c m hm := by
    refine ⟨m.entries, ?_, List.Perm.refl _⟩
    have hkeep : (m.entries.filter fun e => e.1 ∈ distinct ids) = m.entries :=
      List.filter_eq_self.2 fun e he => decide_eq_true (hm e he)
    rw [readCursor, decodeCursor_encode, Option.map_some, Option.map_some, hkeep]
  nodup c l h := by
    cases c with
    | none =>
      obtain rfl := Option.some.inj h
      rw [List.map_map]
      exact (distinct_nodup ids).map fun _ _ heq => heq
    | some cursor =>
      obtain ⟨r, hr, rfl⟩ := Option.map_eq_some_iff.1 h
      obtain ⟨d, -, rfl⟩ := Option.map_eq_some_iff.1 hr
      exact d.1.nodup.sublist (List.filter_sublist.map Prod.fst)
  known c l h e he := by
    cases c with
    | none =>
      obtain rfl := Option.some.inj h
      obtain ⟨n, hn, rfl⟩ := List.mem_map.1 he
      exact hn
    | some cursor =>
      obtain ⟨r, hr, rfl⟩ := Option.map_eq_some_iff.1 h
      obtain ⟨d, -, rfl⟩ := Option.map_eq_some_iff.1 hr
      exact of_decide_eq_true (List.mem_filter.1 he).2

theorem compare_agrees (a b : Hit) (h : a.vaultId ≠ b.vaultId) : decide (compare a b < 0) = true ↔ a < b := by
  rw [decide_eq_true_iff, compare_lt_iff h]

def indexerSource (ids : List Text) : Source Hit Text :=
  PagedMerge.merged (indexerForm host ids) (fun a b => decide (compare a b < 0)) (vaults.source host key)
    compare_agrees (vaults.owner host key)

def resultOf (limit : ℕ) (e : Text × PagedMerge.Part Text) : SearchResult :=
  (runSearch host key (vaults.results e.1) (truthy e.2.c) limit).getD ⟨[], none, 0⟩

variable {host key vaults} {searchMaxVaults : ℕ} {a : Answer}

variable {l : List (Text × PagedMerge.Part Text)}

theorem fetchAll_vaults
    (h : ∀ e ∈ l, vaults.call host key e.1 (truthy e.2.c) limit = .answered (resultOf host key vaults limit e)) :
    PagedMerge.fetchAll (fun v => (vaults.source host key v).fetch) limit l =
      some (l.map fun e => ⟨e.1, e.2, hitsOf e.1 (resultOf host key vaults limit e).hits,
        truthy (resultOf host key vaults limit e).next⟩) := by
  refine PagedMerge.mapM_eq_map fun e he => ?_
  have hcall := h e he
  have hrun : runSearch host key (vaults.results e.1) (truthy e.2.c) limit = some (resultOf host key vaults limit e) := by
    unfold Vaults.call at hcall
    unfold resultOf
    cases hresult : runSearch host key (vaults.results e.1) (truthy e.2.c) limit with
    | none =>
      rw [hresult] at hcall
      cases hcall
    | some r => rfl
  have hfetch : (vaults.source host key e.1).fetch e.2.c limit =
      (runSearch host key (vaults.results e.1) (truthy e.2.c) limit).map fun r => (hitsOf e.1 r.hits, truthy r.next) := rfl
  dsimp only
  rw [hfetch, hrun]
  rfl

section
variable (h : ¬ (l.map fun e => (e, vaults.call host key e.1 (truthy e.2.c) limit)).any (fun r => r.2.isRefused) = true)
include h

theorem call_of_not_refused
    (e : Text × PagedMerge.Part Text) (he : e ∈ l) :
    vaults.call host key e.1 (truthy e.2.c) limit = .answered (resultOf host key vaults limit e) := by
  have hnot : (vaults.call host key e.1 (truthy e.2.c) limit).isRefused = false := by
    rw [Bool.not_eq_true, List.any_eq_false] at h
    simpa using h _ (List.mem_map_of_mem he)
  unfold Vaults.call at hnot ⊢
  unfold resultOf
  cases hresult : runSearch host key (vaults.results e.1) (truthy e.2.c) limit with
  | none =>
    rw [hresult] at hnot
    cases hnot
  | some r => rfl

theorem results_of_not_refused :
    (l.map fun e => (e, vaults.call host key e.1 (truthy e.2.c) limit)).filterMap (fun r => r.2.result.map (r.1, ·)) =
      l.map fun e => (e, resultOf host key vaults limit e) := by
  rw [List.filterMap_map, ← List.filterMap_eq_map]
  refine List.filterMap_congr fun e he => ?_
  rw [Function.comp_apply, call_of_not_refused h e he]
  rfl

end

theorem search_fetch (h : search host searchMaxVaults (vaults.call host key) ids c limit = .ok a) :
    (indexerSource host key vaults ids).fetch c limit = some (a.hits, a.next) ∧ 1 ≤ limit ∧ limit ≤ maxLimit := by
  unfold search at h
  dsimp only at h
  split at h
  · cases h
  split at h
  · cases h
  split at h
  · cases h
  split at h
  · cases h
  rename_i parts isPartial hread
  split at h
  · cases h
  rename_i hrefused
  split at h
  · cases h
  have hparts : (indexerForm host ids).parts c = some parts := by
    change (readCursor host (distinct ids) c).map Prod.fst = _
    rw [hread]
    rfl
  have hwrite : ∀ m, (indexerForm host ids).write c m = encodeCursor host m isPartial := by
    intro m
    change encodeCursor host m ((readCursor host (distinct ids) c).elim false Prod.snd) = _
    rw [hread]
    rfl
  rw [results_of_not_refused hrefused, List.length_map, decide_eq_false (Nat.lt_irrefl _), Bool.or_false, mergePages,
    List.map_map, List.map_map] at h
  obtain rfl := Except.ok.inj h
  refine ⟨?_, by omega, by omega⟩
  change PagedMerge.fetch _ _ _ c limit = _
  rw [PagedMerge.fetch, hparts, Option.bind_some, fetchAll_vaults (call_of_not_refused hrefused), Option.map_some,
    PagedMerge.answer]
  simp only [hwrite]
  rfl

theorem search_error {err : SearchError} (h : search host searchMaxVaults (vaults.call host key) ids c limit = .error err) :
    err ≠ .overloaded ∧ err ≠ .unavailable := by
  unfold search at h
  dsimp only at h
  split at h
  · simp [← Except.error.inj h]
  split at h
  · simp [← Except.error.inj h]
  split at h
  · simp [← Except.error.inj h]
  split at h
  · simp [← Except.error.inj h]
  split at h
  · simp [← Except.error.inj h]
  rename_i hrefused
  rw [results_of_not_refused hrefused] at h
  split at h
  · rename_i hnone
    exact absurd (List.map_eq_nil_iff.1 hnone.2) hnone.1
  · cases h

end
end Savoire.GlobalSearch
