import Savoire.Search.Backend

/-! A global search read to its end gives each hit once, in the global order, and the same hits
whether one indexer has the vaults or several have. -/
namespace Savoire.GlobalSearch
open PagedMerge (PartFits)
open Paging (Source State start)
open Transition (Run)
open Query (PageHost)

section Definitions
variable (host : PageHost) (key : Text) (vaults : Vaults) (searchMaxVaults : ℕ) (ownerOf : Text → Text) (managed : List Text)

/-- All hits, in the global order. -/
def allHits : List Hit :=
  ((distinct managed).flatMap fun v => hitsOf v (vaults.results v)).insertionSort (· ≤ ·)

def searchPage (ids : List Text) (c : Option Text) (limit : ℕ) : Option (List Hit × Option Text) :=
  match search host searchMaxVaults (vaults.call host key) ids c limit with
  | .ok a => some (a.hits, a.next)
  | .error _ => none

/-- For each vault, the page that is fetched again has the hits that were given of it. -/
def OffsetsFit (ids : List Text) (c : Option Text) (limit : ℕ) : Prop :=
  ∀ l, (indexerForm host ids).parts c = some l → ∀ e ∈ l,
    ∀ r ∈ vaultFetch host key e.1 (vaults.results e.1) e.2.c limit, e.2.s ≤ r.1.length

def IndexerClear (ids : List Text) (s : State Hit Text) (limit : ℕ) : Prop :=
  ∀ c ∈ s.cursor, OffsetsFit host key vaults ids c limit

/-- The answer of an indexer, as the backend takes it. -/
def peerOf (_ : Text) (ids : List Text) (c : Option Text) (limit : ℕ) : PeerReply :=
  match search host searchMaxVaults (vaults.call host key) ids c limit with
  | .ok a => .answered a
  | .error .overloaded | .error .unavailable => .failed
  | .error _ => .refused

def handlePage (c : Option Text) (limit : ℕ) : Option (List Hit × Option Text) :=
  match handle host ownerOf (peerOf host key vaults searchMaxVaults) managed c limit with
  | .ok a => some (a.hits, a.next)
  | .error _ => none

/-- For each indexer and each of its vaults, the page that is fetched again has the hits that were
given of it. -/
def BackendClear (s : State Hit Text) (limit : ℕ) : Prop :=
  ∀ c ∈ s.cursor, ∀ l, (backendForm host (groupsOf ownerOf managed)).parts c = some l → ∀ e ∈ l,
    OffsetsFit host key vaults (((groupsOf ownerOf managed).get e.1).getD []) e.2.c limit ∧
      ∀ r ∈ searchPage host key vaults searchMaxVaults (((groupsOf ownerOf managed).get e.1).getD []) e.2.c limit,
        e.2.s ≤ r.1.length

def instanceSource (n : Text) : Source Hit Text :=
  indexerSource host key vaults (((groupsOf ownerOf managed).get n).getD [])

end Definitions

variable {host : PageHost} {key : Text} {vaults : Vaults} {searchMaxVaults : ℕ} {ownerOf : Text → Text}
  {managed ids : List Text} {s s' : State Hit Text} {c : Option Text} {limit : ℕ}

theorem searchPage_spec {r : List Hit × Option Text} (h : searchPage host key vaults searchMaxVaults ids c limit = some r) :
    (indexerSource host key vaults ids).fetch c limit = some r ∧ 1 ≤ limit ∧ limit ≤ maxLimit := by
  unfold searchPage at h
  split at h
  · rename_i a ha
    rw [← Option.some.inj h]
    exact search_fetch ha
  · cases h

theorem indexer_fits (hmax : limit ≤ maxLimit) (h : OffsetsFit host key vaults ids c limit) :
    (indexerSource host key vaults ids).Fits c limit :=
  fun l hl e he => ⟨hmax, fun r hr => h l hl e he r hr⟩

theorem instance_owner (n : Text) (c : Option Text) :
    ∀ x ∈ (instanceSource host key vaults ownerOf managed n).rest c, ownerOf x.vaultId = n := by
  intro x hx
  obtain ⟨v, hv, c', hxv⟩ := PagedMerge.of_mem_restOf hx
  rw [vaultId_of_mem hxv]
  exact (mem_groupsOf.1 (mem_distinct.1 hv)).2

theorem backend_agrees (a b : Hit) (h : ownerOf a.vaultId ≠ ownerOf b.vaultId) :
    decide (GlobalSearchMerge.compare a b < 0) = true ↔ a < b := by
  rw [decide_eq_true_iff, GlobalSearchMerge.compare_lt_iff fun heq => h (congrArg ownerOf heq)]

def backendSource (host : PageHost) (key : Text) (vaults : Vaults) (ownerOf : Text → Text) (managed : List Text) :
    Source Hit Text :=
  PagedMerge.merged (backendForm host (groupsOf ownerOf managed)) (fun a b => decide (GlobalSearchMerge.compare a b < 0))
    (instanceSource host key vaults ownerOf managed) backend_agrees instance_owner

/-- The answer of an indexer that gives one. -/
def answerOf (host : PageHost) (key : Text) (vaults : Vaults) (searchMaxVaults : ℕ) (ids : List Text) (c : Option Text)
    (limit : ℕ) : Answer :=
  match search host searchMaxVaults (vaults.call host key) ids c limit with
  | .ok a => a
  | .error _ => ⟨[], 0, none, false⟩

theorem peerOf_answered {name : Text} (h : (peerOf host key vaults searchMaxVaults name ids c limit).isRefused = false) :
    peerOf host key vaults searchMaxVaults name ids c limit =
        .answered (answerOf host key vaults searchMaxVaults ids c limit) ∧
      searchPage host key vaults searchMaxVaults ids c limit =
        some ((answerOf host key vaults searchMaxVaults ids c limit).hits,
          (answerOf host key vaults searchMaxVaults ids c limit).next) := by
  unfold peerOf at h ⊢
  unfold searchPage answerOf
  cases hsearch : search host searchMaxVaults (vaults.call host key) ids c limit with
  | ok a => exact ⟨rfl, rfl⟩
  | error err =>
    obtain ⟨hover, hun⟩ := search_error hsearch
    rw [hsearch] at h
    cases err with
    | overloaded => exact absurd rfl hover
    | unavailable => exact absurd rfl hun
    | invalidQuery => cases h
    | tooComplex => cases h
    | invalidCursor => cases h
    | refused => cases h

section Handle
variable {l : List ((Text × List Text) × PagedMerge.Part Text)}

section
variable (h : ¬ (l.map fun g => (g, peerOf host key vaults searchMaxVaults g.1.1 g.1.2 g.2.c limit)).any
    (fun r => r.2.isRefused) = true)
include h

theorem peers_answered (g : (Text × List Text) × PagedMerge.Part Text) (hg : g ∈ l) :
    peerOf host key vaults searchMaxVaults g.1.1 g.1.2 g.2.c limit =
        .answered (answerOf host key vaults searchMaxVaults g.1.2 g.2.c limit) ∧
      searchPage host key vaults searchMaxVaults g.1.2 g.2.c limit =
        some ((answerOf host key vaults searchMaxVaults g.1.2 g.2.c limit).hits,
          (answerOf host key vaults searchMaxVaults g.1.2 g.2.c limit).next) := by
  refine peerOf_answered ?_
  rw [Bool.not_eq_true, List.any_eq_false] at h
  simpa using h _ (List.mem_map_of_mem hg)

theorem answers_of_not_refused :
    (l.map fun g => (g, peerOf host key vaults searchMaxVaults g.1.1 g.1.2 g.2.c limit)).filterMap
        (fun r => r.2.answer.map (r.1, ·)) =
      l.map fun g => (g, answerOf host key vaults searchMaxVaults g.1.2 g.2.c limit) := by
  rw [List.filterMap_map, ← List.filterMap_eq_map]
  refine List.filterMap_congr fun g hg => ?_
  rw [Function.comp_apply, (peers_answered h g hg).1]
  rfl

theorem none_failed :
    (l.map fun g => (g, peerOf host key vaults searchMaxVaults g.1.1 g.1.2 g.2.c limit)).any
      (fun r => r.2.isFailed) = false := by
  rw [List.any_eq_false]
  intro r hr
  obtain ⟨g, hg, rfl⟩ := List.mem_map.1 hr
  rw [(peers_answered h g hg).1]
  exact Bool.false_ne_true

end

end Handle

/-- What the backend answers is the page of the source, and each indexer that it asked answered. -/
theorem handlePage_spec {r : List Hit × Option Text}
    (h : handlePage host key vaults searchMaxVaults ownerOf managed c limit = some r) :
    (backendSource host key vaults ownerOf managed).fetch c limit = some r ∧ 1 ≤ limit ∧ limit ≤ maxLimit ∧
      ∀ l, (backendForm host (groupsOf ownerOf managed)).parts c = some l → ∀ e ∈ l,
        ∃ r, searchPage host key vaults searchMaxVaults (((groupsOf ownerOf managed).get e.1).getD []) e.2.c limit =
          some r := by
  unfold handlePage at h
  split at h
  · rename_i a ha
    obtain rfl := Option.some.inj h
    unfold handle at ha
    dsimp only at ha
    split at ha
    · cases ha
    split at ha
    · cases ha
    rename_i parts isPartial hstate
    have hparts : (backendForm host (groupsOf ownerOf managed)).parts c = some (activeParts (groupsOf ownerOf managed) parts) := by
      change (stateOf host (groupsOf ownerOf managed) c).map _ = _
      rw [hstate]
      rfl
    have hwrite : ∀ m, (backendForm host (groupsOf ownerOf managed)).write c m =
        GlobalSearchCursor.encode host m isPartial := by
      intro m
      change GlobalSearchCursor.encode host m ((stateOf host (groupsOf ownerOf managed) c).elim false Prod.snd) = _
      rw [hstate]
      rfl
    change PagedMerge.fetch _ _ _ c limit = _ ∧ _
    split at ha
    · rename_i hnil
      obtain rfl := Except.ok.inj ha
      have hnone : activeParts (groupsOf ownerOf managed) parts = [] := by rw [activeParts, hnil, List.map_nil]
      rw [hnone] at hparts
      refine ⟨?_, by omega, by omega, fun l hl e he => ?_⟩
      · obtain ⟨count, rfl⟩ : ∃ count, limit = count + 1 := ⟨limit - 1, by omega⟩
        rw [PagedMerge.fetch, hparts]
        rfl
      · obtain rfl := Option.some.inj (hparts.symm.trans hl)
        cases he
    · rename_i hne
      split at ha
      · cases ha
      rename_i hrefused
      have hpages : PagedMerge.fetchAll (fun n => (instanceSource host key vaults ownerOf managed n).fetch) limit
          (activeParts (groupsOf ownerOf managed) parts) =
          some ((active (groupsOf ownerOf managed) parts).map fun g =>
            ⟨g.1.1, g.2, (answerOf host key vaults searchMaxVaults g.1.2 g.2.c limit).hits,
              (answerOf host key vaults searchMaxVaults g.1.2 g.2.c limit).next⟩) := by
        rw [activeParts, PagedMerge.fetchAll, List.mapM_map]
        refine PagedMerge.mapM_eq_map fun g hg => ?_
        have hfetch := (searchPage_spec (peers_answered hrefused g hg).2).1
        rw [Function.comp_apply, instanceSource, (of_mem_active hg).1, Option.getD_some, hfetch]
        rfl
      rw [answers_of_not_refused hrefused, none_failed hrefused, Bool.or_false, if_neg (mt List.map_eq_nil_iff.1 hne),
        List.map_map, GlobalSearchMerge.merge] at ha
      obtain rfl := Except.ok.inj ha
      refine ⟨?_, by omega, by omega, fun l hl e he => ?_⟩
      · rw [PagedMerge.fetch, hparts, Option.bind_some, hpages, Option.map_some, PagedMerge.answer]
        simp only [hwrite]
        rfl
      · obtain rfl := Option.some.inj (hparts.symm.trans hl)
        obtain ⟨g, hg, rfl⟩ := List.mem_map.1 he
        rw [(of_mem_active hg).1, Option.getD_some]
        exact ⟨_, (peers_answered hrefused g hg).2⟩
  · cases h

theorem indexer_rest (ids : List Text) : (indexerSource host key vaults ids).rest none = allHits vaults ids := by
  have hone : ∀ v, PagedMerge.partRest (vaults.source host key) (v, ⟨none, 0⟩) = hitsOf v (vaults.results v) := by
    intro v
    have hrest : vaultRest host key v (vaults.results v) none = Keyset.rest none (hitsOf v (vaults.results v)) := rfl
    change (vaultRest host key v (vaults.results v) none).drop 0 = _
    have hall : hitsOf v _ = _ := filter_after (vaults.sorted v) none
    rw [hrest, List.drop_zero]
    simpa using hall.symm
  change (((distinct ids).map fun n => (n, (⟨none, 0⟩ : PagedMerge.Part Text))).flatMap
    (PagedMerge.partRest (vaults.source host key))).insertionSort (· ≤ ·) = _
  rw [List.flatMap_map, allHits]
  simp only [hone]

theorem mem_allHits {x : Hit} : x ∈ allHits vaults managed ↔ ∃ v ∈ managed, x ∈ hitsOf v (vaults.results v) := by
  rw [allHits, List.mem_insertionSort, List.mem_flatMap]
  simp only [mem_distinct]

theorem allHits_sorted (host : PageHost) (key : Text) : (allHits vaults managed).Pairwise (· < ·) := by
  have hrest := @indexer_rest host key vaults managed
  rw [← hrest]
  exact (indexerSource host key vaults managed).sorted none

theorem backend_rest : (backendSource host key vaults ownerOf managed).rest none = allHits vaults managed := by
  refine Keyset.eq_of_sorted ((backendSource host key vaults ownerOf managed).sorted none) (allHits_sorted host key)
    fun x => ?_
  have hinstance : ∀ n, (instanceSource host key vaults ownerOf managed n).rest none =
      allHits vaults (((groupsOf ownerOf managed).get n).getD []) := fun n => indexer_rest _
  have hmem : x ∈ (backendSource host key vaults ownerOf managed).rest none ↔
      ∃ n ∈ (byName (groupsOf ownerOf managed).entries).map Prod.fst,
        x ∈ (instanceSource host key vaults ownerOf managed n).rest none :=
    show x ∈ PagedMerge.restOf (backendForm host (groupsOf ownerOf managed))
      (instanceSource host key vaults ownerOf managed) none ↔ _ from PagedMerge.mem_merged
  rw [hmem]
  simp only [hinstance, mem_allHits, mem_groupsOf]
  constructor
  · rintro ⟨n, -, v, ⟨hv, -⟩, hx⟩
    exact ⟨v, hv, hx⟩
  · rintro ⟨v, hv, hx⟩
    refine ⟨ownerOf v, ?_, v, ⟨hv, rfl⟩, hx⟩
    exact ((byName_perm _).map Prod.fst).symm.subset (owner_mem_groupsOf hv)

theorem indexer_step (hclear : IndexerClear host key vaults ids s limit)
    (h : Paging.step (searchPage host key vaults searchMaxVaults ids) s limit = some s') :
    Paging.Clear (indexerSource host key vaults ids) s limit ∧
      Paging.step (indexerSource host key vaults ids).fetch s limit = some s' := by
  unfold Paging.step at h ⊢
  obtain ⟨c, hc, hpage⟩ := Option.bind_eq_some_iff.1 h
  obtain ⟨r, hr, rfl⟩ := Option.map_eq_some_iff.1 hpage
  obtain ⟨hfetch, hlimit, hmax⟩ := searchPage_spec hr
  refine ⟨⟨hlimit, fun c' hc' => ?_⟩, ?_⟩
  · exact indexer_fits hmax (hclear c' hc')
  · rw [hc, Option.bind_some, hfetch, Option.map_some]

theorem backend_step (hclear : BackendClear host key vaults searchMaxVaults ownerOf managed s limit)
    (h : Paging.step (handlePage host key vaults searchMaxVaults ownerOf managed) s limit = some s') :
    Paging.Clear (backendSource host key vaults ownerOf managed) s limit ∧
      Paging.step (backendSource host key vaults ownerOf managed).fetch s limit = some s' := by
  unfold Paging.step at h ⊢
  obtain ⟨c, hc, hpage⟩ := Option.bind_eq_some_iff.1 h
  obtain ⟨r, hr, rfl⟩ := Option.map_eq_some_iff.1 hpage
  obtain ⟨hfetch, hlimit, hmax, hanswers⟩ := handlePage_spec hr
  refine ⟨⟨hlimit, fun c' hc' l hl e he => ?_⟩, ?_⟩
  · obtain rfl := Option.some.inj (hc.symm.trans hc')
    obtain ⟨hoffsets, hs⟩ := hclear c hc l hl e he
    refine ⟨indexer_fits hmax hoffsets, fun r' hr' => ?_⟩
    -- the page of the indexer is the one that it answers
    obtain ⟨q, hq⟩ := hanswers l hl e he
    have hsame := (searchPage_spec hq).1
    have hr'' : (indexerSource host key vaults (((groupsOf ownerOf managed).get e.1).getD [])).fetch e.2.c limit =
        some r' := hr'
    rw [hsame] at hr''
    rw [← Option.some.inj hr'']
    exact hs q hq
  · rw [hc, Option.bind_some, hfetch, Option.map_some]

/-- A global search, called again and again with the cursor that it gives, delivers each hit once, in
the global order; over several indexers it delivers what one indexer delivers of all vaults. -/
theorem global_order :
    Paging.Delivers (handlePage host key vaults searchMaxVaults ownerOf managed)
        (BackendClear host key vaults searchMaxVaults ownerOf managed) (allHits vaults managed) ∧
      Paging.Delivers (searchPage host key vaults searchMaxVaults managed) (IndexerClear host key vaults managed)
        (allHits vaults managed) ∧
      (allHits vaults managed).Pairwise (· < ·) ∧
      ∀ x, x ∈ allHits vaults managed ↔ ∃ v ∈ managed, x ∈ hitsOf v (vaults.results v) := by
  refine ⟨?_, ?_, allHits_sorted host key, fun x => mem_allHits⟩
  · have hrest := @backend_rest host key vaults ownerOf managed
    rw [← hrest]
    exact Paging.delivers fun _ _ _ hclear hstep => backend_step hclear hstep
  · have hrest := @indexer_rest host key vaults managed
    rw [← hrest]
    exact Paging.delivers fun _ _ _ hclear hstep => indexer_step hclear hstep

def twoVaults : Vaults where
  results
    | ['a'] => [⟨"1".toList, 7⟩, ⟨"2".toList, 6⟩]
    | ['b'] => [⟨"1".toList, 9⟩, ⟨"2".toList, 8⟩, ⟨"3".toList, 2⟩]
    | _ => []
  sorted vaultId := by
    split <;> decide +kernel

/-- Calls with the limits 3, 1 and 3: the second goes back in the page of `b`. -/
def twice : State Hit Text where
  cursor := none
  delivered := [⟨"b".toList, "1".toList, 9⟩, ⟨"b".toList, "2".toList, 8⟩, ⟨"a".toList, "1".toList, 7⟩,
    ⟨"b".toList, "2".toList, 8⟩, ⟨"a".toList, "2".toList, 6⟩, ⟨"b".toList, "3".toList, 2⟩]

theorem hit_delivered_twice : ¬ ∀ (host : PageHost) (key : Text) (vaults : Vaults) (searchMaxVaults : ℕ) (ownerOf : Text → Text)
    (managed : List Text), Paging.Delivers (handlePage host key vaults searchMaxVaults ownerOf managed)
      (fun _ limit => 1 ≤ limit) (allHits vaults managed) := by
  intro h
  have hall := h Query.plainPageHost "q".toList twoVaults 1000 (fun _ => "i".toList) ["a".toList, "b".toList]
  have hrun : Run (Paging.step (handlePage Query.plainPageHost "q".toList twoVaults 1000 (fun _ => "i".toList)
      ["a".toList, "b".toList])) (fun _ limit => 1 ≤ limit) start twice :=
    Transition.run_of_exec [3, 1, 3] _ _ (by decide +kernel)
  have hsorted := @allHits_sorted twoVaults ["a".toList, "b".toList] Query.plainPageHost "q".toList
  rw [← hall.whole twice hrun rfl] at hsorted
  exact absurd (hsorted.imp ne_of_lt) (by decide +kernel)

end Savoire.GlobalSearch
