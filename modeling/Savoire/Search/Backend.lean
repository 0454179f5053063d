import Savoire.Search.Instance

/-! The global search of the backend: each indexer searches the vaults that it owns, and their pages
are merged again. -/
namespace Savoire.GlobalSearch
open PagedMerge (Form)
open Paging (Source)
open Query (PageHost)

/-- `string.CompareOrdinal`, its sign. -/
def compareOrdinal (a b : Text) : ℤ :=
  if a.flatMap Utf.utf16 < b.flatMap Utf.utf16 then -1
  else if b.flatMap Utf.utf16 < a.flatMap Utf.utf16 then 1
  else 0

namespace GlobalSearchMerge

def compare (a b : Hit) : ℤ :=
  let byScore := if b.score < a.score then -1 else if a.score < b.score then 1 else 0
  if byScore ≠ 0 then byScore
  else
    let byVault := compareOrdinal a.vaultId b.vaultId
    if byVault ≠ 0 then byVault else compareOrdinal a.id b.id

def merge (pages : List (PagedMerge.Page Text Text Hit)) (limit : ℕ) : List Hit × Parts :=
  PagedMerge.merge (fun a b => decide (compare a b < 0)) pages limit

end GlobalSearchMerge

theorem compareOrdinal_lt_iff {a b : Text} : compareOrdinal a b < 0 ↔ a.flatMap Utf.utf16 < b.flatMap Utf.utf16 := by
  unfold compareOrdinal
  split
  · simp [*]
  · split <;> simp [*]

theorem compareOrdinal_eq_zero {a b : Text} (h : compareOrdinal a b = 0) : a = b := by
  unfold compareOrdinal at h
  split at h
  · cases h
  · rename_i hab
    split at h
    · cases h
    · rename_i hba
      exact Utf.eq_of_utf16_not_lt hab hba

theorem GlobalSearchMerge.compare_lt_iff {a b : Hit} (h : a.vaultId ≠ b.vaultId) :
    GlobalSearchMerge.compare a b < 0 ↔ a < b := by
  have hvault : compareOrdinal a.vaultId b.vaultId ≠ 0 := fun hzero => h (compareOrdinal_eq_zero hzero)
  rw [Hit.lt_iff, GlobalSearchMerge.compare]
  obtain hlt | heq | hgt := lt_trichotomy a.score b.score
  · simp [hlt, hlt.ne, not_lt_of_gt hlt]
  · simp [heq, hvault, h, compareOrdinal_lt_iff]
  · simp [hgt]

inductive PeerReply
  | answered (a : Answer)
  | refused
  | failed

def PeerReply.answer : PeerReply → Option Answer
  | .answered a => some a
  | _ => none

def PeerReply.isRefused : PeerReply → Bool
  | .refused => true
  | _ => false

def PeerReply.isFailed : PeerReply → Bool
  | .failed => true
  | _ => false

/-- The vaults of each indexer, in their order. -/
def groupsOf (ownerOf : Text → Text) (managed : List Text) : KeyedMap Text (List Text) :=
  managed.foldl (fun groups id => groups.set (ownerOf id) ((groups.get (ownerOf id)).getD [] ++ [id])) KeyedMap.empty

/-- By their names, ordinal. -/
def byName (groups : List (Text × List Text)) : List (Text × List Text) :=
  groups.insertionSort fun a b => a.1.flatMap Utf.utf16 ≤ b.1.flatMap Utf.utf16

/-- The indexers that have a part of the search. -/
def active (groups : KeyedMap Text (List Text)) (parts : Parts) : List ((Text × List Text) × PagedMerge.Part Text) :=
  (byName (groups.entries.filter fun g => parts.has g.1)).filterMap fun g => (parts.get g.1).map (g, ·)

def GlobalSearchCursor.start (instances : List Text) : Parts :=
  KeyedMap.ofList id (fun _ => ⟨none, 0⟩) instances

section
variable (host : PageHost)

def stateOf (groups : KeyedMap Text (List Text)) : Option Text → Option (Parts × Bool)
  | none => some (GlobalSearchCursor.start (groups.entries.map Prod.fst), false)
  | some cursor => GlobalSearchCursor.decode host cursor

/-- `SearchAllVaultsQueryHandler`; `managed` are the vaults asked for, once each. -/
def handle (ownerOf : Text → Text) (peer : Text → List Text → Option Text → ℕ → PeerReply) (managed : List Text)
    (cursor : Option Text) (limit : ℕ) : Except SearchError Answer :=
  if limit < 1 ∨ maxLimit < limit then .error .invalidQuery
  else
    let groups := groupsOf ownerOf managed
    match stateOf host groups cursor with
    | none => .error .invalidCursor
    | some (parts, isPartial) =>
      let active := active groups parts
      if active = [] then .ok ⟨[], 0, none, isPartial⟩
      else
        let responses := active.map fun g => (g, peer g.1.1 g.1.2 g.2.c limit)
        if responses.any fun r => r.2.isRefused then .error .refused
        else
          let isPartial := isPartial || responses.any fun r => r.2.isFailed
          let ok := responses.filterMap fun r => r.2.answer.map (r.1, ·)
          if ok = [] then .error .unavailable
          else
            let merged := GlobalSearchMerge.merge (ok.map fun x => ⟨x.1.1.1, x.1.2, x.2.hits, x.2.next⟩) limit
            .ok {
              hits := merged.1
              total := (ok.map fun x => x.2.total).sum
              next := if merged.2.entries = [] then none
                else some (GlobalSearchCursor.encode host merged.2 isPartial)
              isPartial := isPartial }

variable {ownerOf : Text → Text} {managed : List Text} {n v : Text}

theorem groupsOf_concat (managed : List Text) (id : Text) : groupsOf ownerOf (managed ++ [id]) =
    (groupsOf ownerOf managed).set (ownerOf id) (((groupsOf ownerOf managed).get (ownerOf id)).getD [] ++ [id]) := by
  rw [groupsOf, List.foldl_append]
  rfl

theorem mem_groupsOf : v ∈ ((groupsOf ownerOf managed).get n).getD [] ↔ v ∈ managed ∧ ownerOf v = n := by
  induction managed using List.reverseRecOn with
  | nil => simp [groupsOf]
  | append_singleton managed id ih =>
    rw [groupsOf_concat, KeyedMap.get_set, List.mem_append, List.mem_singleton]
    by_cases hn : n = ownerOf id
    · subst hn
      rw [if_pos rfl, Option.getD_some, List.mem_append, List.mem_singleton, ih]
      constructor
      · rintro (⟨hv, hown⟩ | rfl)
        · exact ⟨.inl hv, hown⟩
        · exact ⟨.inr rfl, rfl⟩
      · rintro ⟨hv | rfl, hown⟩
        · exact .inl ⟨hv, hown⟩
        · exact .inr rfl
    · rw [if_neg hn, ih]
      constructor
      · exact fun h => ⟨.inl h.1, h.2⟩
      · rintro ⟨hv | rfl, hown⟩
        · exact ⟨hv, hown⟩
        · exact absurd hown.symm hn

theorem owner_mem_groupsOf (h : v ∈ managed) : ownerOf v ∈ (groupsOf ownerOf managed).entries.map Prod.fst := by
  have hmem : v ∈ ((groupsOf ownerOf managed).get (ownerOf v)).getD [] := mem_groupsOf.2 ⟨h, rfl⟩
  rw [KeyedMap.mem_keys]
  intro hnone
  rw [hnone] at hmem
  cases hmem

theorem byName_perm (groups : List (Text × List Text)) : (byName groups).Perm groups := List.perm_insertionSort _ _

/-- The parts that are asked, by the names of their indexers. -/
def activeParts (groups : KeyedMap Text (List Text)) (parts : Parts) : List (Text × PagedMerge.Part Text) :=
  (active groups parts).map fun g => (g.1.1, g.2)

variable {groups : KeyedMap Text (List Text)} {parts : Parts}

theorem of_mem_active {g : (Text × List Text) × PagedMerge.Part Text} (h : g ∈ active groups parts) :
    groups.get g.1.1 = some g.1.2 ∧ parts.get g.1.1 = some g.2 := by
  obtain ⟨e, he, hg⟩ := List.mem_filterMap.1 h
  obtain ⟨p, hp, rfl⟩ := Option.map_eq_some_iff.1 hg
  exact ⟨KeyedMap.mem_iff.1 (List.mem_of_mem_filter ((byName_perm _).subset he)), hp⟩

theorem activeParts_nodup : ((activeParts groups parts).map Prod.fst).Nodup := by
  have hsub : ((activeParts groups parts).map Prod.fst).Sublist
      ((byName (groups.entries.filter fun g => parts.has g.1)).map Prod.fst) := by
    rw [activeParts, List.map_map, active]
    induction byName (groups.entries.filter fun g => parts.has g.1) with
    | nil => exact List.Sublist.refl _
    | cons g rest ih =>
      cases hp : parts.get g.1 with
      | none => simpa [hp] using ih.cons g.1
      | some p => simpa [hp] using ih
  exact (((byName_perm _).map Prod.fst).nodup_iff.2 (groups.nodup.sublist (List.filter_sublist.map Prod.fst))).sublist hsub

theorem mem_activeParts {e : Text × PagedMerge.Part Text} :
    e ∈ activeParts groups parts ↔ groups.get e.1 ≠ none ∧ parts.get e.1 = some e.2 := by
  rw [activeParts, List.mem_map]
  constructor
  · rintro ⟨g, hg, rfl⟩
    obtain ⟨hgroup, hpart⟩ := of_mem_active hg
    exact ⟨by simp [hgroup], hpart⟩
  · rintro ⟨hgroup, hpart⟩
    obtain ⟨ids, hids⟩ := Option.ne_none_iff_exists'.1 hgroup
    refine ⟨((e.1, ids), e.2), List.mem_filterMap.2 ⟨(e.1, ids), ?_, by simp [hpart]⟩, rfl⟩
    refine (byName_perm _).symm.subset (List.mem_filter.2 ⟨KeyedMap.mem_iff.2 hids, ?_⟩)
    exact KeyedMap.has_iff.2 ⟨e.2, hpart⟩

theorem get_start (instances : List Text) : (GlobalSearchCursor.start instances).get n =
    if n ∈ instances then some ⟨none, 0⟩ else none := by
  split
  · rename_i hn
    obtain ⟨d, -, hd, hget⟩ := KeyedMap.exists_get_ofList (β := PagedMerge.Part Text) id (fun _ => ⟨none, 0⟩) hn
    exact hget
  · rename_i hn
    by_contra hne
    obtain ⟨p, hp⟩ := Option.ne_none_iff_exists'.1 hne
    obtain ⟨c, hc, rfl, -⟩ := KeyedMap.of_get_ofList hp
    exact hn hc

theorem activeParts_start : activeParts groups (GlobalSearchCursor.start (groups.entries.map Prod.fst)) =
    ((byName groups.entries).map Prod.fst).map fun n => (n, ⟨none, 0⟩) := by
  have hget : ∀ g ∈ groups.entries, (GlobalSearchCursor.start (groups.entries.map Prod.fst)).get g.1 = some ⟨none, 0⟩ :=
    fun g hg => by rw [get_start, if_pos (List.mem_map_of_mem hg)]
  have hall : (groups.entries.filter fun g => (GlobalSearchCursor.start (groups.entries.map Prod.fst)).has g.1) =
      groups.entries :=
    List.filter_eq_self.2 fun g hg => KeyedMap.has_iff.2 ⟨_, hget g hg⟩
  have hmap : (byName groups.entries).filterMap
      (fun g => ((GlobalSearchCursor.start (groups.entries.map Prod.fst)).get g.1).map (g, ·)) =
      (byName groups.entries).map fun g => (g, ⟨none, 0⟩) := by
    refine Eq.trans (List.filterMap_congr fun g hg => ?_)
      (congrFun (List.filterMap_eq_map (f := fun g : Text × List Text => (g, (⟨none, 0⟩ : PagedMerge.Part Text)))) _)
    rw [hget g ((byName_perm _).subset hg)]
    rfl
  rw [activeParts, active, hall, hmap, List.map_map, List.map_map]
  rfl

def backendForm (groups : KeyedMap Text (List Text)) : Form Text Text Text where
  names := (byName groups.entries).map Prod.fst
  parts c := (stateOf host groups c).map fun s => activeParts groups s.1
  write c m := GlobalSearchCursor.encode host m ((stateOf host groups c).elim false Prod.snd)
  parts_none := congrArg some activeParts_start
  parts_write c m hm := by
    refine ⟨activeParts groups m, ?_, ?_⟩
    · rw [stateOf, GlobalSearchCursor.decode_encode, Option.map_some]
    · refine (List.perm_ext_iff_of_nodup (activeParts_nodup.of_map _) (m.nodup.of_map _)).2 fun e => ?_
      rw [mem_activeParts, ← KeyedMap.mem_keys]
      constructor
      · exact fun h => KeyedMap.mem_iff.2 h.2
      · intro he
        obtain ⟨g, hg, hname⟩ := List.mem_map.1 (hm e he)
        rw [← hname]
        exact ⟨List.mem_map_of_mem ((byName_perm _).subset hg), by rw [hname]; exact KeyedMap.mem_iff.1 he⟩
  nodup c l h := by
    obtain ⟨st, -, rfl⟩ := Option.map_eq_some_iff.1 h
    exact activeParts_nodup
  known c l h e he := by
    obtain ⟨st, -, rfl⟩ := Option.map_eq_some_iff.1 h
    obtain ⟨ids, hids⟩ := Option.ne_none_iff_exists'.1 (mem_activeParts.1 he).1
    exact List.mem_map.2 ⟨(e.1, ids), (byName_perm _).symm.subset (KeyedMap.mem_iff.2 hids), rfl⟩

end
end Savoire.GlobalSearch
