import Savoire.Index.Resolution
import Savoire.Links.Target

/-! The resolver of the plugins against the resolution that the index writes in SQL: when a wiki
link of a vault without aliases leads both of them to the same file. -/
namespace Savoire.Links
open VaultIndex Pick
open StableSort (Before)

section Definitions
variable (host : Host)

/-- The row of a file in an index of these paths, numbered by its place. -/
def rowOf (paths : List Text) (path : Text) : DocRow :=
  ⟨paths.idxOf path + 1, path, none, path, extOf host.lower path, pathColumns host.lower path⟩

def wikiRow (raw : Text) (k : LinkKeys) : LinkRow := ⟨0, 0, raw, .wiki, k.t, k.rel, k.n, none⟩

/-- The file that the index finds for a wiki link of the note `source`. -/
def indexTarget (paths : List Text) (raw source : Text) : Option Text :=
  (linkKeys host.lower raw .wiki source).bind fun k =>
    (resolve (paths.map (rowOf host paths)) [] (wikiRow raw k)).bind fun n =>
      paths.find? fun p => (rowOf host paths p).n == n

def Finds (paths : List Text) (raw p : Text) : Prop :=
  let t := cleanTarget raw
  t ≠ [] ∧ if t ∈ paths then t = p else fits host paths (host.lower.apply t) p = true

/-- The condition of the first step of `resolveWhere` that some row meets. -/
def stepOf (docs : List DocRow) (l : LinkRow) : DocRow → Bool :=
  if docs.any (matchesRelative l) then matchesRelative l
  else if docs.any (matchesPath l) then matchesPath l
  else matchesSuffix l

/-- The files that the index finds for a wiki link of the note `source`. -/
def IndexFinds (paths : List Text) (raw source p : Text) : Prop :=
  match linkKeys host.lower raw .wiki source with
  | none => False
  | some k =>
    stepOf (paths.map (rowOf host paths)) (wikiRow raw k) (rowOf host paths p) = true

/-- Neither finds a file, or one file that both find comes first in the order of either. -/
def SameChoice (paths : List Text) (raw source : Text) : Prop :=
  (∀ p ∈ paths, ¬ Finds host paths raw p ∧ ¬ IndexFinds host paths raw source p) ∨
  ∃ p ∈ paths, Finds host paths raw p ∧ IndexFinds host paths raw source p ∧
    (∀ q ∈ paths, Finds host paths raw q → ¬ Before (compareFiles host) paths q p) ∧
    ∀ q ∈ paths, IndexFinds host paths raw source q →
      bestRank (rowOf host paths p) ≤ bestRank (rowOf host paths q)

instance (paths : List Text) (raw p : Text) : Decidable (Finds host paths raw p) :=
  inferInstanceAs (Decidable (_ ∧ ite _ _ _))

instance (paths : List Text) (raw source p : Text) : Decidable (IndexFinds host paths raw source p) := by
  unfold IndexFinds
  split <;> infer_instance

instance (paths : List Text) (raw source : Text) : Decidable (SameChoice host paths raw source) :=
  inferInstanceAs (Decidable (_ ∨ _))

end Definitions

variable {host : Host} {paths : List Text} {p q raw source : Text}

theorem resolveLinkPath_iff_finds (hn : paths.Nodup) :
    resolveLinkPath host raw paths = some p ↔
      p ∈ paths ∧ Finds host paths raw p ∧
        ∀ q ∈ paths, Finds host paths raw q → ¬ Before (compareFiles host) paths q p := by
  rw [resolveLinkPath_iff hn]
  by_cases hnil : cleanTarget raw = []
  · simp [Finds, hnil]
  by_cases hmem : cleanTarget raw ∈ paths
  · simp only [Finds, hnil, hmem, ne_eq, not_false_eq_true, true_and, ↓reduceIte]
    constructor
    · rintro rfl
      refine ⟨hmem, rfl, ?_⟩
      rintro q - rfl
      exact not_before_self hn _
    · exact fun h => h.2.1
  · simp [Finds, First, hnil, hmem]

theorem resolveLinkPath_eq_none (hn : paths.Nodup) :
    resolveLinkPath host raw paths = none ↔ ∀ p ∈ paths, ¬ Finds host paths raw p := by
  rw [resolveLinkPath_eq hn]
  by_cases hnil : cleanTarget raw = []
  · simp [Finds, hnil]
  by_cases hmem : cleanTarget raw ∈ paths
  · simp [Finds, hnil, hmem]
  · simp [Finds, hnil, hmem, best, StableSort.sort_eq_nil]

theorem matchesAlias_nil (l : LinkRow) (d : DocRow) : matchesAlias [] l d = false := by
  simp [matchesAlias]

theorem resolve_eq_pick (docs : List DocRow) (l : LinkRow) :
    resolve docs [] l = pick bestRank (·.n) (stepOf docs l) docs := by
  have hnone : ∀ f : DocRow → Bool, docs.any f = false → pick bestRank (·.n) f docs = none :=
    fun f h => pick_eq_none.2 (by simpa using h)
  have hsome : ∀ f : DocRow → Bool, docs.any f = true → ∃ n, pick bestRank (·.n) f docs = some n := by
    intro f h
    by_contra hall
    have hpick : pick bestRank (·.n) f docs = none := by
      cases hc : pick bestRank (·.n) f docs with
      | none => rfl
      | some n => exact absurd ⟨n, hc⟩ hall
    obtain ⟨d, hd, hf⟩ := List.any_eq_true.1 h
    simp [pick_eq_none.1 hpick d hd] at hf
  have halias : pick aliasRank (·.n) (matchesAlias [] l) docs = none :=
    pick_eq_none.2 fun d _ => matchesAlias_nil l d
  unfold resolve stepOf
  by_cases hrel : docs.any (matchesRelative l) = true
  · obtain ⟨n, hpick⟩ := hsome _ hrel
    simp [hrel, hpick, firstOf]
  · have hrel' : docs.any (matchesRelative l) = false := by simpa using hrel
    by_cases hpath : docs.any (matchesPath l) = true
    · obtain ⟨n, hpick⟩ := hsome _ hpath
      simp [hrel', hpath, hpick, hnone _ hrel', firstOf]
    · have hpath' : docs.any (matchesPath l) = false := by simpa using hpath
      simp [hrel', hpath', hnone _ hrel', hnone _ hpath', halias, firstOf]

theorem find_numbered (hp : p ∈ paths) :
    (paths.find? fun q => (rowOf host paths q).n == (rowOf host paths p).n) = some p := by
  cases h : paths.find? fun q => (rowOf host paths q).n == (rowOf host paths p).n with
  | none => simpa using List.find?_eq_none.1 h p hp
  | some q =>
    have hnum : paths.idxOf q = paths.idxOf p := by simpa [rowOf] using List.find?_some h
    rw [List.idxOf_inj (List.mem_of_find?_eq_some h)] at hnum
    rw [hnum]

theorem indexTarget_iff :
    indexTarget host paths raw source = some p ↔
      p ∈ paths ∧ IndexFinds host paths raw source p ∧
        ∀ q ∈ paths, IndexFinds host paths raw source q →
          bestRank (rowOf host paths p) ≤ bestRank (rowOf host paths q) := by
  unfold indexTarget IndexFinds
  cases linkKeys host.lower raw .wiki source with
  | none => simp
  | some k =>
    simp only [Option.bind_some, resolve_eq_pick]
    constructor
    · intro h
      obtain ⟨n, hpick, hfind⟩ := Option.bind_eq_some_iff.1 h
      obtain ⟨d, hd, hstep, rfl, hmin⟩ := of_pick hpick
      obtain ⟨r, hr, rfl⟩ := List.mem_map.1 hd
      obtain rfl : r = p := Option.some.inj ((find_numbered hr).symm.trans hfind)
      exact ⟨hr, hstep, fun q hq => hmin _ (List.mem_map_of_mem hq)⟩
    · rintro ⟨hp, hstep, hmin⟩
      have hmin' : ∀ d ∈ paths.map (rowOf host paths),
          stepOf (paths.map (rowOf host paths)) (wikiRow raw k) d = true →
            bestRank (rowOf host paths p) ≤ bestRank d := by
        intro d hd hs
        obtain ⟨q, hq, rfl⟩ := List.mem_map.1 hd
        exact hmin q hq hs
      rw [pick_of_least bestRank_n (List.mem_map_of_mem hp) hstep hmin', Option.bind_some,
        find_numbered hp]

theorem indexTarget_eq_none :
    indexTarget host paths raw source = none ↔ ∀ p ∈ paths, ¬ IndexFinds host paths raw source p := by
  unfold indexTarget IndexFinds
  cases linkKeys host.lower raw .wiki source with
  | none => simp
  | some k =>
    simp only [Option.bind_some, resolve_eq_pick]
    constructor
    · intro h p hp hstep
      cases hpick : pick bestRank (·.n) (stepOf (paths.map (rowOf host paths)) (wikiRow raw k))
          (paths.map (rowOf host paths)) with
      | none =>
        have hfalse := pick_eq_none.1 hpick _ (List.mem_map_of_mem hp)
        simp [hfalse] at hstep
      | some n =>
        obtain ⟨d, hd, -, rfl, -⟩ := of_pick hpick
        obtain ⟨r, hr, rfl⟩ := List.mem_map.1 hd
        rw [hpick, Option.bind_some, find_numbered hr] at h
        cases h
    · intro h
      have hnone : pick bestRank (·.n) (stepOf (paths.map (rowOf host paths)) (wikiRow raw k))
          (paths.map (rowOf host paths)) = none := by
        refine pick_eq_none.2 fun d hd => ?_
        obtain ⟨q, hq, rfl⟩ := List.mem_map.1 hd
        exact Bool.eq_false_iff.2 (h q hq)
      rw [hnone, Option.bind_none]

end Savoire.Links
