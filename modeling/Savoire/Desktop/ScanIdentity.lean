import Savoire.Desktop.FolderScan
import Savoire.Library.Transition

/-! What a scan does to the ids: every visible file has one, no two share one, known paths keep
theirs and renamed files take the one that vanished, as long as no file takes the id of a vanished
document by the hash of its path. -/
namespace Savoire.FolderVault
variable {ι : Type*}

variable {id : ι} {path : Text}

theorem mem_of_idAt {pairs : List (ι × Text)} (h : idAt pairs path = some id) :
    (id, path) ∈ pairs := by
  obtain ⟨⟨k, p⟩, hfind, rfl⟩ := Option.map_eq_some_iff.mp h
  have hmem := List.mem_of_find?_eq_some hfind
  have hpath : p = path := by simpa using List.find?_some hfind
  rw [hpath] at hmem
  exact List.mem_reverse.mp hmem

theorem exists_idAt {pairs : List (ι × Text)} (h : (id, path) ∈ pairs) :
    ∃ id', idAt pairs path = some id' := by
  have hsome : ((pairs.reverse.find? fun e => e.2 == path).map Prod.fst).isSome := by
    rw [Option.isSome_map, List.find?_isSome]
    exact ⟨(id, path), List.mem_reverse.mpr h, beq_self_eq_true path⟩
  exact Option.isSome_iff_exists.mp hsome

variable [DecidableEq ι]

structure Indexed (s : Session ι) : Prop where
  paths : ∀ id id' e e', s.ids.get id = some e → s.ids.get id' = some e' → e.path = e'.path → id = id'
  directory : ∀ id path, s.directory.get id = some path → ∃ e, s.ids.get id = some e ∧ e.path = path

variable {s : Session ι}

theorem mem_pairs : (id, path) ∈ s.ids.entries.map (fun e => (e.1, e.2.path)) ↔
    ∃ e, s.ids.get id = some e ∧ e.path = path := by
  rw [List.mem_map]
  constructor
  · rintro ⟨⟨k, e⟩, hmem, heq⟩
    obtain ⟨rfl, rfl⟩ := Prod.mk.inj heq
    exact ⟨e, KeyedMap.mem_iff.mp hmem, rfl⟩
  · rintro ⟨e, he, rfl⟩
    exact ⟨(id, e), KeyedMap.mem_iff.mpr he, rfl⟩

theorem knownId_iff (h : Indexed s) :
    knownId s.ids s.directory path = some id ↔ ∃ e, s.ids.get id = some e ∧ e.path = path := by
  rw [knownId, Option.or_eq_some_iff]
  constructor
  · rintro (hid | ⟨-, hid⟩)
    · exact mem_pairs.mp (mem_of_idAt hid)
    · exact h.directory id path (KeyedMap.mem_iff.mp (mem_of_idAt hid))
  · rintro ⟨e, he, rfl⟩
    obtain ⟨id', hid'⟩ := exists_idAt (mem_pairs.mpr ⟨e, he, rfl⟩)
    obtain ⟨e', he', hpath⟩ := mem_pairs.mp (mem_of_idAt hid')
    rw [h.paths id id' e e' he he' hpath.symm]
    exact .inl hid'

theorem known_inj {p q : Text} (h : Indexed s) (hp : knownId s.ids s.directory p = some id)
    (hq : knownId s.ids s.directory q = some id) : p = q := by
  obtain ⟨e, he, rfl⟩ := (knownId_iff h).mp hp
  obtain ⟨e', he', rfl⟩ := (knownId_iff h).mp hq
  rw [Option.some.inj (he.symm.trans he')]

/-- After the paths `done`: those that are known have their id, the others are left. -/
structure FirstPass (known : Text → Option ι) (done : List Text) (acc : KeyedMap ι Text × List Text) : Prop where
  assigned : ∀ id p, acc.1.get id = some p ↔ p ∈ done ∧ known p = some id
  unassigned : ∀ p, p ∈ acc.2 ↔ p ∈ done ∧ known p = none
  nodup : acc.2.Nodup

theorem FirstPass.known {known : Text → Option ι} {done : List Text} {assigned : KeyedMap ι Text}
    {unassigned : List Text} (h : FirstPass known done (assigned, unassigned))
    (hinj : ∀ p q id, known p = some id → known q = some id → p = q) (hpath : path ∉ done)
    (hid : known path = some id) :
    assigned.get id = none ∧ FirstPass known (done ++ [path]) (assigned.set id path, unassigned) := by
  have hnew : assigned.get id = none := by
    rw [Option.eq_none_iff_forall_ne_some]
    intro p hp
    obtain ⟨hdone, hp⟩ := (h.assigned id p).mp hp
    exact hpath (hinj p path id hp hid ▸ hdone)
  refine ⟨hnew, ?_, ?_, h.nodup⟩
  · intro k p
    rw [KeyedMap.get_set]
    split
    · rename_i hk
      subst hk
      constructor
      · rintro hp
        obtain rfl := Option.some.inj hp
        exact ⟨by simp, hid⟩
      · rintro ⟨-, hp⟩
        rw [hinj p path k hp hid]
    · rename_i hk
      rw [h.assigned k p, List.mem_append, List.mem_singleton]
      constructor
      · rintro ⟨hdone, hp⟩
        exact ⟨.inl hdone, hp⟩
      · rintro ⟨hdone | rfl, hp⟩
        · exact ⟨hdone, hp⟩
        · exact absurd (Option.some.inj (hp.symm.trans hid)) hk
  · intro p
    rw [h.unassigned p, List.mem_append, List.mem_singleton]
    constructor
    · rintro ⟨hdone, hp⟩
      exact ⟨.inl hdone, hp⟩
    · rintro ⟨hdone | rfl, hp⟩
      · exact ⟨hdone, hp⟩
      · rw [hid] at hp
        cases hp

theorem FirstPass.unknown {known : Text → Option ι} {done : List Text} {assigned : KeyedMap ι Text}
    {unassigned : List Text} (h : FirstPass known done (assigned, unassigned)) (hpath : path ∉ done)
    (hnone : known path = none) : FirstPass known (done ++ [path]) (assigned, unassigned ++ [path]) where
  assigned := by
    intro id p
    rw [h.assigned id p, List.mem_append, List.mem_singleton]
    constructor
    · rintro ⟨hdone, hp⟩
      exact ⟨.inl hdone, hp⟩
    · rintro ⟨hdone | rfl, hp⟩
      · exact ⟨hdone, hp⟩
      · rw [hnone] at hp
        cases hp
  unassigned := by
    intro p
    rw [List.mem_append, List.mem_append, List.mem_singleton, h.unassigned p]
    constructor
    · rintro (⟨hdone, hp⟩ | rfl)
      · exact ⟨.inl hdone, hp⟩
      · exact ⟨.inr rfl, hnone⟩
    · rintro ⟨hdone | hp, hp'⟩
      · exact .inl ⟨hdone, hp'⟩
      · exact .inr hp
  nodup := by
    refine List.nodup_append.mpr ⟨h.nodup, List.pairwise_singleton _ path, ?_⟩
    rintro a ha b hb rfl
    obtain rfl := List.mem_singleton.mp hb
    exact hpath ((h.unassigned a).mp ha).1

theorem assignKnown_spec {known : Text → Option ι}
    (hinj : ∀ p q id, known p = some id → known q = some id → p = q) (rest : List Text) {done : List Text}
    {acc : KeyedMap ι Text × List Text} (hnodup : (done ++ rest).Nodup) (h : FirstPass known done acc) :
    FirstPass known (done ++ rest) (assignKnown known rest acc) := by
  induction rest generalizing done acc with
  | nil =>
    rw [List.append_nil]
    exact h
  | cons path rest ih =>
    obtain ⟨assigned, unassigned⟩ := acc
    have hpath : path ∉ done := fun hmem => (List.nodup_append.mp hnodup).2.2 path hmem path List.mem_cons_self rfl
    rw [List.append_cons] at hnodup ⊢
    rw [assignKnown]
    cases hid : known path with
    | none => exact ih hnodup (h.unknown hpath hid)
    | some id =>
      obtain ⟨hnew, hnext⟩ := h.known hinj hpath hid
      have hhas : assigned.has id = false := by
        rw [KeyedMap.has, hnew]
        rfl
      dsimp only
      rw [hhas]
      exact ih hnodup hnext

theorem mem_visible {folder : Folder} :
    path ∈ (present folder).entries.map Prod.fst ↔ (present folder).get path ≠ none := KeyedMap.mem_keys

theorem firstPass_spec (h : Indexed s) (folder : Folder) :
    FirstPass (knownId s.ids s.directory) ((present folder).entries.map Prod.fst) (firstPass folder s) := by
  have hstart : FirstPass (knownId s.ids s.directory) [] ((.empty, []) : KeyedMap ι Text × List Text) :=
    ⟨by simp, by simp, List.nodup_nil⟩
  have hpass := assignKnown_spec (fun p q id => known_inj h) ((present folder).entries.map Prod.fst)
    (by simpa using (present folder).nodup) hstart
  refine ⟨hpass.assigned, ?_, ?_⟩
  · intro p
    rw [firstPass, Query.mem_sortTexts]
    exact hpass.unassigned p
  · exact (Query.sortTexts_perm _).nodup_iff.mpr hpass.nodup

theorem foldl_fixed {α β : Type*} {f : β → α → β} {b : β} (l : List α) (h : ∀ a ∈ l, f b a = b) : l.foldl f b = b := by
  induction l with
  | nil => rfl
  | cons a l ih =>
    rw [List.foldl_cons, h a List.mem_cons_self]
    exact ih fun a' ha' => h a' (List.mem_cons_of_mem a ha')

theorem get_candidates (h : Indexed s) (folder : Folder) (id : ι) (e : DocumentIdEntry) :
    (candidates folder s).get id = some e ↔ s.ids.get id = some e ∧ (present folder).get e.path = none := by
  have hpass := firstPass_spec h folder
  have hfilter : ∀ k entry,
      (s.ids.filter fun e => !(firstPass folder s).1.has e.1 && !(present folder).has e.2.path).get k = some entry ↔
        s.ids.get k = some entry ∧ (present folder).get entry.path = none := by
    intro k entry
    rw [KeyedMap.get_filter]
    simp only [KeyedMap.has, Bool.and_eq_true, Bool.not_eq_true', Option.isSome_eq_false_iff, Option.isNone_iff_eq_none]
    constructor
    · rintro ⟨hk, -, hgone⟩
      exact ⟨hk, hgone⟩
    · rintro ⟨hk, hgone⟩
      refine ⟨hk, ?_, hgone⟩
      rw [Option.eq_none_iff_forall_ne_some]
      intro p hp
      obtain ⟨hvisible, hknown⟩ := (hpass.assigned k p).mp hp
      obtain ⟨entry', hk', rfl⟩ := (knownId_iff h).mp hknown
      obtain rfl := Option.some.inj (hk.symm.trans hk')
      exact mem_visible.mp hvisible hgone
  rw [candidates, vanished, foldl_fixed]
  · exact hfilter id e
  · rintro ⟨k, path⟩ hd
    obtain ⟨entry, hk, rfl⟩ := h.directory k path (KeyedMap.mem_iff.mp hd)
    cases hgone : (present folder).get entry.path with
    | some stat => simp [KeyedMap.has, hgone]
    | none =>
      have hthere := (hfilter k entry).mpr ⟨hk, hgone⟩
      rw [KeyedMap.has, KeyedMap.has, hthere]
      simp

section
variable (host : Host ι) (folder : Folder)

def renames : List Text → KeyedMap ι DocumentIdEntry → List (ι × Text)
  | [], _ => []
  | path :: rest, candidates => match matched host folder path candidates with
    | some id => (id, path) :: renames rest (candidates.delete id)
    | none => renames rest candidates

/-- A file that is recognised as no renamed one takes the id of a vanished document, because it was
that of its path. -/
def reuses : List Text → KeyedMap ι DocumentIdEntry → Bool
  | [], _ => false
  | path :: rest, candidates => match matched host folder path candidates with
    | some id => reuses rest (candidates.delete id)
    | none => candidates.has (host.discoveredDocumentId path) || reuses rest candidates

end

variable {host : Host ι} {folder : Folder} {uuid : Text → ι}

theorem mem_of_only {α : Type*} {l : List α} {a : α} (h : only l = some a) : a ∈ l := by
  match l, h with
  | [b], h =>
    obtain rfl := Option.some.inj h
    exact List.mem_singleton.mpr rfl

theorem matched_mem {candidates : KeyedMap ι DocumentIdEntry}
    (h : matched host folder path candidates = some id) : ∃ e, candidates.get id = some e := by
  have hfound : ∀ l : List (ι × DocumentIdEntry), l.Sublist candidates.entries → (only l).map Prod.fst = some id →
      ∃ e, candidates.get id = some e := by
    intro l hl honly
    obtain ⟨⟨k, e⟩, hc, rfl⟩ := Option.map_eq_some_iff.mp honly
    exact ⟨e, KeyedMap.mem_iff.mp (hl.subset (mem_of_only hc))⟩
  unfold matched at h
  split at h
  · cases h
  · unfold matchRename at h
    split at h
    · cases h
    · dsimp only at h
      split at h
      · exact hfound _ (List.filter_sublist.trans List.filter_sublist) h
      · split at h
        · refine hfound _ ?_ h
          exact List.filter_sublist.trans (List.filter_sublist.trans List.filter_sublist)
        · split at h
          · cases h
          · refine hfound _ ?_ h
            exact List.filter_sublist.trans (List.filter_sublist.trans List.filter_sublist)

/-- Before the paths `rest` get their ids. -/
structure Placing (uuid : Text → ι) (rest : List Text) (assigned : KeyedMap ι Text)
    (candidates : KeyedMap ι DocumentIdEntry) : Prop where
  waiting : ∀ id p, assigned.get id = some p → p ∉ rest
  inj : ∀ id id' p, assigned.get id = some p → assigned.get id' = some p → id = id'
  apart : ∀ id, candidates.get id ≠ none → assigned.get id = none
  free : ∀ p ∈ rest, assigned.get (uuid p) = none ∧ candidates.get (uuid p) = none

variable {left : KeyedMap ι DocumentIdEntry}

theorem Placing.next {rest : List Text} {assigned : KeyedMap ι Text}
    {candidates : KeyedMap ι DocumentIdEntry} (h : Placing uuid (path :: rest) assigned candidates)
    (hpath : path ∉ rest) (hnew : assigned.get id = none) (hgone : left.get id = none)
    (hsub : ∀ k, left.get k ≠ none → candidates.get k ≠ none) (huuid : ∀ p ∈ rest, uuid p ≠ id) :
    Placing uuid rest (assigned.set id path) left where
  waiting := by
    intro k p hk
    rw [KeyedMap.get_set] at hk
    split at hk
    · rw [← Option.some.inj hk]
      exact hpath
    · exact fun hmem => h.waiting k p hk (List.mem_cons_of_mem path hmem)
  inj := by
    intro k k' p hk hk'
    rw [KeyedMap.get_set] at hk hk'
    split at hk
    · rename_i heq
      obtain rfl := Option.some.inj hk
      split at hk'
      · rename_i heq'
        rw [heq, heq']
      · exact absurd List.mem_cons_self (h.waiting k' path hk')
    · split at hk'
      · obtain rfl := Option.some.inj hk'
        exact absurd List.mem_cons_self (h.waiting k path hk)
      · exact h.inj k k' p hk hk'
  apart := by
    intro k hk
    have hne : k ≠ id := by
      rintro rfl
      exact hk hgone
    rw [KeyedMap.get_set_ne hne]
    exact h.apart k (hsub k hk)
  free := by
    intro p hp
    obtain ⟨hfree, hnone⟩ := h.free p (List.mem_cons_of_mem path hp)
    refine ⟨?_, ?_⟩
    · rw [KeyedMap.get_set_ne (huuid p hp)]
      exact hfree
    · by_contra hsome
      exact hsub (uuid p) hsome hnone

/-- After the paths `rest` have their ids. -/
structure Placed (rest : List Text) (assigned : KeyedMap ι Text) (candidates : KeyedMap ι DocumentIdEntry)
    (files : KeyedMap ι Text) (left : KeyedMap ι DocumentIdEntry) : Prop where
  kept : ∀ id p, assigned.get id = some p → files.get id = some p
  every : ∀ p ∈ rest, ∃ id, files.get id = some p
  source : ∀ id p, files.get id = some p → assigned.get id = some p ∨ p ∈ rest
  inj : ∀ id id' p, files.get id = some p → files.get id' = some p → id = id'
  remaining : ∀ id, left.get id ≠ none → candidates.get id ≠ none ∧ files.get id = none
  gone : ∀ id, candidates.get id ≠ none → left.get id ≠ none ∨ files.get id ≠ none

theorem Placed.cons {rest : List Text} {assigned files : KeyedMap ι Text}
    {candidates next : KeyedMap ι DocumentIdEntry} (hnew : assigned.get id = none)
    (hsub : ∀ k, next.get k ≠ none → candidates.get k ≠ none)
    (hrest : ∀ k, candidates.get k ≠ none → next.get k ≠ none ∨ k = id)
    (h : Placed rest (assigned.set id path) next files left) :
    Placed (path :: rest) assigned candidates files left where
  kept := by
    intro k p hk
    have hne : k ≠ id := by
      rintro rfl
      rw [hnew] at hk
      cases hk
    exact h.kept k p (by rwa [KeyedMap.get_set_ne hne])
  every := by
    intro p hp
    obtain rfl | hp := List.mem_cons.mp hp
    · exact ⟨id, h.kept id p KeyedMap.get_set_self⟩
    · exact h.every p hp
  source := by
    intro k p hk
    obtain hk | hp := h.source k p hk
    · rw [KeyedMap.get_set] at hk
      split at hk
      · rw [Option.some.inj hk]
        exact .inr List.mem_cons_self
      · exact .inl hk
    · exact .inr (List.mem_cons_of_mem path hp)
  inj := h.inj
  remaining := by
    intro k hk
    obtain ⟨hcandidate, hfile⟩ := h.remaining k hk
    exact ⟨hsub k hcandidate, hfile⟩
  gone := by
    intro k hk
    obtain hnext | rfl := hrest k hk
    · exact h.gone k hnext
    · right
      rw [h.kept k path KeyedMap.get_set_self]
      exact Option.some_ne_none path

/-- The random ids of a scan: no two are the same, and none is one drawn from a path. -/
structure Random (host : Host ι) (uuid : Text → ι) (paths : List Text) : Prop where
  distinct : ∀ p ∈ paths, ∀ q ∈ paths, uuid p = uuid q → p = q
  drawn : ∀ p ∈ paths, ∀ q ∈ paths, uuid p ≠ host.discoveredDocumentId q

omit [DecidableEq ι] in
theorem Random.tail {rest : List Text} (h : Random host uuid (path :: rest)) : Random host uuid rest where
  distinct p hp q hq := h.distinct p (List.mem_cons_of_mem path hp) q (List.mem_cons_of_mem path hq)
  drawn p hp q hq := h.drawn p (List.mem_cons_of_mem path hp) q (List.mem_cons_of_mem path hq)

theorem delete_sub {candidates : KeyedMap ι DocumentIdEntry} (k : ι)
    (hk : (candidates.delete id).get k ≠ none) : candidates.get k ≠ none := by
  rw [KeyedMap.get_delete] at hk
  split at hk
  · exact absurd rfl hk
  · exact hk

theorem delete_rest {candidates : KeyedMap ι DocumentIdEntry} (k : ι) (hk : candidates.get k ≠ none) :
    (candidates.delete id).get k ≠ none ∨ k = id := by
  rw [KeyedMap.get_delete]
  split
  · rename_i heq
    exact .inr heq
  · exact .inl hk

theorem place_spec (rest : List Text) {assigned : KeyedMap ι Text} {candidates : KeyedMap ι DocumentIdEntry}
    (hnodup : rest.Nodup) (hrandom : Random host uuid rest) (hreuse : reuses host folder rest candidates = false)
    (h : Placing uuid rest assigned candidates) :
    Placed rest assigned candidates (place host folder uuid rest (assigned, candidates)).1
        (place host folder uuid rest (assigned, candidates)).2 ∧
      ∀ id p, (id, p) ∈ renames host folder rest candidates →
        (place host folder uuid rest (assigned, candidates)).1.get id = some p ∧ candidates.get id ≠ none := by
  induction rest generalizing assigned candidates with
  | nil =>
    refine ⟨⟨fun _ _ => id, ?_, fun _ _ => .inl, h.inj, ?_, fun _ => .inl⟩, ?_⟩
    · intro p hp
      cases hp
    · exact fun id hid => ⟨hid, h.apart id hid⟩
    · intro id p hp
      cases hp
  | cons path rest ih =>
    obtain ⟨hpath, hrest⟩ := List.nodup_cons.mp hnodup
    cases hmatch : matched host folder path candidates with
    | some id =>
      obtain ⟨e, he⟩ := matched_mem hmatch
      have hthere : candidates.get id ≠ none := by
        rw [he]
        exact Option.some_ne_none e
      have hnew := h.apart id hthere
      have hgone : (candidates.delete id).get id = none := by
        rw [KeyedMap.get_delete, if_pos rfl]
      have huuid : ∀ p ∈ rest, uuid p ≠ id := by
        rintro p hp rfl
        exact hthere (h.free p (List.mem_cons_of_mem path hp)).2
      have hnext := h.next hpath hnew hgone delete_sub huuid
      simp only [reuses, hmatch] at hreuse
      simp only [place, renames, hmatch]
      obtain ⟨hplaced, hrenames⟩ := ih hrest hrandom.tail hreuse hnext
      refine ⟨hplaced.cons hnew delete_sub delete_rest, ?_⟩
      intro k p hk
      obtain heq | hk := List.mem_cons.mp hk
      · obtain ⟨rfl, rfl⟩ := Prod.mk.inj heq
        exact ⟨hplaced.kept _ _ KeyedMap.get_set_self, hthere⟩
      · obtain ⟨hfile, hcandidate⟩ := hrenames k p hk
        exact ⟨hfile, delete_sub k hcandidate⟩
    | none =>
      simp only [reuses, hmatch, Bool.or_eq_false_iff] at hreuse
      obtain ⟨hdrawn, hreuse⟩ := hreuse
      have hdrawn : candidates.get (host.discoveredDocumentId path) = none := by
        simpa [KeyedMap.has] using hdrawn
      simp only [place, renames, hmatch]
      by_cases hused : assigned.has (host.discoveredDocumentId path) = true
      · obtain ⟨hnew, hgone⟩ := h.free path List.mem_cons_self
        have huuid : ∀ p ∈ rest, uuid p ≠ uuid path := by
          intro p hp heq
          exact hpath (hrandom.distinct p (List.mem_cons_of_mem path hp) path List.mem_cons_self heq ▸ hp)
        have hnext := h.next hpath hnew hgone (fun _ => id) huuid
        rw [if_pos hused]
        obtain ⟨hplaced, hrenames⟩ := ih hrest hrandom.tail hreuse hnext
        exact ⟨hplaced.cons hnew (fun _ => id) (fun _ => .inl), hrenames⟩
      · have hnew : assigned.get (host.discoveredDocumentId path) = none := by
          simpa [KeyedMap.has] using hused
        have huuid : ∀ p ∈ rest, uuid p ≠ host.discoveredDocumentId path :=
          fun p hp => hrandom.drawn p (List.mem_cons_of_mem path hp) path List.mem_cons_self
        have hnext := h.next hpath hnew hdrawn (fun _ => id) huuid
        rw [if_neg hused]
        obtain ⟨hplaced, hrenames⟩ := ih hrest hrandom.tail hreuse hnext
        exact ⟨hplaced.cons hnew (fun _ => id) (fun _ => .inl), hrenames⟩

variable {file : Option (DocumentsFile ι)}

theorem updateId_keeps (h : Mirror file s) (id : ι) (path : Text) :
    Mirror file (updateId folder s id path) ∧ (updateId folder s id path).directory = s.directory := by
  unfold updateId
  split
  · exact ⟨h, rfl⟩
  · split
    · exact ⟨h.setId id _, rfl⟩
    · split
      · exact ⟨h.setId id _, rfl⟩
      · split
        · exact ⟨h.setId id _, rfl⟩
        · exact ⟨h, rfl⟩

theorem get_updateId_ne {id k : ι} (hne : k ≠ id) (path : Text) :
    (updateId folder s id path).ids.get k = s.ids.get k := by
  unfold updateId
  split
  · rfl
  · split
    · exact KeyedMap.get_set_ne hne
    · split
      · exact KeyedMap.get_set_ne hne
      · split
        · exact KeyedMap.get_set_ne hne
        · rfl

theorem get_updateId (hpath : (present folder).get path ≠ none) :
    ∃ e, (updateId folder s id path).ids.get id = some e ∧ e.path = path := by
  unfold updateId
  split
  · rename_i hnone
    exact absurd hnone hpath
  · split
    · exact ⟨_, KeyedMap.get_set_self, rfl⟩
    · rename_i old hold
      split
      · exact ⟨_, KeyedMap.get_set_self, rfl⟩
      · rename_i hsame
        split
        · exact ⟨_, KeyedMap.get_set_self, rfl⟩
        · exact ⟨old, hold, not_not.mp hsame⟩

theorem update_all (files : List (ι × Text)) (hnodup : (files.map Prod.fst).Nodup)
    (hvisible : ∀ a ∈ files, (present folder).get a.2 ≠ none) (h : Mirror file s) {s' : Session ι}
    (hs' : files.foldl (fun s a => updateId folder s a.1 a.2) s = s') :
    Mirror file s' ∧ s'.directory = s.directory ∧
      (∀ id p, (id, p) ∈ files → ∃ e, s'.ids.get id = some e ∧ e.path = p) ∧
      ∀ id, id ∉ files.map Prod.fst → s'.ids.get id = s.ids.get id := by
  induction files generalizing s with
  | nil =>
    obtain rfl := hs'
    exact ⟨h, rfl, fun _ _ hmem => absurd hmem List.not_mem_nil, fun _ _ => rfl⟩
  | cons a files ih =>
    obtain ⟨id, path⟩ := a
    obtain ⟨hid, hrest⟩ := List.nodup_cons.mp hnodup
    have hkeeps : Mirror file (updateId folder s id path) ∧ (updateId folder s id path).directory = s.directory :=
      updateId_keeps h id path
    obtain ⟨hmirror, hdirectory⟩ := hkeeps
    obtain ⟨hmirror', hdirectory', hset, hother⟩ :=
      ih hrest (fun a ha => hvisible a (List.mem_cons_of_mem _ ha)) hmirror hs'
    refine ⟨hmirror', hdirectory'.trans hdirectory, ?_, ?_⟩
    · intro k p hk
      obtain heq | hk := List.mem_cons.mp hk
      · obtain ⟨rfl, rfl⟩ := Prod.mk.inj heq
        rw [hother _ hid]
        exact get_updateId (hvisible _ List.mem_cons_self)
      · exact hset k p hk
    · intro k hk
      rw [List.map_cons, List.mem_cons, not_or] at hk
      rw [hother k hk.2, get_updateId_ne hk.1]

theorem drop_all {initial : Bool} {current : KeyedMap ι Text}
    (gone : List (ι × DocumentIdEntry)) (hcurrent : ∀ c ∈ gone, (initial || current.has c.1) = true)
    (h : Mirror file s) {s' : Session ι} (hs' : gone.foldl (fun s c => dropVanished initial current s c.1) s = s') :
    Mirror file s' ∧ s'.directory = s.directory ∧
      ∀ id, s'.ids.get id = if id ∈ gone.map Prod.fst then none else s.ids.get id := by
  induction gone generalizing s with
  | nil =>
    obtain rfl := hs'
    exact ⟨h, rfl, fun _ => rfl⟩
  | cons c gone ih =>
    have hdrop : dropVanished initial current s c.1 = deleteId s c.1 := by
      rw [dropVanished, if_pos (hcurrent c List.mem_cons_self)]
    rw [List.foldl_cons, hdrop] at hs'
    obtain ⟨hmirror, hdirectory, hids⟩ :=
      ih (fun c' hc' => hcurrent c' (List.mem_cons_of_mem c hc')) (h.deleteId c.1) hs'
    refine ⟨hmirror, hdirectory, ?_⟩
    intro id
    rw [hids id, List.map_cons]
    have hdelete : (deleteId s c.1).ids.get id = if id = c.1 then none else s.ids.get id := KeyedMap.get_delete
    rw [hdelete]
    by_cases hmem : id ∈ gone.map Prod.fst
    · rw [if_pos hmem, if_pos (List.mem_cons_of_mem _ hmem)]
    · by_cases heq : id = c.1
      · rw [if_neg hmem, if_pos heq, heq, if_pos List.mem_cons_self]
      · rw [if_neg hmem, if_neg heq, if_neg (List.not_mem_cons_of_ne_of_not_mem heq hmem)]

theorem get_applyFromDisk {κ β : Type*} [DecidableEq κ] [DecidableEq β] (m docs : KeyedMap κ β) (k : κ) :
    (applyFromDisk m docs).get k = docs.get k := by
  have hfold : ∀ (l : List (κ × β)) (m : KeyedMap κ β), (l.map Prod.fst).Nodup →
      (∀ v, (k, v) ∈ l → (l.foldl (fun m d => if m.get d.1 = some d.2 then m else m.set d.1 d.2) m).get k = some v) ∧
      (k ∉ l.map Prod.fst →
        (l.foldl (fun m d => if m.get d.1 = some d.2 then m else m.set d.1 d.2) m).get k = m.get k) := by
    intro l
    induction l with
    | nil =>
      intro m _
      exact ⟨fun _ hmem => absurd hmem List.not_mem_nil, fun _ => rfl⟩
    | cons d l ih =>
      intro m hnodup
      obtain ⟨hd, hl⟩ := List.nodup_cons.mp hnodup
      obtain ⟨hset, hother⟩ := ih (if m.get d.1 = some d.2 then m else m.set d.1 d.2) hl
      refine ⟨?_, ?_⟩
      · intro v hv
        obtain rfl | hv := List.mem_cons.mp hv
        · rw [List.foldl_cons, hother hd]
          split
          · rename_i hsame
            exact hsame
          · exact KeyedMap.get_set_self
        · exact hset v hv
      · intro hk
        rw [List.map_cons, List.mem_cons, not_or] at hk
        rw [List.foldl_cons, hother hk.2]
        split
        · rfl
        · exact KeyedMap.get_set_ne hk.1
  obtain ⟨hset, hother⟩ := hfold docs.entries (m.filter fun e => docs.has e.1) docs.nodup
  cases hdocs : docs.get k with
  | some v => exact hset v (KeyedMap.mem_iff.mpr hdocs)
  | none =>
    have hkey : k ∉ docs.entries.map Prod.fst := fun hmem => KeyedMap.mem_keys.mp hmem hdocs
    rw [applyFromDisk, hother hkey, Option.eq_none_iff_forall_ne_some]
    intro v hv
    have hhas := (KeyedMap.get_filter.mp hv).2
    rw [KeyedMap.has, hdocs] at hhas
    cases hhas

structure Assigned (folder : Folder) (s : Session ι) (files : KeyedMap ι Text) (left : KeyedMap ι DocumentIdEntry)
    (moved : List (ι × Text)) : Prop where
  every : ∀ p, (present folder).get p ≠ none → ∃ id, files.get id = some p
  there : ∀ id p, files.get id = some p → (present folder).get p ≠ none
  inj : ∀ id id' p, files.get id = some p → files.get id' = some p → id = id'
  kept : ∀ id e, s.ids.get id = some e → (present folder).get e.path ≠ none → files.get id = some e.path
  remaining : ∀ id, left.get id ≠ none → s.ids.get id ≠ none ∧ files.get id = none
  gone : ∀ id, s.ids.get id ≠ none → left.get id ≠ none ∨ files.get id ≠ none
  renamed : ∀ id p, (id, p) ∈ moved → files.get id = some p ∧
    ∃ e, s.ids.get id = some e ∧ (present folder).get e.path = none

structure FreshIds (host : Host ι) (folder : Folder) (uuid : Text → ι) (s : Session ι) : Prop where
  random : Random host uuid (firstPass folder s).2
  unknown : ∀ p ∈ (firstPass folder s).2, s.ids.get (uuid p) = none

theorem candidates_known (h : Indexed s) (id : ι) (hid : (candidates folder s).get id ≠ none) :
    ∃ e, s.ids.get id = some e ∧ (present folder).get e.path = none := by
  obtain ⟨e, he⟩ := Option.ne_none_iff_exists'.mp hid
  exact ⟨e, (get_candidates h folder id e).mp he⟩

theorem assignment_spec (h : Indexed s) (hfresh : FreshIds host folder uuid s)
    (hreuse : reuses host folder (firstPass folder s).2 (candidates folder s) = false) :
    Assigned folder s (assignment host folder uuid s).1 (assignment host folder uuid s).2
      (renames host folder (firstPass folder s).2 (candidates folder s)) := by
  have hpass := firstPass_spec h folder
  have hplacing : Placing uuid (firstPass folder s).2 (firstPass folder s).1 (candidates folder s) := by
    refine ⟨?_, ?_, ?_, ?_⟩
    · intro id p hp hwait
      have hid := ((hpass.assigned id p).mp hp).2
      rw [((hpass.unassigned p).mp hwait).2] at hid
      cases hid
    · intro id id' p hp hp'
      have hid := ((hpass.assigned id p).mp hp).2
      have hid' := ((hpass.assigned id' p).mp hp').2
      exact Option.some.inj (hid.symm.trans hid')
    · intro id hid
      obtain ⟨e, he, hgone⟩ := candidates_known h id hid
      rw [Option.eq_none_iff_forall_ne_some]
      intro p hp
      obtain ⟨hvisible, hknown⟩ := (hpass.assigned id p).mp hp
      obtain ⟨e', he', rfl⟩ := (knownId_iff h).mp hknown
      obtain rfl := Option.some.inj (he.symm.trans he')
      exact mem_visible.mp hvisible hgone
    · intro p hp
      have hunknown := hfresh.unknown p hp
      constructor
      · rw [Option.eq_none_iff_forall_ne_some]
        intro q hq
        obtain ⟨e, he, -⟩ := (knownId_iff h).mp ((hpass.assigned (uuid p) q).mp hq).2
        rw [hunknown] at he
        cases he
      · by_contra hid
        obtain ⟨e, he, -⟩ := candidates_known h (uuid p) hid
        rw [hunknown] at he
        cases he
  obtain ⟨hplaced, hrenames⟩ := place_spec _ hpass.nodup hfresh.random hreuse hplacing
  refine ⟨?_, ?_, hplaced.inj, ?_, ?_, ?_, ?_⟩
  · intro p hp
    cases hknown : knownId s.ids s.directory p with
    | some id => exact ⟨id, hplaced.kept id p ((hpass.assigned id p).mpr ⟨mem_visible.mpr hp, hknown⟩)⟩
    | none => exact hplaced.every p ((hpass.unassigned p).mpr ⟨mem_visible.mpr hp, hknown⟩)
  · intro id p hp
    obtain hp | hp := hplaced.source id p hp
    · exact mem_visible.mp ((hpass.assigned id p).mp hp).1
    · exact mem_visible.mp ((hpass.unassigned p).mp hp).1
  · intro id e he hvisible
    refine hplaced.kept id e.path ((hpass.assigned id e.path).mpr ⟨mem_visible.mpr hvisible, ?_⟩)
    exact (knownId_iff h).mpr ⟨e, he, rfl⟩
  · intro id hid
    obtain ⟨hcandidate, hfile⟩ := hplaced.remaining id hid
    obtain ⟨e, he, -⟩ := candidates_known h id hcandidate
    refine ⟨?_, hfile⟩
    rw [he]
    exact Option.some_ne_none e
  · intro id hid
    obtain ⟨e, he⟩ := Option.ne_none_iff_exists'.mp hid
    cases hgone : (present folder).get e.path with
    | none =>
      refine hplaced.gone id ?_
      rw [(get_candidates h folder id e).mpr ⟨he, hgone⟩]
      exact Option.some_ne_none e
    | some stat =>
      right
      have hvisible : (present folder).get e.path ≠ none := by
        rw [hgone]
        exact Option.some_ne_none stat
      have hid := hplaced.kept id e.path ((hpass.assigned id e.path).mpr
        ⟨mem_visible.mpr hvisible, (knownId_iff h).mpr ⟨e, he, rfl⟩⟩)
      rw [show (assignment host folder uuid s).1.get id = some e.path from hid]
      exact Option.some_ne_none _
  · intro id p hp
    obtain ⟨hfile, hcandidate⟩ := hrenames id p hp
    exact ⟨hfile, candidates_known h id hcandidate⟩

def pathsOf (file : Option (DocumentsFile ι)) (id : ι) : Option Text :=
  ((documents file).get id).map DocumentIdEntry.path

structure Synced (file : Option (DocumentsFile ι)) (s : Session ι) : Prop where
  saved : Saved file s
  directory : ∀ id, s.directory.get id = pathsOf file id

theorem Saved.load (h : Saved file s) : Saved file (loadIds file s) where
  dirty := h.dirty
  deleted := h.deleted
  same id := by rw [get_loadIds h.mirror, h.same]

theorem Indexed.load (hs : Saved file s) (h : Indexed s) :
    Indexed (loadIds file s) where
  paths := by
    intro id id' e e' he he'
    rw [get_loadIds hs.mirror] at he he'
    exact h.paths id id' e e' he he'
  directory := by
    intro id path hid
    obtain ⟨e, he, hpath⟩ := h.directory id path hid
    exact ⟨e, (get_loadIds hs.mirror id).trans he, hpath⟩

theorem saveIds_idle {localeCompare : Text → Text → Ordering}
    (hdirty : s.dirtyIds.entries = []) (hdeleted : s.deletedIds.entries = []) :
    saveIds localeCompare false file s = (file, s) := by
  rw [saveIds, hdirty, hdeleted]
  rfl

theorem written_paths {initial : Bool} {moved : List (ι × Text)}
    {files : KeyedMap ι Text} {updated dropped : Session ι}
    (hassigned : Assigned folder s files left moved) (hmirror : Mirror file s)
    (hdrop : ∀ id, s.ids.get id ≠ none → (initial || s.directory.has id) = true)
    (hupdated : files.entries.foldl (fun s a => updateId folder s a.1 a.2) s = updated)
    (hdropped : left.entries.foldl (fun t c => dropVanished initial s.directory t c.1) updated = dropped) :
    Mirror file dropped ∧ ∀ id, (dropped.ids.get id).map DocumentIdEntry.path = files.get id := by
  obtain ⟨humirror, -, hset, hother⟩ := update_all files.entries files.nodup
    (fun a ha => hassigned.there a.1 a.2 (KeyedMap.mem_iff.mp ha)) hmirror hupdated
  have hcurrent : ∀ c ∈ left.entries, (initial || s.directory.has c.1) = true := by
    intro c hc
    have hleft : left.get c.1 ≠ none := by
      rw [KeyedMap.mem_iff.mp hc]
      exact Option.some_ne_none _
    exact hdrop c.1 (hassigned.remaining c.1 hleft).1
  obtain ⟨hdmirror, -, hids⟩ := drop_all left.entries hcurrent humirror hdropped
  refine ⟨hdmirror, ?_⟩
  intro id
  rw [hids id]
  cases hfile : files.get id with
  | some p =>
    have hkept : id ∉ left.entries.map Prod.fst := by
      intro hmem
      have hnone := (hassigned.remaining id (KeyedMap.mem_keys.mp hmem)).2
      rw [hfile] at hnone
      cases hnone
    obtain ⟨e, he, rfl⟩ := hset id p (KeyedMap.mem_iff.mpr hfile)
    rw [if_neg hkept, he]
    rfl
  | none =>
    by_cases hmem : id ∈ left.entries.map Prod.fst
    · rw [if_pos hmem]
      rfl
    · rw [if_neg hmem, hother id fun hkey => KeyedMap.mem_keys.mp hkey hfile]
      cases hid : s.ids.get id with
      | none => rfl
      | some e =>
        have hsome : s.ids.get id ≠ none := by
          rw [hid]
          exact Option.some_ne_none e
        obtain hleft | hnew := hassigned.gone id hsome
        · exact absurd (KeyedMap.mem_keys.mpr hleft) hmem
        · exact absurd hfile hnew

theorem scan_spec {file file' : Option (DocumentsFile ι)} {initial : Bool} {s' : Session ι} (hsaved : Saved file s)
    (hindexed : Indexed s) (hdrop : initial = true ∨ ∀ id, s.ids.get id ≠ none → s.directory.get id ≠ none)
    (hfresh : FreshIds host folder uuid (loadIds file s))
    (hreuse : reuses host folder (firstPass folder (loadIds file s)).2 (candidates folder (loadIds file s)) = false)
    (hscan : scan host folder uuid initial file s = some (file', s')) :
    Synced file' s' ∧ ∀ id, s'.directory.get id = (assignment host folder uuid (loadIds file s)).1.get id := by
  have hassigned := assignment_spec (hindexed.load hsaved) hfresh hreuse
  have hcurrent : ∀ id, (loadIds file s).ids.get id ≠ none → (initial || (loadIds file s).directory.has id) = true := by
    intro id hid
    rw [get_loadIds hsaved.mirror] at hid
    obtain rfl | hdirectory := hdrop
    · rfl
    · obtain ⟨path, hpath⟩ := Option.ne_none_iff_exists'.mp (hdirectory id hid)
      have hhas : (loadIds file s).directory.has id = true := KeyedMap.has_iff.mpr ⟨path, hpath⟩
      rw [hhas, Bool.or_true]
  unfold scan at hscan
  split at hscan
  · cases hscan
  · dsimp only at hscan
    generalize hupdated : (assignment host folder uuid (loadIds file s)).1.entries.foldl
      (fun s a => updateId folder s a.1 a.2) (loadIds file s) = updated at hscan
    generalize hdropped : (assignment host folder uuid (loadIds file s)).2.entries.foldl
      (fun t c => dropVanished initial (loadIds file s).directory t c.1) updated = dropped at hscan
    obtain ⟨hmirror, hpaths⟩ := written_paths hassigned hsaved.load.mirror hcurrent hupdated hdropped
    obtain ⟨written, hwritten⟩ : ∃ written : Session ι, written = { dropped with
      directory := applyFromDisk dropped.directory (assignment host folder uuid (loadIds file s)).1
      directoryFolders := applyFromDisk dropped.directoryFolders (visibleFolders folder) } := ⟨_, rfl⟩
    have hwrite : some (if !written.dirtyIds.entries.isEmpty || !written.deletedIds.entries.isEmpty then
        saveIds host.localeCompare false file written else (file, written)) = some (file', s') := by
      subst hwritten
      exact hscan
    have hwmirror : Mirror file written := by
      subst hwritten
      exact ⟨hmirror.clean, hmirror.deleted, hmirror.dirty⟩
    have hdirectory : ∀ id, written.directory.get id = (written.ids.get id).map DocumentIdEntry.path := by
      subst hwritten
      intro id
      rw [get_applyFromDisk]
      exact (hpaths id).symm
    have hfiles : ∀ id, written.directory.get id = (assignment host folder uuid (loadIds file s)).1.get id := by
      subst hwritten
      exact get_applyFromDisk _ _
    have hsave : saveIds host.localeCompare false file written = (file', s') := by
      split at hwrite
      · exact Option.some.inj hwrite
      · rename_i hidle
        simp only [Bool.or_eq_true, Bool.not_eq_true', not_or, Bool.not_eq_false, List.isEmpty_iff] at hidle
        rw [saveIds_idle hidle.1 hidle.2]
        exact Option.some.inj hwrite
    obtain ⟨hsaved', hids, hsame⟩ := @saveIds_saved ι _ host.localeCompare file written false hwmirror
    rw [hsave] at hsaved' hids hsame
    refine ⟨⟨hsaved', ?_⟩, ?_⟩
    · intro id
      rw [hsame, hdirectory, pathsOf, hsaved'.same, hids]
    · intro id
      rw [hsame, hfiles]

end Savoire.FolderVault
