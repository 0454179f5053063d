import Mathlib.Data.List.Induction
import Savoire.Library.Entries
import Savoire.Library.StableSort

/-! Maps as entry lists without repeated keys: what their operations do to a lookup. -/
namespace Entries
variable {κ β : Type*} [BEq κ] [LawfulBEq κ] {entries : List (κ × β)} {key : κ} {value : β}

theorem keys_set : (set key value entries).map Prod.fst =
    if key ∈ entries.map Prod.fst then entries.map Prod.fst else entries.map Prod.fst ++ [key] := by
  induction entries with
  | nil => simp [set]
  | cons e rest ih =>
    obtain ⟨k', v⟩ := e
    by_cases hk : k' = key
    · subst hk
      simp [set]
    · have hset : set key value ((k', v) :: rest) = (k', v) :: set key value rest := by simp [set, hk]
      rw [hset, List.map_cons, ih]
      by_cases hmem : key ∈ rest.map Prod.fst
      · rw [if_pos hmem, if_pos (by simp [hmem])]
        rfl
      · have hne : key ∉ (((k', v) :: rest).map Prod.fst) := by
          rw [List.map_cons, List.mem_cons]
          rintro (heq | hrest)
          · exact hk heq.symm
          · exact hmem hrest
        rw [if_neg hmem, if_neg hne]
        rfl

theorem set_of_not_mem (h : key ∉ entries.map Prod.fst) : set key value entries = entries ++ [(key, value)] := by
  induction entries with
  | nil => rfl
  | cons e rest ih =>
    obtain ⟨hne, hrest⟩ := not_or.mp (mt List.mem_cons.mpr h)
    simp [set, Ne.symm hne, ih hrest]

theorem nodup_set (h : (entries.map Prod.fst).Nodup) : ((set key value entries).map Prod.fst).Nodup := by
  rw [keys_set]
  split
  · exact h
  · rename_i hkey
    refine List.nodup_append.mpr ⟨h, List.pairwise_singleton _ key, ?_⟩
    rintro a ha b hb rfl
    rw [List.mem_singleton] at hb
    exact hkey (hb ▸ ha)

theorem mem_iff_lookup (h : (entries.map Prod.fst).Nodup) :
    (key, value) ∈ entries ↔ entries.lookup key = some value := by
  induction entries with
  | nil => simp
  | cons e rest ih =>
    obtain ⟨k', v⟩ := e
    obtain ⟨hnew, hrest⟩ := List.nodup_cons.mp h
    rw [lookup_cons, List.mem_cons, ih hrest]
    by_cases hk : key = k'
    · subst hk
      have hnone : rest.lookup key ≠ some value := by
        intro hlookup
        exact hnew (List.mem_map.mpr ⟨(key, value), (ih hrest).mpr hlookup, rfl⟩)
      simp [hnone, eq_comm]
    · simp [hk]

/-! Other names for the keys, no two of them the same. -/

variable {ι : Type*} [BEq ι] [LawfulBEq ι] {name : κ → ι}

theorem lookup_map_key (h : ∀ e ∈ entries, name e.1 = name key → e.1 = key) :
    (entries.map fun e => (name e.1, e.2)).lookup (name key) = entries.lookup key := by
  induction entries with
  | nil => rfl
  | cons e rest ih =>
    have hrest := ih fun e he => h e (List.mem_cons_of_mem _ he)
    obtain ⟨k', v⟩ := e
    rw [List.map_cons, lookup_cons, lookup_cons, hrest]
    by_cases hk : key = k'
    · subst hk
      simp
    · have hname : name key ≠ name k' := fun heq => hk (h (k', v) List.mem_cons_self heq.symm).symm
      simp [hk, hname]

theorem map_set (h : ∀ e ∈ entries, name e.1 = name key → e.1 = key) :
    (set key value entries).map (fun e => (name e.1, e.2)) =
      set (name key) value (entries.map fun e => (name e.1, e.2)) := by
  induction entries with
  | nil => rfl
  | cons e rest ih =>
    have hrest := ih fun e he => h e (List.mem_cons_of_mem _ he)
    obtain ⟨k', v⟩ := e
    by_cases hk : k' = key
    · subst hk
      simp [set]
    · have hname : name k' ≠ name key := fun heq => hk (h (k', v) List.mem_cons_self heq)
      simp [set, hk, hname, hrest]

end Entries

/-- A map whose keys come once, in the order in which they came. -/
structure KeyedMap (κ β : Type*) where
  entries : List (κ × β)
  nodup : (entries.map Prod.fst).Nodup

namespace KeyedMap
variable {κ β : Type*} [DecidableEq κ]

def empty : KeyedMap κ β := ⟨[], List.nodup_nil⟩

def get (m : KeyedMap κ β) (key : κ) : Option β := m.entries.lookup key

def has (m : KeyedMap κ β) (key : κ) : Bool := (m.get key).isSome

def set (m : KeyedMap κ β) (key : κ) (value : β) : KeyedMap κ β :=
  ⟨Entries.set key value m.entries, Entries.nodup_set m.nodup⟩

def filter (m : KeyedMap κ β) (keep : κ × β → Bool) : KeyedMap κ β :=
  ⟨m.entries.filter keep, m.nodup.sublist (List.filter_sublist.map Prod.fst)⟩

def delete (m : KeyedMap κ β) (key : κ) : KeyedMap κ β := m.filter fun e => !(e.1 == key)

/-- The same entries in the order of a comparator. -/
def sort (m : KeyedMap κ β) (cmp : κ × β → κ × β → Ordering) : KeyedMap κ β :=
  ⟨StableSort.sort cmp m.entries, ((StableSort.sort_perm cmp m.entries).map Prod.fst).nodup_iff.mpr m.nodup⟩

/-- The same keys with other values. -/
def map {γ : Type*} (m : KeyedMap κ β) (f : κ → β → γ) : KeyedMap κ γ :=
  ⟨m.entries.map fun e => (e.1, f e.1 e.2), by
    rw [List.map_map]
    exact m.nodup⟩

variable {m : KeyedMap κ β} {key k : κ} {value : β}

theorem mem_iff : (key, value) ∈ m.entries ↔ m.get key = some value := Entries.mem_iff_lookup m.nodup

@[simp] theorem get_empty : (empty : KeyedMap κ β).get k = none := rfl

theorem get_set : (m.set key value).get k = if k = key then some value else m.get k := by
  rw [get, set, Entries.lookup_set]
  simp [get]

@[simp] theorem get_set_self : (m.set key value).get key = some value := by
  rw [get_set, if_pos rfl]

theorem get_set_ne (h : k ≠ key) : (m.set key value).get k = m.get k := by
  rw [get_set, if_neg h]

theorem get_filter {keep : κ × β → Bool} : (m.filter keep).get k = some value ↔
    m.get k = some value ∧ keep (k, value) = true := by
  rw [← mem_iff, ← mem_iff]
  exact List.mem_filter

theorem get_delete : (m.delete key).get k = if k = key then none else m.get k := by
  have hentries : (m.delete key).entries = Entries.erase key m.entries := rfl
  rw [get, hentries, Entries.lookup_erase]
  simp [get]

@[simp] theorem get_sort (cmp : κ × β → κ × β → Ordering) : (m.sort cmp).get k = m.get k := by
  ext value
  rw [← mem_iff, ← mem_iff]
  exact StableSort.mem_sort

variable {γ : Type*}

@[simp] theorem get_map (f : κ → β → γ) : (m.map f).get k = (m.get k).map (f k) := by
  obtain ⟨entries, hnodup⟩ := m
  induction entries with
  | nil => rfl
  | cons e rest ih =>
    obtain ⟨k', v⟩ := e
    have hrest := ih (List.nodup_cons.mp hnodup).2
    simp only [get, map, List.map_cons, Entries.lookup_cons] at hrest ⊢
    by_cases hk : k = k'
    · subst hk
      simp
    · simpa [hk] using hrest

theorem entries_set (h : key ∉ m.entries.map Prod.fst) : (m.set key value).entries = m.entries ++ [(key, value)] :=
  Entries.set_of_not_mem h

theorem mem_keys : key ∈ m.entries.map Prod.fst ↔ m.get key ≠ none := by
  constructor
  · intro hkey
    obtain ⟨⟨k, value⟩, hmem, rfl⟩ := List.mem_map.mp hkey
    rw [mem_iff.mp hmem]
    exact Option.some_ne_none value
  · intro hkey
    obtain ⟨value, hvalue⟩ := Option.ne_none_iff_exists'.mp hkey
    exact List.mem_map.mpr ⟨(key, value), mem_iff.mpr hvalue, rfl⟩

theorem get_of_map {ι : Type*} [DecidableEq ι] {name : κ → ι} {m' : KeyedMap ι β}
    (hentries : m'.entries = m.entries.map fun e => (name e.1, e.2))
    (h : ∀ e ∈ m.entries, name e.1 = name key → e.1 = key) : m'.get (name key) = m.get key := by
  unfold get
  rw [hentries, Entries.lookup_map_key h]

theorem entries_set_of_map {ι : Type*} [DecidableEq ι] {name : κ → ι} {m' : KeyedMap ι β}
    (hentries : m'.entries = m.entries.map fun e => (name e.1, e.2))
    (h : ∀ e ∈ m.entries, name e.1 = name key → e.1 = key) :
    (m'.set (name key) value).entries = (m.set key value).entries.map fun e => (name e.1, e.2) := by
  change Entries.set (name key) value m'.entries = _
  rw [hentries]
  exact (Entries.map_set h).symm

theorem perm_delete (h : m.get key = some value) : m.entries.Perm ((key, value) :: (m.delete key).entries) := by
  have hkey : (key, value) ∉ (m.delete key).entries := by
    rw [mem_iff, get_delete, if_pos rfl]
    exact (Option.some_ne_none value).symm
  refine (List.perm_ext_iff_of_nodup m.nodup.of_map (List.nodup_cons.mpr ⟨hkey, (m.delete key).nodup.of_map⟩)).mpr ?_
  rintro ⟨k, v⟩
  rw [List.mem_cons, mem_iff, mem_iff, get_delete]
  by_cases hk : k = key
  · subst hk
    simp [h, eq_comm]
  · simp [hk]

theorem delete_of_get_none (h : m.get key = none) : m.delete key = m := by
  have hall : m.entries.filter (fun e => !(e.1 == key)) = m.entries := by
    refine List.filter_eq_self.mpr ?_
    rintro ⟨k, v⟩ hmem
    rw [mem_iff] at hmem
    have hne : k ≠ key := by
      rintro rfl
      rw [h] at hmem
      cases hmem
    simpa using hne
  exact KeyedMap.mk.injEq .. ▸ hall

theorem entries_delete_cons {rest : List (κ × β)} (h : m.entries = (key, value) :: rest) :
    (m.delete key).entries = rest := by
  have hnodup := m.nodup
  rw [h, List.map_cons, List.nodup_cons] at hnodup
  have hentries : (m.delete key).entries = m.entries.filter fun e => !(e.1 == key) := rfl
  rw [hentries, h, List.filter_cons_of_neg (by simp), List.filter_eq_self]
  intro e he
  have hne : e.1 ≠ key := by
    rintro rfl
    exact hnodup.1 (List.mem_map.mpr ⟨e, he, rfl⟩)
  simpa using hne

theorem get_tail {rest : List (κ × β)} (h : (((key, value) :: rest).map Prod.fst).Nodup) :
    (⟨rest, (List.nodup_cons.mp h).2⟩ : KeyedMap κ β).get k =
      if k = key then none else (⟨(key, value) :: rest, h⟩ : KeyedMap κ β).get k := by
  by_cases hk : k = key
  · rw [if_pos hk, ← Option.not_isSome_iff_eq_none, Option.isSome_iff_exists]
    rintro ⟨v, hv⟩
    exact (List.nodup_cons.mp h).1 (hk ▸ List.mem_map.mpr ⟨(k, v), mem_iff.mpr hv, rfl⟩)
  · simp [get, Entries.lookup_cons, hk]

theorem get_foldl_delete (keys : List (κ × γ)) (m : KeyedMap κ β) (k : κ) :
    (keys.foldl (fun m e => m.delete e.1) m).get k = if k ∈ keys.map Prod.fst then none else m.get k := by
  induction keys generalizing m with
  | nil => rfl
  | cons e keys ih =>
    rw [List.foldl_cons, ih, get_delete, List.map_cons]
    by_cases he : k = e.1
    · simp [he]
    · by_cases hk : k ∈ keys.map Prod.fst
      · rw [if_pos hk, if_pos (List.mem_cons_of_mem _ hk)]
      · rw [if_neg hk, if_neg he, if_neg (List.not_mem_cons_of_ne_of_not_mem he hk)]

theorem get_foldl_delete_keys (keys : List κ) (m : KeyedMap κ β) (k : κ) :
    (keys.foldl delete m).get k = if k ∈ keys then none else m.get k := by
  induction keys generalizing m with
  | nil => rfl
  | cons key keys ih =>
    rw [List.foldl_cons, ih, get_delete]
    by_cases hk : k = key
    · simp [hk]
    · simp [hk]

theorem get_foldl_set (name : γ → κ) (out : γ → β) {l : List γ} (hl : (l.map name).Nodup)
    (m : KeyedMap κ β) : (l.foldl (fun m c => m.set (name c) (out c)) m).get k = some value ↔
      (∃ c ∈ l, name c = k ∧ out c = value) ∨ (k ∉ l.map name ∧ m.get k = some value) := by
  induction l generalizing m with
  | nil => simp
  | cons c l ih =>
    obtain ⟨hc, hrest⟩ := List.nodup_cons.mp hl
    rw [List.foldl_cons, ih hrest, get_set]
    by_cases hk : k = name c
    · subst hk
      simp [hc, or_comm]
    · have hne : name c ≠ k := fun h => hk h.symm
      simp [hk, hne]

def putAll (m new : KeyedMap κ β) : KeyedMap κ β := new.entries.foldl (fun m e => m.set e.1 e.2) m

@[simp] theorem get_putAll (m new : KeyedMap κ β) (k : κ) : (m.putAll new).get k = (new.get k).or (m.get k) := by
  ext value
  rw [putAll, get_foldl_set Prod.fst Prod.snd new.nodup, mem_keys]
  cases hk : new.get k with
  | none =>
    have hnone : ¬ ∃ c ∈ new.entries, c.1 = k ∧ c.2 = value := by
      rintro ⟨⟨k', v⟩, hmem, rfl, -⟩
      rw [mem_iff.mp hmem] at hk
      cases hk
    simp [hnone]
  | some v =>
    have hsome : (∃ c ∈ new.entries, c.1 = k ∧ c.2 = value) ↔ v = value := by
      constructor
      · rintro ⟨⟨k', v'⟩, hmem, rfl, rfl⟩
        exact Option.some.inj (hk.symm.trans (mem_iff.mp hmem))
      · rintro rfl
        exact ⟨(k, v), mem_iff.mpr hk, rfl, rfl⟩
    simp [hsome]

def ofList {γ : Type*} (name : γ → κ) (out : γ → β) (l : List γ) : KeyedMap κ β :=
  l.foldl (fun m c => m.set (name c) (out c)) empty

theorem entries_ofList {name : γ → κ} {out : γ → β} {l : List γ} (h : (l.map name).Nodup) :
    (ofList name out l).entries = l.map fun c => (name c, out c) := by
  induction l using List.reverseRecOn with
  | nil => rfl
  | append_singleton l c ih =>
    rw [List.map_append, List.nodup_append] at h
    obtain ⟨hl, -, hc⟩ := h
    have hentries := ih hl
    have hnew : name c ∉ (ofList name out l).entries.map Prod.fst := by
      rw [hentries, List.map_map]
      intro hmem
      exact hc (name c) hmem (name c) (List.mem_singleton_self _) rfl
    have hfold : ofList name out (l ++ [c]) = (ofList name out l).set (name c) (out c) := by
      rw [ofList, List.foldl_append]
      rfl
    rw [hfold, entries_set hnew, hentries, List.map_append]
    rfl

theorem get_ofList_entries {ι : Type*} [DecidableEq ι] (name : ι → κ) {l : List (ι × β)} {i : ι}
    (h : (l.map fun e => name e.1).Nodup) (hi : ∀ e ∈ l, name e.1 = name i → e.1 = i) :
    (ofList (fun e : ι × β => name e.1) Prod.snd l).get (name i) = l.lookup i := by
  rw [get, entries_ofList h]
  exact Entries.lookup_map_key hi

theorem of_get_ofList {name : γ → κ} {out : γ → β} {l : List γ}
    (h : (ofList name out l).get k = some value) : ∃ c ∈ l, name c = k ∧ out c = value := by
  suffices hall : ∀ m : KeyedMap κ β, (l.foldl (fun m c => m.set (name c) (out c)) m).get k = some value →
      (∃ c ∈ l, name c = k ∧ out c = value) ∨ m.get k = some value by
    obtain hfound | hempty := hall empty h
    · exact hfound
    · cases hempty
  clear h
  induction l with
  | nil => exact fun m hm => .inr hm
  | cons c l ih =>
    intro m hm
    obtain ⟨d, hd, hname⟩ | hrest := ih _ hm
    · exact .inl ⟨d, List.mem_cons_of_mem c hd, hname⟩
    · rw [get_set] at hrest
      split at hrest
      · rename_i hk
        exact .inl ⟨c, List.mem_cons_self, hk.symm, Option.some.inj hrest⟩
      · exact .inr hrest

theorem exists_get_ofList (name : γ → κ) (out : γ → β) {l : List γ} {c : γ} (hc : c ∈ l) :
    ∃ d ∈ l, name d = name c ∧ (ofList name out l).get (name c) = some (out d) := by
  -- the last of the name is what is left
  induction l using List.reverseRecOn with
  | nil => cases hc
  | append_singleton l b ih =>
    rw [ofList, List.foldl_append, List.foldl_cons, List.foldl_nil, get_set]
    by_cases hb : name c = name b
    · exact ⟨b, by simp, hb.symm, if_pos hb⟩
    · have hcl : c ∈ l := by
        obtain hcl | hcb := List.mem_append.1 hc
        · exact hcl
        · exact absurd (congrArg name (List.mem_singleton.1 hcb)) hb
      obtain ⟨d, hd, hname, hget⟩ := ih hcl
      exact ⟨d, List.mem_append_left _ hd, hname, (if_neg hb).trans hget⟩

omit [DecidableEq κ] in
@[ext] theorem ext {m m' : KeyedMap κ β} (h : m.entries = m'.entries) : m = m' := by
  obtain ⟨entries, hn⟩ := m
  obtain ⟨entries', hn'⟩ := m'
  cases h
  rfl

theorem map_congr {f g : κ → β → γ} (h : ∀ k x, m.get k = some x → f k x = g k x) : m.map f = m.map g :=
  KeyedMap.ext (List.map_congr_left fun e he => by rw [h e.1 e.2 (mem_iff.1 he)])

theorem set_map (f : κ → β → γ) {v : γ} (h : m.get key ≠ none) :
    (m.map f).set key v = m.map fun k x => if k = key then v else f k x := by
  have hall : ∀ entries : List (κ × β), (entries.map Prod.fst).Nodup → key ∈ entries.map Prod.fst →
      Entries.set key v (entries.map fun e => (e.1, f e.1 e.2)) =
        entries.map fun e => (e.1, if e.1 = key then v else f e.1 e.2) := by
    intro entries
    induction entries with
    | nil => exact fun _ hkey => absurd hkey List.not_mem_nil
    | cons e rest ih =>
      intro hn hkey
      obtain ⟨hnew, hn⟩ := List.nodup_cons.1 hn
      by_cases he : e.1 = key
      · have hrest : rest.map (fun e => (e.1, f e.1 e.2)) =
            rest.map fun e => (e.1, if e.1 = key then v else f e.1 e.2) := by
          refine List.map_congr_left fun d hd => ?_
          have hd : d.1 ≠ key := by
            rintro hdk
            exact hnew (List.mem_map.2 ⟨d, hd, hdk.trans he.symm⟩)
          rw [if_neg hd]
        simp [Entries.set, he, hrest]
      · have hkey : key ∈ rest.map Prod.fst := by
          obtain hfirst | hrest := List.mem_cons.1 hkey
          · exact absurd hfirst.symm he
          · exact hrest
        simp [Entries.set, he, ih hn hkey]
  exact KeyedMap.ext (hall m.entries m.nodup (mem_keys.2 h))

theorem map_set (f : β → γ) :
    (m.set key value).map (fun _ => f) = (m.map fun _ => f).set key (f value) := by
  have hall : ∀ entries : List (κ × β), (Entries.set key value entries).map (fun e => (e.1, f e.2)) =
      Entries.set key (f value) (entries.map fun e => (e.1, f e.2)) := by
    intro entries
    induction entries with
    | nil => rfl
    | cons e rest ih =>
      by_cases he : e.1 = key
      · simp [Entries.set, he]
      · simp [Entries.set, he, ih]
  exact KeyedMap.ext (hall m.entries)

theorem map_ofList {γ δ : Type*} (name : γ → κ) (out : γ → β) (f : β → δ) (l : List γ) :
    (ofList name out l).map (fun _ => f) = ofList name (fun c => f (out c)) l := by
  induction l using List.reverseRecOn with
  | nil => rfl
  | append_singleton l c ih =>
    simp only [ofList, List.foldl_append, List.foldl_cons, List.foldl_nil] at ih ⊢
    rw [map_set, ih]

theorem has_iff : m.has key = true ↔ ∃ value, m.get key = some value := Option.isSome_iff_exists

end KeyedMap
