import Savoire.Index.Paths
import Savoire.Library.KeyedMap
import Savoire.Library.Transition

/-! The index of anchors: the entries by id, and the ids of each namespace by document and by value. -/
namespace Savoire.Anchors

/-- An entry without its anchors; `μ` are the metadata of a contributor, compared by identity. -/
structure IndexEntry (μ : Type) where
  id : Text
  domain : Text
  value : Text
  docId : Text
  metadata : μ
  deriving DecidableEq

abbrev IdSet := KeyedMap Text Unit

abbrev Buckets := KeyedMap Text (KeyedMap Text IdSet)

namespace Buckets
def bucket (b : Buckets) (domain key : Text) : Option IdSet := (b.get domain).bind (·.get key)

def ids (b : Buckets) (domain key : Text) : List Text := (b.bucket domain key).elim [] fun s => s.entries.map Prod.fst

def put (b : Buckets) (domain key id : Text) : Buckets :=
  let keys := (b.get domain).getD .empty
  let set := (keys.get key).getD .empty
  b.set domain (keys.set key (set.set id ()))

/-- `get(domain)?.get(key)?.delete(id)` -/
def drop (b : Buckets) (domain key id : Text) : Buckets :=
  match b.get domain with
  | none => b
  | some keys => match keys.get key with
    | none => b
    | some set => b.set domain (keys.set key (set.delete id))

variable {b : Buckets} {domain key id domain' key' id' : Text}

theorem nodup_ids (b : Buckets) (domain key : Text) : (b.ids domain key).Nodup := by
  unfold ids
  cases b.bucket domain key with
  | none => exact List.nodup_nil
  | some set => exact set.nodup

theorem mem_ids : id ∈ b.ids domain key ↔ ∃ set, b.bucket domain key = some set ∧ set.get id ≠ none := by
  unfold ids
  cases b.bucket domain key with
  | none => simp
  | some set =>
    rw [Option.elim_some, KeyedMap.mem_keys]
    simp

theorem bucket_put (b : Buckets) (domain key id domain' key' : Text) : (b.put domain key id).bucket domain' key' =
    if domain' = domain ∧ key' = key then some (((b.bucket domain key).getD .empty).set id ())
    else b.bucket domain' key' := by
  unfold put bucket
  rw [KeyedMap.get_set]
  by_cases hdomain : domain' = domain
  · subst hdomain
    rw [if_pos rfl, Option.bind_some, KeyedMap.get_set]
    by_cases hkey : key' = key
    · subst hkey
      rw [if_pos rfl, if_pos ⟨rfl, rfl⟩]
      cases b.get domain' <;> rfl
    · rw [if_neg hkey, if_neg (by tauto)]
      cases b.get domain' <;> rfl
  · rw [if_neg hdomain, if_neg (by tauto)]

theorem bucket_drop (b : Buckets) (domain key id domain' key' : Text) : (b.drop domain key id).bucket domain' key' =
    if domain' = domain ∧ key' = key then (b.bucket domain key).map (·.delete id) else b.bucket domain' key' := by
  unfold drop bucket
  cases hkeys : b.get domain with
  | none =>
    dsimp only
    split
    · rename_i h
      rw [h.1, hkeys]
      rfl
    · rfl
  | some keys =>
    dsimp only
    cases hset : keys.get key with
    | none =>
      dsimp only
      split
      · rename_i h
        rw [h.1, h.2, hkeys, Option.bind_some, hset]
        rfl
      · rfl
    | some set =>
      rw [KeyedMap.get_set]
      by_cases hdomain : domain' = domain
      · subst hdomain
        rw [if_pos rfl, Option.bind_some, KeyedMap.get_set]
        by_cases hkey : key' = key
        · subst hkey
          rw [if_pos rfl, if_pos ⟨rfl, rfl⟩, Option.bind_some, hset, Option.map_some]
        · rw [if_neg hkey, if_neg (by tauto), hkeys, Option.bind_some]
      · rw [if_neg hdomain, if_neg (by tauto)]

theorem mem_ids_put : id' ∈ (b.put domain key id).ids domain' key' ↔
    (domain' = domain ∧ key' = key ∧ id' = id) ∨ id' ∈ b.ids domain' key' := by
  rw [mem_ids, mem_ids, bucket_put]
  by_cases h : domain' = domain ∧ key' = key
  · obtain ⟨rfl, rfl⟩ := h
    rw [if_pos ⟨rfl, rfl⟩]
    cases b.bucket domain' key' with
    | none => simp [KeyedMap.get_set]
    | some set =>
      simp only [Option.getD_some, Option.some.injEq, exists_eq_left', true_and, KeyedMap.get_set]
      by_cases hid : id' = id <;> simp [hid]
  · rw [if_neg h]
    constructor
    · exact .inr
    · rintro (⟨hd, hk, -⟩ | hmem)
      · exact absurd ⟨hd, hk⟩ h
      · exact hmem

theorem mem_ids_drop : id' ∈ (b.drop domain key id).ids domain' key' ↔
    id' ∈ b.ids domain' key' ∧ ¬(domain' = domain ∧ key' = key ∧ id' = id) := by
  rw [mem_ids, mem_ids, bucket_drop]
  by_cases h : domain' = domain ∧ key' = key
  · obtain ⟨rfl, rfl⟩ := h
    rw [if_pos ⟨rfl, rfl⟩]
    cases b.bucket domain' key' with
    | none => simp
    | some set =>
      simp only [Option.map_some, Option.some.injEq, exists_eq_left', true_and, KeyedMap.get_delete]
      by_cases hid : id' = id <;> simp [hid]
  · rw [if_neg h]
    constructor
    · exact fun hmem => ⟨hmem, fun hall => h ⟨hall.1, hall.2.1⟩⟩
    · exact And.left

end Buckets
section Inverse
variable {μ : Type}

def Inverse (entries : KeyedMap Text (IndexEntry μ)) (b : Buckets) (key : IndexEntry μ → Text) : Prop :=
  ∀ domain k id, id ∈ b.ids domain k ↔ ∃ e, entries.get id = some e ∧ e.domain = domain ∧ key e = k

variable {entries : KeyedMap Text (IndexEntry μ)} {b : Buckets} {key : IndexEntry μ → Text} {e : IndexEntry μ} {id : Text}

section
variable (h : Inverse entries b key)
include h

theorem Inverse.put (hnew : entries.get id = none) :
    Inverse (entries.set id e) (b.put e.domain (key e) id) key := by
  intro domain k id'
  rw [Buckets.mem_ids_put, h, KeyedMap.get_set]
  by_cases hid : id' = id
  · subst hid
    rw [if_pos rfl, hnew]
    simp [eq_comm]
  · simp [hid]

theorem Inverse.drop (he : entries.get id = some e) :
    Inverse (entries.delete id) (b.drop e.domain (key e) id) key := by
  intro domain k id'
  rw [Buckets.mem_ids_drop, h, KeyedMap.get_delete]
  by_cases hid : id' = id
  · subst hid
    rw [if_pos rfl]
    constructor
    · rintro ⟨⟨e', he', rfl, rfl⟩, hother⟩
      obtain rfl := Option.some.inj (he.symm.trans he')
      exact absurd ⟨rfl, rfl, rfl⟩ hother
    · rintro ⟨e', he', -⟩
      cases he'
  · simp [hid]

theorem Inverse.set_same {old : IndexEntry μ} (hold : entries.get id = some old)
    (hdomain : e.domain = old.domain) (hkey : key e = key old) : Inverse (entries.set id e) b key := by
  intro domain k id'
  rw [h, KeyedMap.get_set]
  by_cases hid : id' = id
  · subst hid
    rw [if_pos rfl, hold]
    simp [hdomain, hkey]
  · rw [if_neg hid]

theorem Inverse.congr {entries' : KeyedMap Text (IndexEntry μ)}
    (hget : ∀ id, entries'.get id = entries.get id) : Inverse entries' b key := by
  intro domain k id
  rw [h, hget]

end

end Inverse

structure AnchorIndex (μ : Type) where
  entries : KeyedMap Text (IndexEntry μ)
  byDoc : Buckets
  byValue : Buckets

namespace AnchorIndex
variable {μ : Type}

def empty : AnchorIndex μ := ⟨.empty, .empty, .empty⟩

def index (s : AnchorIndex μ) (e : IndexEntry μ) : AnchorIndex μ :=
  { s with byDoc := s.byDoc.put e.domain e.docId e.id, byValue := s.byValue.put e.domain e.value e.id }

def unindex (s : AnchorIndex μ) (e : IndexEntry μ) : AnchorIndex μ :=
  { s with byDoc := s.byDoc.drop e.domain e.docId e.id, byValue := s.byValue.drop e.domain e.value e.id }

def reindex (s : AnchorIndex μ) (e : IndexEntry μ) (oldValue : Text) : AnchorIndex μ :=
  { s with byValue := (s.byValue.drop e.domain oldValue e.id).put e.domain e.value e.id }

/-- An id that comes again keeps its document and its namespace. -/
def add [DecidableEq μ] (s : AnchorIndex μ) (e : IndexEntry μ) : AnchorIndex μ :=
  match s.entries.get e.id with
  | some old =>
    if old.value = e.value ∧ old.metadata = e.metadata then s
    else
      let new := { old with value := e.value, metadata := e.metadata }
      reindex { s with entries := s.entries.set e.id new } new old.value
  | none => index { s with entries := s.entries.set e.id e } e

def remove (s : AnchorIndex μ) (id : Text) : AnchorIndex μ :=
  match s.entries.get id with
  | none => s
  | some e => { s.unindex e with entries := s.entries.delete id }

def found (s : AnchorIndex μ) (ids : List Text) : List (IndexEntry μ) := ids.filterMap s.entries.get

def query (s : AnchorIndex μ) (domain : Text) : List (IndexEntry μ) :=
  match s.byDoc.get domain with
  | none => []
  | some docs => docs.entries.flatMap fun d => s.found (d.2.entries.map Prod.fst)

def getByValue (s : AnchorIndex μ) (domain value : Text) : List (IndexEntry μ) := s.found (s.byValue.ids domain value)

def getByDoc (s : AnchorIndex μ) (domain docId : Text) : List (IndexEntry μ) := s.found (s.byDoc.ids domain docId)

inductive AnchorOp (μ : Type)
  | add (e : IndexEntry μ)
  | remove (id : Text)

def apply [DecidableEq μ] (s : AnchorIndex μ) : AnchorOp μ → AnchorIndex μ
  | .add e => s.add e
  | .remove id => s.remove id

structure Inv (s : AnchorIndex μ) : Prop where
  keyed (id : Text) (e : IndexEntry μ) : s.entries.get id = some e → e.id = id
  byDoc : Inverse s.entries s.byDoc IndexEntry.docId
  byValue : Inverse s.entries s.byValue IndexEntry.value

variable {s : AnchorIndex μ}

theorem Inv.add [DecidableEq μ] (h : s.Inv) (e : IndexEntry μ) : (s.add e).Inv := by
  unfold AnchorIndex.add
  cases hold : s.entries.get e.id with
  | none =>
    refine ⟨?_, h.byDoc.put hold, h.byValue.put hold⟩
    intro id e' he'
    change (s.entries.set e.id e).get id = some e' at he'
    rw [KeyedMap.get_set] at he'
    split at he'
    · rename_i hid
      rw [← Option.some.inj he', hid]
    · exact h.keyed id e' he'
  | some old =>
    dsimp only
    split
    · exact h
    · have hid : old.id = e.id := h.keyed _ _ hold
      refine ⟨?_, h.byDoc.set_same hold rfl rfl, ?_⟩
      · intro id e' he'
        change (s.entries.set e.id _).get id = some e' at he'
        rw [KeyedMap.get_set] at he'
        split at he'
        · rename_i heq
          rw [← Option.some.inj he', heq]
          exact hid
        · exact h.keyed id e' he'
      · -- out of the old bucket, into the new one
        have hput := (h.byValue.drop hold).put (e := { old with value := e.value, metadata := e.metadata })
          (KeyedMap.get_delete.trans (if_pos rfl))
        rw [← hid] at hput ⊢
        refine hput.congr fun id => ?_
        change (s.entries.set old.id _).get id = _
        rw [KeyedMap.get_set, KeyedMap.get_set, KeyedMap.get_delete]
        split <;> rfl

theorem Inv.remove (h : s.Inv) (id : Text) : (s.remove id).Inv := by
  unfold AnchorIndex.remove
  cases he : s.entries.get id with
  | none => exact h
  | some e =>
    have hid : e.id = id := h.keyed _ _ he
    dsimp only [unindex]
    rw [hid]
    refine ⟨?_, h.byDoc.drop he, h.byValue.drop he⟩
    intro id' e' he'
    rw [KeyedMap.get_delete] at he'
    split at he'
    · cases he'
    · exact h.keyed id' e' he'

theorem inv_empty : (empty : AnchorIndex μ).Inv where
  keyed id e h := by cases h
  byDoc domain k id := by simp [empty, Buckets.ids, Buckets.bucket]
  byValue domain k id := by simp [empty, Buckets.ids, Buckets.bucket]

theorem inv_foldl [DecidableEq μ] (ops : List (AnchorOp μ)) : (ops.foldl apply empty).Inv := by
  have hkept : ∀ (ops : List (AnchorOp μ)) (s : AnchorIndex μ), s.Inv → (ops.foldl apply s).Inv := by
    intro ops
    induction ops with
    | nil => exact fun _ h => h
    | cons op ops ih =>
      intro s h
      refine ih _ ?_
      cases op with
      | add e => exact h.add e
      | remove id => exact h.remove id
  exact hkept ops empty inv_empty

structure Answers (s : AnchorIndex μ) (answer : List (IndexEntry μ)) (p : IndexEntry μ → Prop) : Prop where
  mem (e : IndexEntry μ) : e ∈ answer ↔ s.entries.get e.id = some e ∧ p e
  once : (answer.map IndexEntry.id).Nodup

theorem mem_found (h : s.Inv) {ids : List Text} {e : IndexEntry μ} :
    e ∈ s.found ids ↔ e.id ∈ ids ∧ s.entries.get e.id = some e := by
  rw [found, List.mem_filterMap]
  constructor
  · rintro ⟨id, hid, he⟩
    obtain rfl := h.keyed id e he
    exact ⟨hid, he⟩
  · exact fun ⟨hid, he⟩ => ⟨e.id, hid, he⟩

theorem found_ids_sublist (h : s.Inv) (ids : List Text) : ((s.found ids).map IndexEntry.id).Sublist ids := by
  induction ids with
  | nil => exact List.Sublist.refl _
  | cons id ids ih =>
    unfold found at ih ⊢
    rw [List.filterMap_cons]
    cases he : s.entries.get id with
    | none => exact ih.cons id
    | some e =>
      rw [List.map_cons, h.keyed id e he]
      exact ih.cons_cons id

theorem answers_found (h : s.Inv) {b : Buckets} {key : IndexEntry μ → Text} (hb : Inverse s.entries b key)
    (domain k : Text) : s.Answers (s.found (b.ids domain k)) fun e => e.domain = domain ∧ key e = k where
  mem e := by
    rw [mem_found h, hb]
    constructor
    · rintro ⟨⟨e', he', hd, hk⟩, he⟩
      obtain rfl := Option.some.inj (he.symm.trans he')
      exact ⟨he, hd, hk⟩
    · exact fun ⟨he, hd, hk⟩ => ⟨⟨e, he, hd, hk⟩, he⟩
  once := (b.nodup_ids domain k).sublist (found_ids_sublist h _)

theorem answers_query (h : s.Inv) (domain : Text) : s.Answers (s.query domain) fun e => e.domain = domain := by
  unfold query
  cases hdocs : s.byDoc.get domain with
  | none =>
    refine ⟨fun e => ?_, List.nodup_nil⟩
    have hnone : ∀ k, s.byDoc.ids domain k = [] := by
      simp [Buckets.ids, Buckets.bucket, hdocs]
    constructor
    · intro he
      cases he
    · rintro ⟨he, rfl⟩
      have hmem := (h.byDoc e.domain e.docId e.id).mpr ⟨e, he, rfl, rfl⟩
      rw [hnone] at hmem
      cases hmem
  | some docs =>
    have hids : ∀ d ∈ docs.entries, d.2.entries.map Prod.fst = s.byDoc.ids domain d.1 := by
      intro d hd
      rw [Buckets.ids, Buckets.bucket, hdocs, Option.bind_some, KeyedMap.mem_iff.mp hd, Option.elim_some]
    have hdoc : ∀ d ∈ docs.entries, ∀ id ∈ d.2.entries.map Prod.fst, ∃ e, s.entries.get id = some e ∧ e.docId = d.1 := by
      intro d hd id hid
      rw [hids d hd, h.byDoc] at hid
      obtain ⟨e, he, -, hdocId⟩ := hid
      exact ⟨e, he, hdocId⟩
    refine ⟨fun e => ?_, ?_⟩
    · rw [List.mem_flatMap]
      constructor
      · rintro ⟨d, hd, he⟩
        rw [hids d hd] at he
        obtain ⟨he, hdomain, -⟩ := ((answers_found h h.byDoc domain d.1).mem e).mp he
        exact ⟨he, hdomain⟩
      · rintro ⟨he, rfl⟩
        have hmem := (h.byDoc e.domain e.docId e.id).mpr ⟨e, he, rfl, rfl⟩
        obtain ⟨set, hset, -⟩ := Buckets.mem_ids.mp hmem
        rw [Buckets.bucket, hdocs, Option.bind_some, ← KeyedMap.mem_iff] at hset
        refine ⟨_, hset, ?_⟩
        rw [hids _ hset]
        exact ((answers_found h h.byDoc _ _).mem e).mpr ⟨he, rfl, rfl⟩
    · rw [List.map_flatMap, List.nodup_flatMap]
      refine ⟨fun d _ => d.2.nodup.sublist (found_ids_sublist h _), ?_⟩
      have hkeys : docs.entries.Pairwise fun d d' => d.1 ≠ d'.1 := List.pairwise_map.mp docs.nodup
      refine List.Pairwise.imp_of_mem (fun {d d'} hd hd' hne => ?_) hkeys
      intro id hid hid'
      obtain ⟨e, he, heq⟩ := hdoc d hd id ((found_ids_sublist h _).subset hid)
      obtain ⟨e', he', heq'⟩ := hdoc d' hd' id ((found_ids_sublist h _).subset hid')
      obtain rfl := Option.some.inj (he.symm.trans he')
      exact hne (heq.symm.trans heq')

theorem get_add [DecidableEq μ] (s : AnchorIndex μ) (e : IndexEntry μ) : (s.add e).entries.get e.id =
    some ((s.entries.get e.id).elim e fun old => { old with value := e.value, metadata := e.metadata }) := by
  unfold add
  cases hold : s.entries.get e.id with
  | none => exact KeyedMap.get_set_self
  | some old =>
    dsimp only
    split
    · rename_i hsame
      rw [hold, ← hsame.1, ← hsame.2]
      rfl
    · exact KeyedMap.get_set_self

/-- After any additions and removals the ids of the two maps are those of the live entries with their keys, and
the queries give every live entry that meets their criterion, once. An id that is added again has its new value
and metadata, under its first document and namespace. -/
theorem index_consistent [DecidableEq μ] (ops : List (AnchorOp μ)) :
    let s := ops.foldl apply empty
    Inverse s.entries s.byDoc IndexEntry.docId ∧ Inverse s.entries s.byValue IndexEntry.value ∧
      (∀ domain, s.Answers (s.query domain) fun e => e.domain = domain) ∧
      (∀ domain value, s.Answers (s.getByValue domain value) fun e => e.domain = domain ∧ e.value = value) ∧
      (∀ domain docId, s.Answers (s.getByDoc domain docId) fun e => e.domain = domain ∧ e.docId = docId) ∧
      ∀ e, (s.add e).entries.get e.id =
        some ((s.entries.get e.id).elim e fun old => { old with value := e.value, metadata := e.metadata }) := by
  intro s
  have h : s.Inv := inv_foldl ops
  exact ⟨h.byDoc, h.byValue, answers_query h, answers_found h h.byValue, answers_found h h.byDoc, s.get_add⟩

/-- A bucket stays when its last id leaves. -/
theorem empty_bucket_stays : ¬ ∀ (ops : List (AnchorOp Unit)) (domain docId : Text) (set : IdSet),
    (ops.foldl apply empty).byDoc.bucket domain docId = some set → set.entries ≠ [] := by
  intro hnone
  exact hnone [.add ⟨['a'], ['t'], ['v'], ['d'], ()⟩, .remove ['a']] ['t'] ['d'] .empty (by rfl) rfl

end AnchorIndex
end Savoire.Anchors
