import Savoire.Indexer.ResultCache

/-! The cache of results as it runs, with the counter of its bytes. Over any history of calls the counter is
the bytes that are held, and what leaves first is what was used last the longest ago. -/
namespace Savoire.Indexer

/-- `b` is used, and `a` is not from then on. -/
def UsedBefore (log : List Text) (a b : Text) : Prop := ∃ u v, log = u ++ b :: v ∧ a ∉ b :: v

/-- The one that was used the longest ago comes first. -/
def InUseOrder (log keys : List Text) : Prop := keys.Pairwise (UsedBefore log)

section Use
variable {log keys : List Text} {a b : Text}

theorem UsedBefore.concat (h : UsedBefore log a b) {c : Text} (hc : a ≠ c) : UsedBefore (log ++ [c]) a b := by
  obtain ⟨u, v, rfl, hv⟩ := h
  refine ⟨u, v ++ [c], by simp, ?_⟩
  rw [← List.cons_append, List.mem_append, List.mem_singleton]
  exact fun hmem => hmem.elim hv hc

theorem usedBefore_concat (h : a ≠ b) : UsedBefore (log ++ [b]) a b := ⟨log, [], rfl, by simpa using h⟩

theorem InUseOrder.use (h : InUseOrder log keys) (hb : b ∉ keys) : InUseOrder (log ++ [b]) (keys ++ [b]) := by
  have hne : ∀ a ∈ keys, a ≠ b := by
    rintro a ha rfl
    exact hb ha
  refine List.pairwise_append.mpr ⟨?_, List.pairwise_singleton _ _, ?_⟩
  · exact List.Pairwise.imp_of_mem (fun ha _ hab => hab.concat (hne _ ha)) h
  · intro a ha c hc
    obtain rfl := List.mem_singleton.mp hc
    exact usedBefore_concat (hne a ha)

theorem InUseOrder.sublist {keys' : List Text} (h : InUseOrder log keys) (hsub : keys'.Sublist keys) :
    InUseOrder log keys' := List.Pairwise.sublist hsub h

end Use

structure CountedCache where
  maxEntries : Nat
  maxBytes : Nat
  ttlMs : Nat
  map : KeyedMap Text CacheEntry
  bytes : Int
  hits : Nat
  misses : Nat
  evictions : Nat

namespace CountedCache
open ResultCache (size sizeBytes)

def new (maxEntries maxBytes ttlMs : Nat) : CountedCache := ⟨maxEntries, maxBytes, ttlMs, .empty, 0, 0, 0, 0⟩

def enabled (c : CountedCache) : Bool := 0 < c.maxEntries && 0 < c.maxBytes && 0 < c.ttlMs

def drop (c : CountedCache) (key : Text) (e : CacheEntry) : CountedCache :=
  { c with map := c.map.delete key, bytes := c.bytes - size (key, e) }

def get (c : CountedCache) (key : Text) (gen : Option Nat) (now : Nat) : Option Text × CountedCache :=
  if !c.enabled then (none, c)
  else match c.map.get key with
    | none => (none, { c with misses := c.misses + 1 })
    | some e =>
      if gen ≠ some e.gen ∨ c.ttlMs < now - e.storedAt then
        (none, { c.drop key e with misses := c.misses + 1 })
      else (some e.json, { c with map := (c.map.delete key).set key e, hits := c.hits + 1 })

/-- The loop of `set`. Without an entry to take, it would throw. -/
def evict (c : CountedCache) : Option CountedCache :=
  if c.maxEntries < c.map.entries.length ∨ c.maxBytes < c.bytes then
    match _h : c.map.entries with
    | [] => none
    | (k, e) :: _ => evict { c.drop k e with evictions := c.evictions + 1 }
  else some c
termination_by c.map.entries.length
decreasing_by
  refine List.length_filter_lt_length_iff_exists.mpr ⟨(k, e), ?_, by simp⟩
  rw [_h]
  exact List.mem_cons_self

/-- `const old = this.map.get(key); if (old) this.drop(key, old)` -/
def dropOld (c : CountedCache) (key : Text) : CountedCache :=
  match c.map.get key with
  | none => c
  | some old => c.drop key old

def set (c : CountedCache) (key vaultId : Text) (gen : Nat) (json : Text) (now : Nat) : Option CountedCache :=
  let e : CacheEntry := ⟨vaultId, gen, json, now⟩
  if !c.enabled || c.maxBytes < 8 * size (key, e) then some c
  else
    let c := c.dropOld key
    evict { c with map := c.map.set key e, bytes := c.bytes + size (key, e) }

def forgetVault (c : CountedCache) (vaultId : Text) : CountedCache :=
  c.map.entries.foldl (fun c x => if x.2.vaultId = vaultId then c.drop x.1 x.2 else c) c

def toResultCache (c : CountedCache) : ResultCache := ⟨c.maxEntries, c.maxBytes, c.ttlMs, c.map⟩

def Counted (c : CountedCache) : Prop := c.bytes = sizeBytes c.map.entries

variable {c : CountedCache} {key : Text} {e : CacheEntry}

theorem sizeBytes_delete {m : KeyedMap Text CacheEntry} (h : m.get key = some e) :
    sizeBytes m.entries = size (key, e) + sizeBytes (m.delete key).entries := by
  rw [sizeBytes, ((KeyedMap.perm_delete h).map size).sum_nat]
  rfl

theorem Counted.drop (h : c.Counted) (he : c.map.get key = some e) : (c.drop key e).Counted := by
  have hsum := sizeBytes_delete he
  unfold Counted CountedCache.drop at *
  dsimp only
  omega

theorem Counted.dropOld (h : c.Counted) (key : Text) : (c.dropOld key).Counted := by
  unfold CountedCache.dropOld
  cases hold : c.map.get key with
  | none => exact h
  | some old => exact h.drop hold

theorem map_dropOld (c : CountedCache) (key : Text) : (c.dropOld key).map = c.map.delete key := by
  unfold CountedCache.dropOld
  cases hold : c.map.get key with
  | none => exact (KeyedMap.delete_of_get_none hold).symm
  | some old => rfl

theorem evict_of_le (hcount : c.map.entries.length ≤ c.maxEntries) (hbytes : c.bytes ≤ c.maxBytes) :
    c.evict = some c := by
  rw [evict, if_neg (by omega)]

theorem evict_cons {rest : List (Text × CacheEntry)} (hentries : c.map.entries = (key, e) :: rest)
    (hover : c.maxEntries < c.map.entries.length ∨ c.maxBytes < c.bytes) :
    c.evict = evict { c.drop key e with evictions := c.evictions + 1 } := by
  rw [evict, if_pos hover]
  split
  · rename_i hnil
    rw [hentries] at hnil
    cases hnil
  · rename_i k' e' rest' hcons
    rw [hentries] at hcons
    cases hcons
    rfl

theorem evict_spec (h : c.Counted) : ∃ c', c.evict = some c' ∧ c'.Counted ∧
    c'.map.entries = ResultCache.evict c.maxEntries c.maxBytes c.map.entries ∧
    (c'.maxEntries, c'.maxBytes, c'.ttlMs) = (c.maxEntries, c.maxBytes, c.ttlMs) := by
  induction hentries : c.map.entries generalizing c with
  | nil =>
    have hbytes : c.bytes = 0 := by rw [h, hentries]; rfl
    exact ⟨c, evict_of_le (by simp [hentries]) (by omega), h, hentries, rfl⟩
  | cons x rest ih =>
    obtain ⟨key, e⟩ := x
    have he : c.map.get key = some e := by
      rw [← KeyedMap.mem_iff, hentries]
      exact List.mem_cons_self
    have hbytes : c.bytes = sizeBytes ((key, e) :: rest) := by rw [h, hentries]
    rw [ResultCache.evict, ← hentries]
    by_cases hover : c.maxEntries < c.map.entries.length ∨ c.maxBytes < c.bytes
    · obtain ⟨c', hevict, hcounted, hkept, hsame⟩ := ih (c := { c.drop key e with evictions := c.evictions + 1 })
        (h.drop he) (KeyedMap.entries_delete_cons hentries)
      have hover' : c.maxEntries < c.map.entries.length ∨ c.maxBytes < sizeBytes c.map.entries := by
        rw [hentries] at hover ⊢
        omega
      rw [evict_cons hentries hover, if_pos hover']
      exact ⟨c', hevict, hcounted, hkept, hsame⟩
    · have hover' : ¬(c.maxEntries < c.map.entries.length ∨ c.maxBytes < sizeBytes c.map.entries) := by
        rw [hentries] at hover ⊢
        omega
      rw [if_neg hover']
      exact ⟨c, evict_of_le (by omega) (by omega), h, rfl, rfl⟩

/-- Both bounds hold of what stays. With the last of those that left, they would not. -/
structure Evicted (maxEntries maxBytes : Nat) (entries kept : List (Text × CacheEntry)) : Prop where
  count_le : kept.length ≤ maxEntries
  bytes_le : sizeBytes kept ≤ maxBytes
  oldest : ∃ gone, entries = gone ++ kept ∧
    ∀ before e, gone = before ++ [e] → maxEntries < (e :: kept).length ∨ maxBytes < sizeBytes (e :: kept)

theorem evicted_evict (maxEntries maxBytes : Nat) (entries : List (Text × CacheEntry)) :
    Evicted maxEntries maxBytes entries (ResultCache.evict maxEntries maxBytes entries) := by
  induction entries with
  | nil => exact ⟨Nat.zero_le _, Nat.zero_le _, [], rfl, by simp⟩
  | cons x rest ih =>
    rw [ResultCache.evict]
    split
    · rename_i hover
      obtain ⟨hcount, hbytes, gone, hsplit, hlast⟩ := ih
      refine ⟨hcount, hbytes, x :: gone, by rw [List.cons_append, ← hsplit], ?_⟩
      intro before e hgone
      cases before with
      | nil =>
        obtain ⟨rfl, rfl⟩ := List.cons.inj hgone
        rw [hsplit] at hover
        exact hover
      | cons y before => exact hlast before e (List.cons.inj hgone).2
    · rename_i hover
      have hle := not_or.mp hover
      exact ⟨not_lt.mp hle.1, not_lt.mp hle.2, [], rfl, by simp⟩

theorem Counted.add (h : c.Counted) (hkey : key ∉ c.map.entries.map Prod.fst) :
    Counted { c with map := c.map.set key e, bytes := c.bytes + size (key, e) } := by
  unfold Counted at *
  rw [h, KeyedMap.entries_set hkey, sizeBytes, sizeBytes, List.map_append, List.sum_append, List.map_singleton,
    List.sum_singleton]
  rfl

theorem set_spec (h : c.Counted) (key vaultId : Text) (gen : Nat) (json : Text) (now : Nat) :
    ∃ c', c.set key vaultId gen json now = some c' ∧ c'.Counted ∧
      c'.toResultCache = c.toResultCache.set key vaultId gen json now := by
  by_cases hskip : (!c.enabled || c.maxBytes < 8 * size (key, ⟨vaultId, gen, json, now⟩)) = true
  · exact ⟨c, if_pos hskip, h, (if_pos hskip).symm⟩
  · have hmap := map_dropOld c key
    have hkey : key ∉ (c.dropOld key).map.entries.map Prod.fst := by
      rw [hmap, KeyedMap.mem_keys, KeyedMap.get_delete, if_pos rfl]
      simp
    have hbounds : (c.dropOld key).maxEntries = c.maxEntries ∧ (c.dropOld key).maxBytes = c.maxBytes ∧
        (c.dropOld key).ttlMs = c.ttlMs := by
      unfold dropOld
      split <;> exact ⟨rfl, rfl, rfl⟩
    obtain ⟨c', hevict, hcounted, hkept, hsame⟩ := evict_spec ((h.dropOld key).add (e := ⟨vaultId, gen, json, now⟩) hkey)
    refine ⟨c', (if_neg hskip).trans hevict, hcounted, Eq.trans ?_ (if_neg hskip).symm⟩
    obtain ⟨maxEntries, maxBytes, ttlMs, map, bytes, hits, misses, evictions⟩ := c'
    simp only [hmap, hbounds, Prod.mk.injEq] at hkept hsame
    obtain ⟨rfl, rfl, rfl⟩ := hsame
    refine (ResultCache.mk.injEq ..).mpr ⟨rfl, rfl, rfl, KeyedMap.ext hkept⟩

theorem get_cases (c : CountedCache) (key : Text) (gen : Option Nat) (now : Nat) :
    ((c.get key gen now).1 = none ∧ (c.get key gen now).2.map.entries.Sublist c.map.entries ∧
      (c.get key gen now).2.maxEntries = c.maxEntries ∧ (c.get key gen now).2.maxBytes = c.maxBytes ∧
      (c.get key gen now).2.ttlMs = c.ttlMs) ∨
    ∃ e, c.map.get key = some e ∧ gen = some e.gen ∧ c.get key gen now =
      (some e.json, { c with map := (c.map.delete key).set key e, hits := c.hits + 1 }) := by
  unfold get
  split
  · exact .inl ⟨rfl, List.Sublist.refl _, rfl, rfl, rfl⟩
  · cases he : c.map.get key with
    | none => exact .inl ⟨rfl, List.Sublist.refl _, rfl, rfl, rfl⟩
    | some e =>
      dsimp only
      split
      · exact .inl ⟨rfl, List.filter_sublist, rfl, rfl, rfl⟩
      · rename_i hgood
        exact .inr ⟨e, rfl, not_not.mp (not_or.mp hgood).1, rfl⟩

theorem Counted.get (h : c.Counted) (gen : Option Nat) (now : Nat) : (c.get key gen now).2.Counted := by
  unfold CountedCache.get
  split
  · exact h
  · cases he : c.map.get key with
    | none => exact h
    | some e =>
      dsimp only
      split
      · exact h.drop he
      · have hkey : key ∉ (c.drop key e).map.entries.map Prod.fst := by
          rw [KeyedMap.mem_keys]
          exact not_not.mpr (KeyedMap.get_delete.trans (if_pos rfl))
        have hadd := (h.drop he).add (e := e) hkey
        unfold Counted CountedCache.drop at *
        dsimp only at *
        omega

theorem foldl_drop (p : Text × CacheEntry → Prop) [DecidablePred p] {entries : List (Text × CacheEntry)}
    (hnodup : (entries.map Prod.fst).Nodup) (h : c.Counted) (hmem : ∀ x ∈ entries, x ∈ c.map.entries) :
    (entries.foldl (fun c x => if p x then c.drop x.1 x.2 else c) c).Counted ∧
      (entries.foldl (fun c x => if p x then c.drop x.1 x.2 else c) c).map.entries.Sublist c.map.entries ∧
      (entries.foldl (fun c x => if p x then c.drop x.1 x.2 else c) c).maxEntries = c.maxEntries ∧
      (entries.foldl (fun c x => if p x then c.drop x.1 x.2 else c) c).maxBytes = c.maxBytes ∧
      (entries.foldl (fun c x => if p x then c.drop x.1 x.2 else c) c).ttlMs = c.ttlMs := by
  induction entries generalizing c with
  | nil => exact ⟨h, List.Sublist.refl _, rfl, rfl, rfl⟩
  | cons x rest ih =>
    rw [List.map_cons, List.nodup_cons] at hnodup
    rw [List.foldl_cons]
    by_cases hx : p x
    · rw [if_pos hx]
      have hget : c.map.get x.1 = some x.2 := KeyedMap.mem_iff.mp (hmem x List.mem_cons_self)
      have hrest : ∀ y ∈ rest, y ∈ (c.drop x.1 x.2).map.entries := by
        intro y hy
        have hne : y.1 ≠ x.1 := by
          intro heq
          exact hnodup.1 (heq ▸ List.mem_map_of_mem hy)
        exact List.mem_filter.mpr ⟨hmem y (List.mem_cons_of_mem x hy), by simpa using hne⟩
      obtain ⟨hcounted, hsub, hbounds⟩ := ih hnodup.2 (h.drop hget) hrest
      exact ⟨hcounted, hsub.trans List.filter_sublist, hbounds⟩
    · rw [if_neg hx]
      exact ih hnodup.2 h fun y hy => hmem y (List.mem_cons_of_mem x hy)

def entriesWith (c : CountedCache) (key : Text) (e : CacheEntry) : List (Text × CacheEntry) :=
  (c.map.delete key).entries ++ [(key, e)]

theorem key_not_mem_delete (m : KeyedMap Text CacheEntry) (key : Text) : key ∉ (m.delete key).entries.map Prod.fst := by
  rw [KeyedMap.mem_keys, KeyedMap.get_delete, if_pos rfl]
  simp

theorem InUseOrder.entriesWith {log : List Text} (h : InUseOrder log (c.map.entries.map Prod.fst)) (key : Text)
    (e : CacheEntry) : InUseOrder (log ++ [key]) ((c.entriesWith key e).map Prod.fst) := by
  rw [CountedCache.entriesWith, List.map_append]
  exact (h.sublist (List.filter_sublist.map Prod.fst)).use (key_not_mem_delete c.map key)

theorem set_cases (h : c.Counted) (key vaultId : Text) (gen : Nat) (json : Text) (now : Nat) :
    ((!c.enabled || c.maxBytes < 8 * size (key, ⟨vaultId, gen, json, now⟩)) = true ∧
      c.set key vaultId gen json now = some c) ∨
    ((!c.enabled || c.maxBytes < 8 * size (key, ⟨vaultId, gen, json, now⟩)) = false ∧
      ∃ c', c.set key vaultId gen json now = some c' ∧ c'.Counted ∧
        (c'.maxEntries = c.maxEntries ∧ c'.maxBytes = c.maxBytes ∧ c'.ttlMs = c.ttlMs) ∧
        Evicted c.maxEntries c.maxBytes (c.entriesWith key ⟨vaultId, gen, json, now⟩) c'.map.entries) := by
  cases hskip : !c.enabled || decide (c.maxBytes < 8 * size (key, ⟨vaultId, gen, json, now⟩)) with
  | true => exact .inl ⟨rfl, if_pos hskip⟩
  | false =>
    obtain ⟨c', hset, hcounted, heq⟩ := set_spec h key vaultId gen json now
    have hset' := heq.trans (if_neg (by rw [Bool.not_eq_true]; exact hskip))
    rw [toResultCache, ResultCache.mk.injEq] at hset'
    obtain ⟨hentries, hbytes, httl, hmap⟩ := hset'
    refine .inr ⟨rfl, c', hset, hcounted, ⟨hentries, hbytes, httl⟩, ?_⟩
    rw [hmap, entriesWith, ← KeyedMap.entries_set (key_not_mem_delete c.map key)]
    exact evicted_evict _ _ _

inductive CacheOp
  | get (key : Text) (gen : Option Nat) (now : Nat)
  | set (key vaultId : Text) (gen : Nat) (json : Text) (now : Nat)
  | forgetVault (vaultId : Text)

def step (c : CountedCache) : CacheOp → Option CountedCache
  | .get key gen now => some (c.get key gen now).2
  | .set key vaultId gen json now => c.set key vaultId gen json now
  | .forgetVault vaultId => some (c.forgetVault vaultId)

def run (c : CountedCache) : List CacheOp → Option CountedCache
  | [] => some c
  | op :: ops => (c.step op).bind fun c' => c'.run ops

/-- What an operation uses: the key of a hit, or of a value that is kept. -/
def used (c : CountedCache) : CacheOp → List Text
  | .get key gen now => if (c.get key gen now).1.isSome then [key] else []
  | .set key vaultId gen json now =>
    if !c.enabled || c.maxBytes < 8 * size (key, ⟨vaultId, gen, json, now⟩) then [] else [key]
  | .forgetVault _ => []

def uses (c : CountedCache) : List CacheOp → List Text
  | [] => []
  | op :: ops => c.used op ++ (c.step op).elim [] fun c' => c'.uses ops

/-- What holds after the operations `done`, when `log` is what they used. -/
structure Inv (maxEntries maxBytes ttlMs : Nat) (done : List CacheOp) (log : List Text) (c : CountedCache) : Prop where
  bounds : c.maxEntries = maxEntries ∧ c.maxBytes = maxBytes ∧ c.ttlMs = ttlMs
  counted : c.Counted
  count_le : c.map.entries.length ≤ maxEntries
  bytes_le : sizeBytes c.map.entries ≤ maxBytes
  order : InUseOrder log (c.map.entries.map Prod.fst)
  origin : ∀ x ∈ c.map.entries, .set x.1 x.2.vaultId x.2.gen x.2.json x.2.storedAt ∈ done

section Steps
variable {maxEntries maxBytes ttlMs : Nat} {done : List CacheOp} {log : List Text}

theorem sizeBytes_sublist {a b : List (Text × CacheEntry)} (h : a.Sublist b) : sizeBytes a ≤ sizeBytes b := by
  induction h with
  | slnil => rfl
  | cons x _ ih =>
    refine ih.trans ?_
    exact Nat.le_add_left ..
  | cons_cons x _ ih =>
    unfold sizeBytes at ih ⊢
    rw [List.map_cons, List.map_cons, List.sum_cons, List.sum_cons]
    omega

section
variable (h : Inv maxEntries maxBytes ttlMs done log c)
include h

theorem Inv.sublist {c' : CountedCache} (op : CacheOp)
    (hbounds : c'.maxEntries = c.maxEntries ∧ c'.maxBytes = c.maxBytes ∧ c'.ttlMs = c.ttlMs) (hcounted : c'.Counted)
    (hsub : c'.map.entries.Sublist c.map.entries) : Inv maxEntries maxBytes ttlMs (done ++ [op]) log c' where
  bounds := ⟨hbounds.1.trans h.bounds.1, hbounds.2.1.trans h.bounds.2.1, hbounds.2.2.trans h.bounds.2.2⟩
  counted := hcounted
  count_le := hsub.length_le.trans h.count_le
  bytes_le := (sizeBytes_sublist hsub).trans h.bytes_le
  order := h.order.sublist (hsub.map Prod.fst)
  origin x hx := List.mem_append_left _ (h.origin x (hsub.subset hx))

theorem Inv.get (key : Text) (gen : Option Nat) (now : Nat) :
    Inv maxEntries maxBytes ttlMs (done ++ [.get key gen now]) (log ++ c.used (.get key gen now)) (c.get key gen now).2 := by
  have hcounted : (c.get key gen now).2.Counted := h.counted.get gen now
  obtain ⟨hmiss, hsub, hbounds⟩ | ⟨e, he, -, hhit⟩ := c.get_cases key gen now
  · have hused : c.used (.get key gen now) = [] := by simp [used, hmiss]
    rw [hused, List.append_nil]
    exact h.sublist _ hbounds hcounted hsub
  · have hused : c.used (.get key gen now) = [key] := by simp [used, hhit]
    have hentries : (c.get key gen now).2.map.entries = c.entriesWith key e := by
      rw [hhit]
      exact KeyedMap.entries_set (key_not_mem_delete c.map key)
    have hperm : (c.entriesWith key e).Perm c.map.entries :=
      (List.perm_append_singleton _ _).trans (KeyedMap.perm_delete he).symm
    refine ⟨by rw [hhit]; exact h.bounds, hcounted, ?_, ?_, ?_, ?_⟩
    · rw [hentries, hperm.length_eq]
      exact h.count_le
    · rw [hentries, sizeBytes, (hperm.map size).sum_nat]
      exact h.bytes_le
    · rw [hused, hentries]
      exact InUseOrder.entriesWith h.order key e
    · intro x hx
      rw [hentries] at hx
      exact List.mem_append_left _ (h.origin x (hperm.subset hx))

theorem Inv.set (key vaultId : Text) (gen : Nat) (json : Text) (now : Nat) :
    ∃ c', c.set key vaultId gen json now = some c' ∧
      Inv maxEntries maxBytes ttlMs (done ++ [.set key vaultId gen json now])
        (log ++ c.used (.set key vaultId gen json now)) c' := by
  obtain ⟨hskip, hset⟩ | ⟨hkept, c', hset, hcounted, hbounds, hevicted⟩ := set_cases h.counted key vaultId gen json now
  · have hused : c.used (.set key vaultId gen json now) = [] := if_pos hskip
    rw [hused, List.append_nil]
    exact ⟨c, hset, h.sublist _ ⟨rfl, rfl, rfl⟩ h.counted (List.Sublist.refl _)⟩
  · have hused : c.used (.set key vaultId gen json now) = [key] := if_neg (by rw [hkept]; simp)
    obtain ⟨hentries, hbytes, httl⟩ := h.bounds
    rw [hentries, hbytes] at hevicted
    obtain ⟨gone, hsplit, -⟩ := hevicted.oldest
    have hsub : c'.map.entries.Sublist (c.entriesWith key ⟨vaultId, gen, json, now⟩) := by
      rw [hsplit]
      exact List.sublist_append_right gone _
    refine ⟨c', hset, ⟨hbounds.1.trans hentries, hbounds.2.1.trans hbytes, hbounds.2.2.trans httl⟩, hcounted,
      hevicted.count_le, hevicted.bytes_le, ?_, ?_⟩
    · rw [hused]
      exact (InUseOrder.entriesWith h.order key _).sublist (hsub.map Prod.fst)
    · intro x hx
      obtain hold | hnew := List.mem_append.mp (hsub.subset hx)
      · exact List.mem_append_left _ (h.origin x (List.mem_of_mem_filter hold))
      · obtain rfl := List.mem_singleton.mp hnew
        exact List.mem_append_right _ List.mem_cons_self

theorem Inv.step (op : CacheOp) :
    ∃ c', c.step op = some c' ∧ Inv maxEntries maxBytes ttlMs (done ++ [op]) (log ++ c.used op) c' := by
  cases op with
  | get key gen now => exact ⟨_, rfl, h.get key gen now⟩
  | set key vaultId gen json now => exact h.set key vaultId gen json now
  | forgetVault vaultId =>
    obtain ⟨hcounted, hsub, hbounds⟩ := foldl_drop (fun x => x.2.vaultId = vaultId) c.map.nodup h.counted fun _ hx => hx
    refine ⟨_, rfl, ?_⟩
    have hused : c.used (.forgetVault vaultId) = [] := rfl
    rw [hused, List.append_nil]
    exact h.sublist _ hbounds hcounted hsub

theorem Inv.run (ops : List CacheOp) :
    ∃ c', c.run ops = some c' ∧ Inv maxEntries maxBytes ttlMs (done ++ ops) (log ++ c.uses ops) c' := by
  induction ops generalizing c done log with
  | nil => exact ⟨c, rfl, by simpa [uses] using h⟩
  | cons op ops ih =>
    obtain ⟨c', hstep, hinv⟩ := h.step op
    obtain ⟨c'', hrun, hfinal⟩ := ih hinv
    refine ⟨c'', by rw [CountedCache.run, hstep, Option.bind_some, hrun], ?_⟩
    rw [uses, hstep, Option.elim_some, ← List.append_assoc]
    rwa [List.append_assoc] at hfinal

end

theorem Inv.new (maxEntries maxBytes ttlMs : Nat) :
    Inv maxEntries maxBytes ttlMs [] [] (new maxEntries maxBytes ttlMs) where
  bounds := ⟨rfl, rfl, rfl⟩
  counted := rfl
  count_le := Nat.zero_le _
  bytes_le := Nat.zero_le _
  order := List.Pairwise.nil
  origin _ hx := by cases hx

end Steps

/-- After any operations: the counter is right, both bounds hold, and a read gives only what was set under its
key and generation. The entries stand in the order of their last use; a value that is too large is not kept,
and for another one the first entries leave, no more of them than the bounds ask. -/
theorem cache_accounting (maxEntries maxBytes ttlMs : Nat) (ops : List CacheOp) :
    ∃ c, run (new maxEntries maxBytes ttlMs) ops = some c ∧
      c.bytes = sizeBytes c.map.entries ∧ c.map.entries.length ≤ maxEntries ∧ c.bytes ≤ maxBytes ∧
      (∀ key gen now json, (c.get key gen now).1 = some json → ∃ vaultId n storedAt, gen = some n ∧
        .set key vaultId n json storedAt ∈ ops) ∧
      InUseOrder (uses (new maxEntries maxBytes ttlMs) ops) (c.map.entries.map Prod.fst) ∧
      ∀ key vaultId gen json now,
        (maxBytes < 8 * size (key, ⟨vaultId, gen, json, now⟩) → c.set key vaultId gen json now = some c) ∧
        (c.enabled = true → 8 * size (key, ⟨vaultId, gen, json, now⟩) ≤ maxBytes → ∃ c',
          c.set key vaultId gen json now = some c' ∧
          InUseOrder (uses (new maxEntries maxBytes ttlMs) ops ++ [key])
            ((c.entriesWith key ⟨vaultId, gen, json, now⟩).map Prod.fst) ∧
          Evicted maxEntries maxBytes (c.entriesWith key ⟨vaultId, gen, json, now⟩) c'.map.entries) := by
  obtain ⟨c, hrun, hinv⟩ := (Inv.new maxEntries maxBytes ttlMs).run ops
  obtain ⟨hentries, hbytes, -⟩ := hinv.bounds
  refine ⟨c, hrun, hinv.counted, hinv.count_le, ?_, ?_, hinv.order, ?_⟩
  · rw [hinv.counted]
    exact_mod_cast hinv.bytes_le
  · intro key gen now json hget
    obtain ⟨hmiss, -⟩ | ⟨e, he, rfl, hhit⟩ := c.get_cases key gen now
    · rw [hmiss] at hget
      cases hget
    · rw [hhit] at hget
      obtain rfl := Option.some.inj hget
      exact ⟨e.vaultId, e.gen, e.storedAt, rfl, hinv.origin _ (KeyedMap.mem_iff.mpr he)⟩
  · intro key vaultId gen json now
    obtain ⟨hskip, hset⟩ | ⟨hkept, c', hset, -, -, hevicted⟩ := set_cases hinv.counted key vaultId gen json now
    · refine ⟨fun _ => hset, ?_⟩
      intro henabled hsize
      simp only [henabled, hbytes, Bool.not_true, Bool.false_or, decide_eq_true_eq] at hskip
      omega
    · rw [hentries, hbytes] at hevicted
      refine ⟨?_, fun _ _ => ⟨c', hset, InUseOrder.entriesWith hinv.order key _, hevicted⟩⟩
      intro hlarge
      rw [← hbytes] at hlarge
      simp [hlarge] at hkept

end CountedCache
end Savoire.Indexer
