import Savoire.Library.KeyedMap
import Savoire.Library.Utf
import Savoire.Text

/-! The cache of the results of calls: an entry serves for one generation of the index of its vault, and
for a time. -/
namespace Savoire.Indexer

/-- A call of the protocol. Vault ids and names hold no NUL. -/
structure Request where
  vaultId : Text
  capability : Text
  method : Text
  params : Text
  vaultId_clean : Char.ofNat 0 ∉ vaultId
  capability_clean : Char.ofNat 0 ∉ capability
  method_clean : Char.ofNat 0 ∉ method
  deriving DecidableEq

structure CacheEntry where
  vaultId : Text
  gen : Nat
  json : Text
  storedAt : Nat
  deriving DecidableEq

structure ResultCache where
  maxEntries : Nat
  maxBytes : Nat
  ttlMs : Nat
  map : KeyedMap Text CacheEntry

namespace ResultCache
def enabled (c : ResultCache) : Bool := 0 < c.maxEntries && 0 < c.maxBytes && 0 < c.ttlMs

def key (r : Request) : Text :=
  r.vaultId ++ Char.ofNat 0 :: (r.capability ++ Char.ofNat 0 :: (r.method ++ Char.ofNat 0 :: r.params))

/-- `key.length + json.length` -/
def size (e : Text × CacheEntry) : Nat := (e.1.flatMap Utf.utf16).length + (e.2.json.flatMap Utf.utf16).length

def sizeBytes (entries : List (Text × CacheEntry)) : Nat := (entries.map size).sum

/-- The result, when it is still good for this generation; it becomes the most recent entry. -/
def get (c : ResultCache) (key : Text) (gen : Option Nat) (now : Nat) : Option Text × ResultCache :=
  if !c.enabled then (none, c)
  else match c.map.get key with
    | none => (none, c)
    | some e =>
      if gen ≠ some e.gen ∨ c.ttlMs < now - e.storedAt then (none, { c with map := c.map.delete key })
      else (some e.json, { c with map := (c.map.delete key).set key e })

/-- The oldest entries leave until both bounds hold. -/
def evict (maxEntries maxBytes : Nat) : List (Text × CacheEntry) → List (Text × CacheEntry)
  | [] => []
  | e :: rest =>
    if maxEntries < (e :: rest).length ∨ maxBytes < sizeBytes (e :: rest) then evict maxEntries maxBytes rest
    else e :: rest

theorem evict_suffix (maxEntries maxBytes : Nat) (entries : List (Text × CacheEntry)) :
    evict maxEntries maxBytes entries <:+ entries := by
  induction entries with
  | nil => exact List.suffix_rfl
  | cons e rest ih =>
    rw [evict]
    split
    · exact ih.trans (List.suffix_cons e rest)
    · exact List.suffix_rfl

/-- A result that takes more than an eighth of the cache is not kept. -/
def set (c : ResultCache) (key vaultId : Text) (gen : Nat) (json : Text) (now : Nat) : ResultCache :=
  let entry : CacheEntry := ⟨vaultId, gen, json, now⟩
  if !c.enabled || c.maxBytes < 8 * size (key, entry) then c
  else
    let map := (c.map.delete key).set key entry
    { c with map := ⟨evict c.maxEntries c.maxBytes map.entries,
        map.nodup.sublist ((evict_suffix _ _ _).sublist.map Prod.fst)⟩ }

variable {c : ResultCache} {k json vaultId : Text} {gen : Option Nat} {now : Nat}

theorem key_inj {r r' : Request} (h : key r = key r') : r = r' := by
  have cut : ∀ {u v u' v' : Text}, Char.ofNat 0 ∉ u → Char.ofNat 0 ∉ u' →
      u ++ Char.ofNat 0 :: v = u' ++ Char.ofNat 0 :: v' → u = u' ∧ v = v' := by
    intro u v u' v' hu hu' heq
    have htake := congrArg (List.takeWhile (· ≠ Char.ofNat 0)) heq
    have hdrop := congrArg (List.dropWhile (· ≠ Char.ofNat 0)) heq
    rw [Text.takeWhile_sep _ _ _ hu, Text.takeWhile_sep _ _ _ hu'] at htake
    rw [Text.dropWhile_sep _ _ _ hu, Text.dropWhile_sep _ _ _ hu'] at hdrop
    exact ⟨htake, List.tail_eq_of_cons_eq hdrop⟩
  obtain ⟨vault, capability, method, params, hvault, hcapability, hmethod⟩ := r
  obtain ⟨vault', capability', method', params', hvault', hcapability', hmethod'⟩ := r'
  obtain ⟨rfl, h⟩ := cut hvault hvault' h
  obtain ⟨rfl, h⟩ := cut hcapability hcapability' h
  obtain ⟨rfl, rfl⟩ := cut hmethod hmethod' h
  rfl

theorem get_eq_some (h : (c.get k gen now).1 = some json) : ∃ e, (k, e) ∈ c.map.entries ∧
    gen = some e.gen ∧ now - e.storedAt ≤ c.ttlMs ∧ e.json = json := by
  unfold get at h
  split at h
  · cases h
  · split at h
    · cases h
    · rename_i e he
      split at h
      · cases h
      · rename_i hgood
        obtain ⟨hgen, htime⟩ := not_or.mp hgood
        exact ⟨e, KeyedMap.mem_iff.mpr he, not_not.mp hgen, not_lt.mp htime, Option.some.inj h⟩

variable {x : Text × CacheEntry}

theorem mem_delete_set {m : KeyedMap Text CacheEntry} {e : CacheEntry}
    (hx : x ∈ ((m.delete k).set k e).entries) : x ∈ m.entries ∨ x = (k, e) := by
  obtain ⟨k', entry⟩ := x
  rw [KeyedMap.mem_iff, KeyedMap.get_set] at hx
  split at hx
  · rename_i hk
    exact .inr (by rw [hk, Option.some.inj hx])
  · rename_i hk
    rw [KeyedMap.get_delete, if_neg hk] at hx
    exact .inl (KeyedMap.mem_iff.mpr hx)

theorem mem_get (hx : x ∈ (c.get k gen now).2.map.entries) : x ∈ c.map.entries := by
  unfold get at hx
  split at hx
  · exact hx
  · split at hx
    · exact hx
    · rename_i e he
      split at hx
      · exact List.mem_of_mem_filter hx
      · obtain h | rfl := mem_delete_set hx
        · exact h
        · exact KeyedMap.mem_iff.mpr he

theorem mem_set {n : Nat} (hx : x ∈ (c.set k vaultId n json now).map.entries) :
    x ∈ c.map.entries ∨ x = (k, ⟨vaultId, n, json, now⟩) := by
  unfold set at hx
  dsimp only at hx
  split at hx
  · exact .inl hx
  · exact mem_delete_set ((evict_suffix _ _ _).subset hx)

@[simp] theorem ttlMs_get : (c.get k gen now).2.ttlMs = c.ttlMs := by
  unfold get
  split
  · rfl
  · split
    · rfl
    · split <;> rfl

@[simp] theorem ttlMs_set {n : Nat} : (c.set k vaultId n json now).ttlMs = c.ttlMs := by
  unfold set
  dsimp only
  split <;> rfl

end ResultCache
end Savoire.Indexer
