import Savoire.Search.Cursor

/-! The pages of a search in one vault: the hits in their order, each page from after the last hit of
the one before. -/
namespace Savoire.GlobalSearch
open Paging (Source)
open Query (PageHost Payload field encodeOpaque decodeOpaque)

structure SearchHit where
  id : Text
  score : ℚ
  deriving DecidableEq

structure Hit where
  vaultId : Text
  id : Text
  score : ℚ
  deriving DecidableEq

def SearchHit.withVault (h : SearchHit) (vaultId : Text) : Hit := ⟨vaultId, h.id, h.score⟩

/-- Vault ids compare by their UTF-16 units, and the ids that SQLite sorts by their characters. -/
def Hit.key (h : Hit) : ℚᵒᵈ ×ₗ List ℕ ×ₗ Text :=
  toLex (OrderDual.toDual h.score, toLex (h.vaultId.flatMap Utf.utf16, h.id))

theorem units_injective {a b : Text} (h : a.flatMap Utf.utf16 = b.flatMap Utf.utf16) : a = b :=
  Utf.eq_of_utf16_not_lt (by rw [h]; exact lt_irrefl _) (by rw [h]; exact lt_irrefl _)

theorem Hit.key_injective : Function.Injective Hit.key := by
  rintro ⟨v, i, x⟩ ⟨w, j, y⟩ h
  have hscore := congrArg (fun k => (ofLex k).1) h
  have hvault := congrArg (fun k => (ofLex (ofLex k).2).1) h
  have hid := congrArg (fun k => (ofLex (ofLex k).2).2) h
  obtain rfl : x = y := OrderDual.toDual.injective hscore
  obtain rfl : v = w := units_injective hvault
  obtain rfl : i = j := hid
  rfl

/-- Score from high to low, then vault id, then id. -/
instance : LinearOrder Hit := LinearOrder.lift' Hit.key Hit.key_injective

theorem Hit.lt_iff {a b : Hit} : a < b ↔ b.score < a.score ∨ a.score = b.score ∧
    (a.vaultId.flatMap Utf.utf16 < b.vaultId.flatMap Utf.utf16 ∨ a.vaultId = b.vaultId ∧ a.id < b.id) := by
  have hvault : a.vaultId.flatMap Utf.utf16 = b.vaultId.flatMap Utf.utf16 ↔ a.vaultId = b.vaultId :=
    ⟨units_injective, fun h => by rw [h]⟩
  change a.key < b.key ↔ _
  simp only [Hit.key, Prod.Lex.toLex_lt_toLex, OrderDual.toDual_lt_toDual, OrderDual.toDual_inj, hvault]

def Before (a b : SearchHit) : Prop := b.score < a.score ∨ a.score = b.score ∧ a.id < b.id

instance (a b : SearchHit) : Decidable (Before a b) := inferInstanceAs (Decidable (_ ∨ _))

theorem withVault_lt_iff {a b : SearchHit} {vaultId : Text} : a.withVault vaultId < b.withVault vaultId ↔ Before a b := by
  rw [Hit.lt_iff]
  simp [Before, SearchHit.withVault]

def maxLimit : ℕ := 500

structure SearchResult where
  hits : List SearchHit
  next : Option Text
  total : ℕ

section
variable (host : PageHost)

/-- `{ q, s, id }` -/
def lastJson (key : Text) (last : SearchHit) : Payload :=
  .obj [("q".toList, .str key), ("s".toList, .num last.score), ("id".toList, .str last.id)]

/-- `decodeCursor` of the search power. -/
def decodeLast (cursor key : Text) : Option SearchHit :=
  match decodeOpaque host cursor with
  | none => none
  | some c =>
    match field "q".toList c, field "s".toList c, field "id".toList c with
    | some (.str q), some (.num s), some (.str id) => if q = key then some ⟨id, s⟩ else none
    | _, _, _ => none

/-- Where a page starts: none is an unreadable cursor. -/
def lastOf (key : Text) : Option Text → Option (Option SearchHit)
  | none => some none
  | some c => (decodeLast host c key).map some

/-- `runSearch`, where `results` are the rows of the query in their order and `key` is its hash; none
is an error of the request. -/
def runSearch (key : Text) (results : List SearchHit) (cursor : Option Text) (limit : ℕ) : Option SearchResult :=
  if limit < 1 ∨ maxLimit < limit then none
  else
    (lastOf host key cursor).map fun last =>
      let page := (results.filter fun h => last.all fun l => decide (Before l h)).take (limit + 1)
      let shown := page.take limit
      { hits := shown
        next := if limit < page.length then (shown.getLast?).map fun l => encodeOpaque host (lastJson key l) else none
        total := results.length }

theorem decodeLast_encode (key : Text) (last : SearchHit) :
    decodeLast host (encodeOpaque host (lastJson key last)) key = some last := by
  have hq : field "q".toList (lastJson key last) = some (.str key) := rfl
  have hs : field "s".toList (lastJson key last) = some (.num last.score) := rfl
  have hid : field "id".toList (lastJson key last) = some (.str last.id) := rfl
  simp only [decodeLast, Query.decodeOpaque_encodeOpaque, hq, hs, hid, if_true]

variable {host} {key vaultId : Text} {results : List SearchHit} {c : Option Text} {limit : ℕ}
  {x : Hit}

def hitsOf (vaultId : Text) (results : List SearchHit) : List Hit := results.map (·.withVault vaultId)

theorem hitsOf_sorted (h : results.Pairwise Before) : (hitsOf vaultId results).Pairwise (· < ·) :=
  List.pairwise_map.2 (h.imp withVault_lt_iff.2)

theorem filter_after (h : results.Pairwise Before) (last : Option SearchHit) :
    hitsOf vaultId (results.filter fun h => last.all fun l => decide (Before l h)) =
      Keyset.rest (last.map (·.withVault vaultId)) (hitsOf vaultId results) := by
  refine Keyset.eq_of_sorted (hitsOf_sorted (h.filter _))
    (Keyset.rest_sorted _ ((hitsOf_sorted h).imp ne_of_lt)) fun x => ?_
  rw [Keyset.mem_rest, hitsOf, hitsOf, List.mem_map, List.mem_map]
  constructor
  · rintro ⟨a, ha, rfl⟩
    obtain ⟨ha, hlast⟩ := List.mem_filter.1 ha
    refine ⟨⟨a, ha, rfl⟩, fun l hl => ?_⟩
    obtain ⟨l, rfl, rfl⟩ := Option.map_eq_some_iff.1 hl
    exact withVault_lt_iff.2 (by simpa using hlast)
  · rintro ⟨⟨a, ha, rfl⟩, hlast⟩
    refine ⟨a, List.mem_filter.2 ⟨ha, ?_⟩, rfl⟩
    cases last with
    | none => rfl
    | some l => simpa using withVault_lt_iff.1 (hlast _ rfl)

/-- What a cursor leaves of a vault. -/
def vaultRest (host : PageHost) (key vaultId : Text) (results : List SearchHit) (c : Option Text) : List Hit :=
  (lastOf host key c).elim [] fun last => Keyset.rest (last.map (·.withVault vaultId)) (hitsOf vaultId results)

/-- A cursor that JavaScript takes for true. -/
def truthy (c : Option Text) : Option Text := c.filter fun t => t ≠ []

def vaultFetch (host : PageHost) (key vaultId : Text) (results : List SearchHit) (c : Option Text) (limit : ℕ) :
    Option (List Hit × Option Text) :=
  (runSearch host key results (truthy c) limit).map fun r => (hitsOf vaultId r.hits, truthy r.next)

/-- The cursor is one of the search. -/
def VaultProper (host : PageHost) (key : Text) (c : Option Text) : Prop := truthy c = c ∧ lastOf host key c ≠ none

theorem truthy_encode (payload : Payload) : truthy (some (encodeOpaque host payload)) = some (encodeOpaque host payload) := by
  simp [truthy, Query.encodeOpaque_ne_nil]

theorem vaultFetch_spec (h : results.Pairwise Before) (hlimit : 1 ≤ limit) (hproper : VaultProper host key c)
    (hmax : limit ≤ maxLimit) :
    ∃ hits next, vaultFetch host key vaultId results c limit = some (hits, next) ∧
      vaultRest host key vaultId results c = hits ++ next.elim [] (vaultRest host key vaultId results ∘ some) ∧
      ∀ c' ∈ next, VaultProper host key (some c') ∧
        (vaultRest host key vaultId results (some c')).length < (vaultRest host key vaultId results c).length := by
  obtain ⟨htruthy, hreadable⟩ := hproper
  obtain ⟨last, hlast⟩ := Option.ne_none_iff_exists'.1 hreadable
  have hrest : vaultRest host key vaultId results c =
      hitsOf vaultId (results.filter fun h => last.all fun l => decide (Before l h)) := by
    rw [filter_after h, vaultRest, hlast]
    rfl
  rw [hrest, vaultFetch, htruthy, runSearch, if_neg (by omega), hlast, Option.map_some, Option.map_some]
  generalize hrows : (results.filter fun h => last.all fun l => decide (Before l h)) = rows
  have htake : (rows.take (limit + 1)).take limit = rows.take limit := by rw [List.take_take, min_eq_left (by omega)]
  refine ⟨_, _, rfl, ?_⟩
  dsimp only
  rw [htake]
  by_cases hmore : limit < rows.length
  · have hlength : limit < (rows.take (limit + 1)).length := by rw [List.length_take]; omega
    have hne : rows.take limit ≠ [] := by
      rw [← List.length_pos_iff, List.length_take]
      omega
    obtain ⟨l, hl⟩ := Option.ne_none_iff_exists'.1 (mt List.getLast?_eq_none_iff.1 hne)
    rw [if_pos hlength, hl, Option.map_some, truthy_encode, Option.elim_some, Function.comp_apply]
    -- the cursor stands after the last hit shown
    have hnext : vaultRest host key vaultId results (some (encodeOpaque host (lastJson key l))) =
        hitsOf vaultId (rows.drop limit) := by
      have hsplit : Keyset.rest (last.map (·.withVault vaultId)) (hitsOf vaultId results) =
          hitsOf vaultId (rows.take limit) ++ hitsOf vaultId (rows.drop limit) := by
        rw [← filter_after h, hrows, hitsOf, hitsOf, hitsOf, ← List.map_append, List.take_append_drop]
      have hafter := Keyset.rest_after ((hitsOf_sorted h).imp ne_of_lt) hsplit
      rw [Keyset.after, hitsOf, List.getLast?_map, hl, Option.map_some, Option.some_or] at hafter
      rw [vaultRest, lastOf, decodeLast_encode, Option.map_some, Option.elim_some, Option.map_some]
      exact hafter
    refine ⟨?_, fun c' hc' => ?_⟩
    · rw [hnext, hitsOf, hitsOf, hitsOf, ← List.map_append, List.take_append_drop]
    · rw [← Option.some.inj hc']
      refine ⟨⟨truthy_encode _, by simp [lastOf, decodeLast_encode]⟩, ?_⟩
      rw [hnext, hitsOf, hitsOf, List.length_map, List.length_map, List.length_drop]
      omega
  · have hlength : ¬ limit < (rows.take (limit + 1)).length := by rw [List.length_take]; omega
    rw [if_neg hlength, List.take_of_length_le (Nat.le_of_not_lt hmore)]
    exact ⟨(List.append_nil _).symm, fun c' hc' => by cases hc'⟩

def vaultSource (host : PageHost) (key vaultId : Text) (results : List SearchHit) (h : results.Pairwise Before) :
    Source Hit Text where
  fetch := vaultFetch host key vaultId results
  rest := vaultRest host key vaultId results
  size c := (vaultRest host key vaultId results c).length
  Proper := VaultProper host key
  Fits _ limit := limit ≤ maxLimit
  proper_none := ⟨rfl, by simp [lastOf]⟩
  sorted c := by
    unfold vaultRest
    cases lastOf host key c with
    | none => exact .nil
    | some last => exact Keyset.rest_sorted _ ((hitsOf_sorted h).imp ne_of_lt)
  page c _ hlimit hproper hmax := vaultFetch_spec h hlimit hproper hmax

theorem vaultId_of_mem (h : x ∈ vaultRest host key vaultId results c) : x.vaultId = vaultId := by
  unfold vaultRest at h
  cases hlast : lastOf host key c with
  | none =>
    rw [hlast] at h
    cases h
  | some last =>
    rw [hlast, Option.elim_some] at h
    obtain ⟨a, -, rfl⟩ := List.mem_map.1 (Keyset.mem_rest.1 h).1
    rfl

end
end Savoire.GlobalSearch
