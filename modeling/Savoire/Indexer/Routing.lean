import Mathlib.Data.List.MinMax
import Mathlib.Data.List.Lex
import Mathlib.Data.List.Nodup
import Mathlib.Data.Prod.Lex
import Mathlib.Order.OrderDual

/-! Which instance of the indexer owns a vault: the one of the greatest hash of its name with the vault, and of
two with the same hash the one of the least name. A string is its UTF-16 units. -/
namespace Savoire.Indexer.Routing

abbrev Units := List Nat

def isHigh (u : Nat) : Bool := decide (0xD800 ≤ u) && decide (u ≤ 0xDBFF)
def isLow (u : Nat) : Bool := decide (0xDC00 ≤ u) && decide (u ≤ 0xDFFF)

def encode (n : Nat) : List Nat :=
  if n < 0x80 then [n]
  else if n < 0x800 then [0xC0 + n / 64, 0x80 + n % 64]
  else if n < 0x10000 then [0xE0 + n / 4096, 0x80 + n / 64 % 64, 0x80 + n % 64]
  else [0xF0 + n / 262144, 0x80 + n / 4096 % 64, 0x80 + n / 64 % 64, 0x80 + n % 64]

/-- Half a pair alone is written as the replacement character. -/
def utf8 : Units → List Nat
  | [] => []
  | [u] => encode (if isHigh u || isLow u then 0xFFFD else u)
  | u :: v :: text =>
    if isHigh u && isLow v then encode (0x10000 + (u - 0xD800) * 1024 + (v - 0xDC00)) ++ utf8 text
    else encode (if isHigh u || isLow u then 0xFFFD else u) ++ utf8 (v :: text)

def fnvOffsetBasis : UInt64 := 0xcbf29ce484222325
def fnvPrime : UInt64 := 0x100000001b3

def fnv1a64 (text : Units) : UInt64 :=
  (utf8 text).foldl (fun h b => (h ^^^ UInt64.ofNat b) * fnvPrime) fnvOffsetBasis

structure Instance where
  name : Units
  url : Units
  deriving DecidableEq

/-- The hash of `name|vaultId`. -/
def weight (name vaultId : Units) : UInt64 := fnv1a64 (name ++ 124 :: vaultId)

def consider (vaultId : Units) (best : Option Instance × UInt64) (i : Instance) : Option Instance × UInt64 :=
  let w := weight i.name vaultId
  match best.1 with
  | none => (some i, w)
  | some b => if best.2 < w ∨ w = best.2 ∧ i.name < b.name then (some i, w) else best

def ownerOf (vaultId : Units) (instances : List Instance) : Option Instance :=
  (instances.foldl (consider vaultId) (none, 0)).1

def isOwner (name vaultId : Units) (instances : List Instance) : Bool :=
  (ownerOf vaultId instances).map Instance.name == some name

def ascii (s : String) : Units := s.toList.map Char.toNat

example : fnv1a64 (ascii "foobar") = 0x85944171f73967e8 := by decide +kernel

/-- Weights in their order, names the other way round. -/
def rank (vaultId : Units) (i : Instance) : ℕ ×ₗ (List ℕ)ᵒᵈ :=
  toLex ((weight i.name vaultId).toNat, OrderDual.toDual i.name)

theorem rank_lt (vaultId : Units) (b i : Instance) : rank vaultId b < rank vaultId i ↔
    weight b.name vaultId < weight i.name vaultId ∨
      weight i.name vaultId = weight b.name vaultId ∧ i.name < b.name := by
  rw [rank, rank, Prod.Lex.toLex_lt_toLex, UInt64.lt_iff_toNat_lt, ← UInt64.toNat_inj]
  exact or_congr Iff.rfl (and_congr eq_comm OrderDual.toDual_lt_toDual)

theorem rank_name {vaultId : Units} {i j : Instance} (h : rank vaultId i = rank vaultId j) : i.name = j.name :=
  congrArg (fun r : ℕ ×ₗ (List ℕ)ᵒᵈ => OrderDual.ofDual (ofLex r).2) h

theorem foldl_consider (vaultId : Units) (instances : List Instance) (best : Option Instance × UInt64)
    (hbest : ∀ b ∈ best.1, best.2 = weight b.name vaultId) :
    (instances.foldl (consider vaultId) best).1 =
      instances.foldl (List.argAux fun i b => rank vaultId b < rank vaultId i) best.1 := by
  induction instances generalizing best with
  | nil => rfl
  | cons i instances ih =>
    obtain ⟨best, w⟩ := best
    have hnext : ∀ b ∈ (consider vaultId (best, w) i).1, (consider vaultId (best, w) i).2 = weight b.name vaultId := by
      intro b hb
      unfold consider at hb ⊢
      cases best with
      | none =>
        obtain rfl : i = b := Option.some.inj hb
        rfl
      | some b' =>
        dsimp only at hb ⊢
        split at hb
        · rename_i hlt
          obtain rfl : i = b := Option.some.inj hb
          rw [if_pos hlt]
        · rename_i hlt
          rw [if_neg hlt]
          exact hbest b hb
    have hsame : (consider vaultId (best, w) i).1 =
        List.argAux (fun i b => rank vaultId b < rank vaultId i) best i := by
      cases best with
      | none => rfl
      | some b =>
        obtain rfl : w = weight b.name vaultId := hbest b rfl
        simp only [consider, List.argAux, rank_lt]
        split <;> rfl
    rw [List.foldl_cons, List.foldl_cons, ih _ hnext, hsame]

theorem ownerOf_eq_argmax (vaultId : Units) (instances : List Instance) :
    ownerOf vaultId instances = instances.argmax (rank vaultId) :=
  foldl_consider vaultId instances (none, 0) (by simp)

section Distinct
variable {vaultId : Units} {instances : List Instance} {i j : Instance}

theorem eq_of_name (hnames : (instances.map Instance.name).Nodup) (hi : i ∈ instances) (hj : j ∈ instances)
    (hname : i.name = j.name) : i = j :=
  List.inj_on_of_nodup_map hnames hi hj hname

theorem ownerOf_eq_some (hnames : (instances.map Instance.name).Nodup) :
    ownerOf vaultId instances = some i ↔ i ∈ instances ∧ ∀ j ∈ instances, rank vaultId j ≤ rank vaultId i := by
  rw [ownerOf_eq_argmax]
  constructor
  · intro h
    exact ⟨List.argmax_mem h, fun j hj => List.le_of_mem_argmax hj h⟩
  · rintro ⟨hi, hle⟩
    obtain ⟨m, hm⟩ := Option.ne_none_iff_exists'.mp fun hnone : instances.argmax (rank vaultId) = none => by
      rw [List.argmax_eq_none.mp hnone] at hi
      cases hi
    have hrank := le_antisymm (hle m (List.argmax_mem hm)) (List.le_of_mem_argmax hi hm)
    rw [hm, eq_of_name hnames (List.argmax_mem hm) hi (rank_name hrank)]

theorem exists_owner (hne : instances ≠ []) : ∃ i ∈ instances, ownerOf vaultId instances = some i := by
  rw [ownerOf_eq_argmax]
  obtain ⟨i, hi⟩ := Option.ne_none_iff_exists'.mp fun hnone : instances.argmax (rank vaultId) = none =>
    hne (List.argmax_eq_none.mp hnone)
  exact ⟨i, List.argmax_mem hi, hi⟩

theorem ownerOf_perm {l : List Instance} (hnames : (instances.map Instance.name).Nodup) (hl : l.Perm instances) :
    ownerOf vaultId l = ownerOf vaultId instances := by
  have hnames' : (l.map Instance.name).Nodup := (hl.map Instance.name).nodup_iff.mpr hnames
  refine Option.ext fun i => ?_
  rw [ownerOf_eq_some hnames, ownerOf_eq_some hnames', hl.mem_iff]
  simp only [hl.mem_iff]

theorem ownerOf_cons (hnames : ((i :: instances).map Instance.name).Nodup) :
    ownerOf vaultId (i :: instances) = some i ∨ ownerOf vaultId (i :: instances) = ownerOf vaultId instances := by
  obtain ⟨o, ho, howner⟩ : ∃ o ∈ i :: instances, ownerOf vaultId (i :: instances) = some o :=
    exists_owner (List.cons_ne_nil i instances)
  obtain rfl | ho := List.mem_cons.mp ho
  · exact .inl howner
  · refine .inr (howner.trans (Eq.symm ?_))
    have hle := ((ownerOf_eq_some hnames).mp howner).2
    exact (ownerOf_eq_some (List.nodup_cons.mp hnames).2).mpr ⟨ho, fun j hj => hle j (List.mem_cons_of_mem i hj)⟩

structure Stable (vaultId : Units) (instances : List Instance) : Prop where
  unique : ∃ i ∈ instances, ∀ j ∈ instances, isOwner j.name vaultId instances = true ↔ j = i
  order : ∀ l : List Instance, l.Perm instances → ownerOf vaultId l = ownerOf vaultId instances
  added : ∀ (i : Instance) (l : List Instance), l.Perm (i :: instances) → i.name ∉ instances.map Instance.name →
    ownerOf vaultId l = some i ∨ ownerOf vaultId l = ownerOf vaultId instances
  removed : ∀ (i : Instance) (l : List Instance), instances.Perm (i :: l) →
    ownerOf vaultId instances ≠ some i → ownerOf vaultId l = ownerOf vaultId instances

theorem ownerOf_stable (vaultId : Units) (instances : List Instance) (hne : instances ≠ [])
    (hnames : (instances.map Instance.name).Nodup) : Stable vaultId instances where
  unique := by
    obtain ⟨i, hi, howner⟩ : ∃ i ∈ instances, ownerOf vaultId instances = some i := exists_owner hne
    refine ⟨i, hi, fun j hj => ?_⟩
    rw [isOwner, howner, Option.map_some, beq_iff_eq, Option.some.injEq]
    exact ⟨fun hname => (eq_of_name hnames hi hj hname).symm, fun h => by rw [h]⟩
  order l hl := ownerOf_perm hnames hl
  added i l hl hi := by
    have hnames' : ((i :: instances).map Instance.name).Nodup := List.nodup_cons.mpr ⟨hi, hnames⟩
    rw [ownerOf_perm hnames' hl]
    exact ownerOf_cons hnames'
  removed i l hl hother := by
    have hnames' : ((i :: l).map Instance.name).Nodup := (hl.map Instance.name).nodup_iff.mp hnames
    rw [ownerOf_perm hnames' hl] at hother ⊢
    exact ((ownerOf_cons hnames').resolve_left hother).symm

def threeInstances : List Instance :=
  [⟨ascii "idx-a", ascii "http://idx-a:7070"⟩, ⟨ascii "idx-b", ascii "http://idx-b:7070"⟩,
    ⟨ascii "idx-c", ascii "http://idx-c:7070"⟩]

theorem ownerOf_stable_three : threeInstances ≠ [] ∧ Stable (ascii "default") threeInstances :=
  ⟨by decide, ownerOf_stable (ascii "default") threeInstances (by decide) (by decide)⟩

/-- Without instances no vault has an owner. -/
theorem no_owner_of_none : ¬ ∀ (vaultId : Units) (instances : List Instance), (instances.map Instance.name).Nodup →
    ∃ i ∈ instances, isOwner i.name vaultId instances = true := by
  intro h
  obtain ⟨i, hi, -⟩ := h (ascii "default") [] List.nodup_nil
  cases hi

end Distinct
end Savoire.Indexer.Routing
