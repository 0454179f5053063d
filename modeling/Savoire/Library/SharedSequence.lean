import Mathlib.Data.List.Basic
import Mathlib.Data.List.Nodup
import Mathlib.Data.List.Perm.Basic
import Mathlib.Tactic.TypeStar

/-! Sequences that several clients insert in. Items are numbered in the order in which they were made; each
remembers its neighbours at its making, and a rule arranges those that a client has. -/
namespace SharedSequence

/-- The neighbours of an item when it was made. -/
structure Place where
  left : Option Nat
  right : Option Nat
  deriving DecidableEq

/-- The neighbours of what is inserted at a position. -/
def placeAt (l : List Nat) (k : Nat) : Place := ⟨if k = 0 then none else l[k - 1]?, l[k]?⟩

/-- The rule: nothing is lost, and the newest item is where its client has put it. -/
structure Sequence where
  arrange : (Nat → Place) → List Nat → List Nat
  perm : ∀ places l, (arrange places l).Perm l
  newest : ∀ places l n k, l.Pairwise (· < ·) → (∀ m ∈ l, m < n) → k ≤ l.length →
    places n = placeAt (arrange places l) k → arrange places (l ++ [n]) = (arrange places l).insertIdx k n
  congr : ∀ places places' l, (∀ n ∈ l, places n = places' n) → arrange places l = arrange places' l

/-- The position behind the `k`-th item that is shown. -/
def slot (shown : Nat → Bool) : List Nat → Nat → Nat
  | _, 0 => 0
  | [], _ + 1 => 0
  | x :: l, k + 1 => (if shown x then slot shown l k else slot shown l (k + 1)) + 1

theorem slot_le (shown : Nat → Bool) : ∀ (l : List Nat) (k : Nat), slot shown l k ≤ l.length
  | [], 0 => Nat.le_refl 0
  | [], _ + 1 => Nat.le_refl 0
  | _ :: _, 0 => Nat.zero_le _
  | x :: l, k + 1 => by
    simp only [slot, List.length_cons]
    have h := slot_le shown l k
    have h' := slot_le shown l (k + 1)
    split <;> omega

theorem filter_insertIdx_slot (shown : Nat → Bool) (n : Nat) (hn : shown n = true) :
    ∀ (l : List Nat) (k : Nat), k ≤ (l.filter shown).length →
      (l.insertIdx (slot shown l k) n).filter shown = (l.filter shown).insertIdx k n
  | l, 0, _ => by simp [slot, hn]
  | [], k + 1, h => by simp at h
  | x :: l, k + 1, h => by
    cases hx : shown x with
    | true =>
      rw [List.filter_cons_of_pos hx, List.length_cons] at h
      have ih := filter_insertIdx_slot shown n hn l k (by omega)
      simp only [slot, hx, if_true, List.insertIdx_succ_cons, List.filter_cons_of_pos hx, ih]
    | false =>
      have hneg : ¬ shown x = true := by simp [hx]
      rw [List.filter_cons_of_neg hneg] at h
      have ih := filter_insertIdx_slot shown n hn l (k + 1) h
      simp only [slot, hx, Bool.false_eq_true, if_false, List.insertIdx_succ_cons, List.filter_cons_of_neg hneg, ih]

/-- Behind the item, or at the beginning where it is not found. -/
def insertAfter (m n : Nat) (l : List Nat) : List Nat :=
  if m ∈ l then l.insertIdx (l.idxOf m + 1) n else n :: l

def place (places : Nat → Place) (l : List Nat) (n : Nat) : List Nat :=
  match (places n).left with
  | none => n :: l
  | some m => insertAfter m n l

theorem place_perm (places : Nat → Place) (l : List Nat) (n : Nat) : (place places l n).Perm (n :: l) := by
  unfold place
  split
  · exact .refl _
  · unfold insertAfter
    split
    · rename_i h
      exact List.perm_insertIdx _ _ (List.idxOf_lt_length_of_mem h)
    · exact .refl _

theorem foldl_place_perm (places : Nat → Place) (l acc : List Nat) :
    (l.foldl (place places) acc).Perm (acc ++ l) := by
  induction l generalizing acc with
  | nil => simp
  | cons n l ih =>
    calc (l.foldl (place places) (place places acc n)).Perm (place places acc n ++ l) := ih _
      _ |>.Perm (n :: acc ++ l) := (place_perm places acc n).append_right l
      _ |>.Perm (acc ++ n :: l) := List.perm_middle.symm

/-- Each item goes behind its left neighbour, the items in the order of their making. -/
def behindLeft : Sequence where
  arrange places l := l.foldl (place places) []
  perm places l := by simpa using foldl_place_perm places l []
  newest places l n k hl _ hk h := by
    have hperm : (l.foldl (place places) []).Perm l := by simpa using foldl_place_perm places l []
    have hnodup : (l.foldl (place places) []).Nodup := hperm.nodup_iff.mpr (hl.imp fun hlt => Nat.ne_of_lt hlt)
    rw [← hperm.length_eq] at hk
    rw [List.foldl_append, List.foldl_cons, List.foldl_nil]
    generalize l.foldl (place places) [] = full at hnodup hk h ⊢
    cases k with
    | zero =>
      unfold place
      rw [h]
      rfl
    | succ k =>
      have hleft : (places n).left = some full[k] := by
        rw [h, placeAt, if_neg (Nat.succ_ne_zero k), Nat.add_sub_cancel, List.getElem?_eq_getElem hk]
      unfold place insertAfter
      simp only [hleft, List.getElem_mem, if_true, hnodup.idxOf_getElem]
  congr places places' l h := by
    have hall : ∀ acc, l.foldl (place places) acc = l.foldl (place places') acc := by
      induction l with
      | nil => intro acc; rfl
      | cons n l ih =>
        intro acc
        have hplace : place places acc n = place places' acc n := by
          rw [place, place, h n List.mem_cons_self]
        rw [List.foldl_cons, List.foldl_cons, hplace]
        exact ih (fun m hm => h m (List.mem_cons_of_mem n hm)) _
    exact hall []

end SharedSequence
