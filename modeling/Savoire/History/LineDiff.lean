import Mathlib
import Savoire.Library.Lcs
import Savoire.Outline.Parse

/-! Two versions of a note compared line by line, for its history. -/
namespace Savoire.History
open Outlines (Units)

inductive Kind where
  | same | add | del
  deriving DecidableEq

structure DiffLine where
  kind : Kind
  text : Units

/-- Beyond this, the longest common part is not looked for. -/
def maxCells : ℕ := 4000000

def linesOf (text : Units) : List Units := text.splitOn 10

/-- How many lines two texts begin with in common. -/
def commonStart : List Units → List Units → ℕ
  | x :: a, y :: b => if x = y then commonStart a b + 1 else 0
  | _, _ => 0

/-- Where the common end begins, in each text; it stays behind `start`. -/
def commonEnd (a b : List Units) (start : ℕ) : (endA endB : ℕ) → ℕ × ℕ
  | endA+1, endB+1 =>
    if start < endA + 1 ∧ start < endB + 1 ∧ a[endA]? = b[endB]? then commonEnd a b start endA endB
    else (endA + 1, endB + 1)
  | endA, endB => (endA, endB)

structure Trimmed where
  head : List Units
  ma : List Units
  mb : List Units
  tail : List Units

def trimmed (a b : List Units) : Trimmed :=
  let start := commonStart a b
  let (endA, endB) := commonEnd a b start a.length b.length
  ⟨a.take start, (a.take endA).drop start, (b.take endB).drop start, a.drop endA⟩

section Middle
variable (ma mb : List Units)

/-- Row `i` of the table, from column `j` down; `w` cells a row, all of them 32 bits wide. -/
def fillRow (w i : ℕ) : (j : ℕ) → List ℕ → List ℕ
  | 0, lcs => lcs
  | j+1, lcs =>
    let cell :=
      if ma[i]? = mb[j]? then lcs.getD ((i + 1) * w + j + 1) 0 + 1
      else max (lcs.getD ((i + 1) * w + j) 0) (lcs.getD (i * w + j + 1) 0)
    fillRow w i j (lcs.set (i * w + j) (cell % 2 ^ 32))

def fillRows (w m : ℕ) : (i : ℕ) → List ℕ → List ℕ
  | 0, lcs => lcs
  | i+1, lcs => fillRows w m i (fillRow ma mb w i m lcs)

/-- For each pair of places, how long a common part there is from there on. -/
def table : List ℕ :=
  let n := ma.length
  let w := mb.length + 1
  fillRows ma mb w mb.length n (List.replicate ((n + 1) * w) 0)

/-- The lines from places `i` and `j` on. -/
def walk (w : ℕ) (lcs : List ℕ) (i j : ℕ) : List DiffLine :=
  if hi : i < ma.length then
    if hj : j < mb.length then
      if ma[i] = mb[j] then ⟨.same, ma[i]⟩ :: walk w lcs (i + 1) (j + 1)
      else if lcs.getD (i * w + j + 1) 0 ≤ lcs.getD ((i + 1) * w + j) 0 then ⟨.del, ma[i]⟩ :: walk w lcs (i + 1) j
      else ⟨.add, mb[j]⟩ :: walk w lcs i (j + 1)
    else (ma.drop i).map (DiffLine.mk .del)
  else (mb.drop j).map (DiffLine.mk .add)
termination_by (ma.length - i) + (mb.length - j)

end Middle

/-- The lines of `before` to `after`: kept, added, taken off. -/
def diffLines (before after : Units) : List DiffLine :=
  let ⟨head, ma, mb, tail⟩ := trimmed (linesOf before) (linesOf after)
  let mid :=
    if maxCells < ma.length * mb.length then ma.map (DiffLine.mk .del) ++ mb.map (DiffLine.mk .add)
    else walk ma mb (mb.length + 1) (table ma mb) 0 0
  head.map (DiffLine.mk .same) ++ mid ++ tail.map (DiffLine.mk .same)

def without (k : Kind) (d : List DiffLine) : List Units := (d.filter fun l => l.kind ≠ k).map DiffLine.text

def sameCount (d : List DiffLine) : ℕ := d.countP fun l => l.kind = .same

/-- The lines lead from `a` to `b`, and keep `k` lines. -/
structure Script (a b : List Units) (k : ℕ) (d : List DiffLine) : Prop where
  before : without .add d = a
  after : without .del d = b
  same : sameCount d = k

variable {a b a' b' ma mb : List Units} {x : Units} {d d' : List DiffLine} {k k' : ℕ}

theorem Script.append (h : Script a b k d) (h' : Script a' b' k' d') :
    Script (a ++ a') (b ++ b') (k + k') (d ++ d') where
  before := by rw [← h.before, ← h'.before]; simp [without]
  after := by rw [← h.after, ← h'.after]; simp [without]
  same := by rw [← h.same, ← h'.same]; simp [sameCount]

theorem script_same (u : List Units) : Script u u u.length (u.map (DiffLine.mk .same)) where
  before := by simp [without, List.filter_map, Function.comp_def]
  after := by simp [without, List.filter_map, Function.comp_def]
  same := by simp [sameCount, List.countP_map, Function.comp_def]

theorem script_del (u : List Units) : Script u [] 0 (u.map (DiffLine.mk .del)) where
  before := by simp [without, List.filter_map, Function.comp_def]
  after := by simp [without, List.filter_map, Function.comp_def]
  same := by simp [sameCount, List.countP_map, Function.comp_def]

theorem script_add (u : List Units) : Script [] u 0 (u.map (DiffLine.mk .add)) where
  before := by simp [without, List.filter_map, Function.comp_def]
  after := by simp [without, List.filter_map, Function.comp_def]
  same := by simp [sameCount, List.countP_map, Function.comp_def]

theorem Script.same_cons (h : Script a b k d) : Script (x :: a) (x :: b) (k + 1) (⟨.same, x⟩ :: d) := by
  have hone := (script_same [x]).append h
  rwa [List.length_singleton, Nat.add_comm 1 k] at hone

theorem Script.del_cons (h : Script a b k d) : Script (x :: a) b k (⟨.del, x⟩ :: d) := by
  have hone := (script_del [x]).append h
  rwa [Nat.zero_add] at hone

theorem Script.add_cons (h : Script a b k d) : Script a (x :: b) k (⟨.add, x⟩ :: d) := by
  have hone := (script_add [x]).append h
  rwa [Nat.zero_add] at hone

section Table
variable {i j r c : ℕ} {t : List ℕ}

/-- Cell `(i, j)` of the table tells how long a common part there is. -/
def Cell (ma mb : List Units) (t : List ℕ) (i j : ℕ) : Prop :=
  t.getD (i * (mb.length + 1) + j) 0 = Lcs.lcs (ma.drop i) (mb.drop j)

theorem cell_ne {w k : ℕ} (hj : j < w) (hk : k < w) (h : r ≠ i ∨ k ≠ j) : i * w + j ≠ r * w + k := by
  intro heq
  have hdiv (q l : ℕ) (hl : l < w) : (q * w + l) / w = q := by
    rw [Nat.mul_comm, Nat.mul_add_div (by omega), Nat.div_eq_of_lt hl, Nat.add_zero]
  have hrow : i = r := by
    rw [← hdiv i j hj, heq, hdiv r k hk]
  subst hrow
  omega

theorem getD_set_ne {v : ℕ} (h : r ≠ c) : (t.set r v).getD c 0 = t.getD c 0 := by
  rw [List.getD_eq_getElem?_getD, List.getElem?_set_ne h, ← List.getD_eq_getElem?_getD]

theorem fillRow_length (w i j : ℕ) (t : List ℕ) : (fillRow ma mb w i j t).length = t.length := by
  induction j generalizing t with
  | zero => rfl
  | succ j ih => rw [fillRow, ih, List.length_set]

theorem getD_fillRow {w : ℕ} (t : List ℕ) (h : ∀ k < j, i * w + k ≠ c) :
    (fillRow ma mb w i j t).getD c 0 = t.getD c 0 := by
  induction j generalizing t with
  | zero => rfl
  | succ j ih => rw [fillRow, ih _ fun k hk => h k (by omega), getD_set_ne (h j (by omega))]

theorem cell_value (hi : i < ma.length) (hj : j < mb.length) (hdiag : Cell ma mb t (i + 1) (j + 1))
    (hdown : Cell ma mb t (i + 1) j) (hright : Cell ma mb t i (j + 1)) :
    (if ma[i]? = mb[j]? then t.getD ((i + 1) * (mb.length + 1) + j + 1) 0 + 1
      else max (t.getD ((i + 1) * (mb.length + 1) + j) 0) (t.getD (i * (mb.length + 1) + j + 1) 0)) =
      Lcs.lcs (ma.drop i) (mb.drop j) := by
  unfold Cell at hdiag hdown hright
  rw [← Nat.add_assoc] at hdiag hright
  rw [hdiag, hdown, hright, List.drop_eq_getElem_cons hi, List.drop_eq_getElem_cons hj]
  by_cases heq : ma[i] = mb[j]
  · rw [if_pos (by simp [hi, hj, heq]), heq, Lcs.lcs_cons_self]
  · rw [if_neg (by simp [hi, hj, heq]), Lcs.lcs_cons_of_ne heq]

section
variable (hcells : ma.length * mb.length ≤ maxCells)
include hcells

theorem fillRow_spec (hi : i < ma.length) (hj : j ≤ mb.length)
    (hlen : t.length = (ma.length + 1) * (mb.length + 1)) (hbelow : ∀ k ≤ mb.length, Cell ma mb t (i + 1) k)
    (hright : ∀ k ≤ mb.length, j ≤ k → Cell ma mb t i k) :
    ∀ k ≤ mb.length, Cell ma mb (fillRow ma mb (mb.length + 1) i j t) i k := by
  induction j generalizing t with
  | zero => exact fun k hk => hright k hk (Nat.zero_le k)
  | succ j ih =>
    have hvalue := cell_value hi hj (hbelow (j + 1) hj) (hbelow j (by omega)) (hright (j + 1) hj le_rfl)
    have hsmall : Lcs.lcs (ma.drop i) (mb.drop j) < 2 ^ 32 := by
      -- as `mb` is not empty, `ma` has at most `maxCells` lines
      have hle : ma.length ≤ ma.length * mb.length := Nat.le_mul_of_pos_right _ (by omega)
      have hdrop := (Lcs.lcs_le_left (ma.drop i) (mb.drop j)).trans (List.length_drop ▸ Nat.sub_le _ _)
      unfold maxCells at hcells
      omega
    have hin : i * (mb.length + 1) + j < t.length := by
      have hrow : (i + 1) * (mb.length + 1) ≤ (ma.length + 1) * (mb.length + 1) := Nat.mul_le_mul_right _ (by omega)
      rw [Nat.succ_mul] at hrow
      omega
    unfold fillRow
    dsimp only
    rw [hvalue, Nat.mod_eq_of_lt hsmall]
    refine ih (by omega) (by rw [List.length_set, hlen]) ?_ ?_
    · intro k hk
      unfold Cell
      rw [getD_set_ne (cell_ne (by omega) (by omega) (.inl (by omega)))]
      exact hbelow k hk
    · intro k hk hjk
      unfold Cell
      by_cases hkj : k = j
      · rw [hkj, List.getD_eq_getElem?_getD, List.getElem?_set_self hin, Option.getD_some]
      · rw [getD_set_ne (cell_ne (by omega) (by omega) (.inr hkj))]
        exact hright k hk (by omega)

theorem fillRows_spec (hi : i ≤ ma.length)
    (hlen : t.length = (ma.length + 1) * (mb.length + 1))
    (hbelow : ∀ r ≤ ma.length, i ≤ r → ∀ k ≤ mb.length, Cell ma mb t r k)
    (hlast : ∀ r ≤ ma.length, Cell ma mb t r mb.length) :
    ∀ r ≤ ma.length, ∀ k ≤ mb.length, Cell ma mb (fillRows ma mb (mb.length + 1) mb.length i t) r k := by
  induction i generalizing t with
  | zero => exact fun r hr => hbelow r hr (Nat.zero_le r)
  | succ i ih =>
    have hrow := fillRow_spec hcells (by omega : i < ma.length) le_rfl hlen (hbelow (i + 1) (by omega) le_rfl)
      fun k hk hle => Nat.le_antisymm hk hle ▸ hlast i (by omega)
    have hother (r : ℕ) (hr : r ≠ i) (k : ℕ) (hk : k ≤ mb.length) (h : Cell ma mb t r k) :
        Cell ma mb (fillRow ma mb (mb.length + 1) i mb.length t) r k := by
      unfold Cell
      rw [getD_fillRow t fun j hj => cell_ne (by omega) (by omega) (.inl hr)]
      exact h
    refine ih (by omega) (by rw [fillRow_length, hlen]) ?_ ?_
    · intro r hr hle k hk
      by_cases hri : r = i
      · exact hri ▸ hrow k hk
      · exact hother r hri k hk (hbelow r hr (by omega) k hk)
    · intro r hr
      by_cases hri : r = i
      · exact hri ▸ hrow _ le_rfl
      · exact hother r hri _ le_rfl (hlast r hr)

theorem table_spec (hi : i ≤ ma.length) (hj : j ≤ mb.length) :
    Cell ma mb (table ma mb) i j := by
  have hzero (c : ℕ) : (List.replicate ((ma.length + 1) * (mb.length + 1)) 0).getD c 0 = 0 := by
    rw [List.getD_eq_getElem?_getD, List.getElem?_replicate]
    split <;> rfl
  refine fillRows_spec hcells le_rfl (by simp) ?_ ?_ i hi j hj
  · intro r hr hle k hk
    rw [Cell, hzero, Nat.le_antisymm hr hle, List.drop_length, Lcs.lcs_nil_left]
  · intro r hr
    rw [Cell, hzero, List.drop_length, Lcs.lcs_nil_right]

end

theorem walk_script (ht : ∀ i ≤ ma.length, ∀ j ≤ mb.length, Cell ma mb t i j) (hin : i ≤ ma.length)
    (hjn : j ≤ mb.length) :
    Script (ma.drop i) (mb.drop j) (Lcs.lcs (ma.drop i) (mb.drop j)) (walk ma mb (mb.length + 1) t i j) := by
  fun_induction walk ma mb (mb.length + 1) t i j with
  | case1 i j hi hj heq ih =>
    rw [List.drop_eq_getElem_cons hi, List.drop_eq_getElem_cons hj, ← heq, Lcs.lcs_cons_self]
    exact (ih hi hj).same_cons
  | case2 i j hi hj hne hle ih =>
    have hdown := ht (i + 1) hi j (by omega)
    have hright := ht i (by omega) (j + 1) hj
    unfold Cell at hdown hright
    rw [← Nat.add_assoc] at hright
    rw [hdown, hright, List.drop_eq_getElem_cons hi, List.drop_eq_getElem_cons hj] at hle
    have hrest := ih hi (by omega)
    rw [List.drop_eq_getElem_cons hj] at hrest
    rw [List.drop_eq_getElem_cons hi, List.drop_eq_getElem_cons hj, Lcs.lcs_cons_of_ne hne, max_eq_left hle]
    exact hrest.del_cons
  | case3 i j hi hj hne hlt ih =>
    have hdown := ht (i + 1) hi j (by omega)
    have hright := ht i (by omega) (j + 1) hj
    unfold Cell at hdown hright
    rw [← Nat.add_assoc] at hright
    rw [hdown, hright, List.drop_eq_getElem_cons hi, List.drop_eq_getElem_cons hj, Nat.not_le] at hlt
    have hrest := ih (by omega) hj
    rw [List.drop_eq_getElem_cons hi] at hrest
    rw [List.drop_eq_getElem_cons hi, List.drop_eq_getElem_cons hj, Lcs.lcs_cons_of_ne hne, max_eq_right hlt.le]
    exact hrest.add_cons
  | case4 i j hi hj' =>
    rw [List.drop_eq_nil_of_le (Nat.not_lt.1 hj'), Lcs.lcs_nil_right]
    exact script_del _
  | case5 i j hi' =>
    rw [List.drop_eq_nil_of_le (Nat.not_lt.1 hi'), Lcs.lcs_nil_left]
    exact script_add _

end Table

theorem take_commonStart (a b : List Units) : a.take (commonStart a b) = b.take (commonStart a b) := by
  fun_induction commonStart a b with
  | case1 y a b ih => rw [List.take_succ_cons, List.take_succ_cons, ih]
  | case2 => rfl
  | case3 => rfl

theorem commonStart_le (a b : List Units) : commonStart a b ≤ a.length ∧ commonStart a b ≤ b.length := by
  fun_induction commonStart a b with
  | case1 y a b ih => simpa using ih
  | case2 => simp
  | case3 => simp

theorem commonEnd_spec {start endA endB : ℕ} (ha : start ≤ endA) (hb : start ≤ endB) (hla : endA ≤ a.length)
    (hlb : endB ≤ b.length) (h : a.drop endA = b.drop endB) :
    start ≤ (commonEnd a b start endA endB).1 ∧ start ≤ (commonEnd a b start endA endB).2 ∧
      a.drop (commonEnd a b start endA endB).1 = b.drop (commonEnd a b start endA endB).2 := by
  fun_induction commonEnd a b start endA endB with
  | case1 endA endB hin ih =>
    obtain ⟨hstartA, hstartB, heq⟩ := hin
    refine ih (by omega) (by omega) (by omega) (by omega) ?_
    have hinA : endA < a.length := by omega
    have hinB : endB < b.length := by omega
    rw [List.getElem?_eq_getElem hinA, List.getElem?_eq_getElem hinB, Option.some_inj] at heq
    rw [List.drop_eq_getElem_cons hinA, List.drop_eq_getElem_cons hinB, heq, h]
  | case2 => exact ⟨ha, hb, h⟩
  | case3 => exact ⟨ha, hb, h⟩

theorem trimmed_spec (a b : List Units) :
    a = (trimmed a b).head ++ (trimmed a b).ma ++ (trimmed a b).tail ∧
      b = (trimmed a b).head ++ (trimmed a b).mb ++ (trimmed a b).tail := by
  have hcut (l : List Units) {i j : ℕ} (h : i ≤ j) : l = l.take i ++ (l.take j).drop i ++ l.drop j := by
    have hfirst := List.take_append_drop i (l.take j)
    rw [List.take_take, min_eq_left h] at hfirst
    rw [hfirst, List.take_append_drop]
  obtain ⟨hla, hlb⟩ := commonStart_le a b
  obtain ⟨hstartA, hstartB, htail⟩ := commonEnd_spec hla hlb le_rfl le_rfl (by simp)
  refine ⟨hcut a hstartA, ?_⟩
  unfold trimmed
  dsimp only
  rw [take_commonStart, htail]
  exact hcut b hstartB

theorem diffLines_script (before after : Units) : ∃ k,
    Script (linesOf before) (linesOf after) k (diffLines before after) ∧
      ((trimmed (linesOf before) (linesOf after)).ma.length *
          (trimmed (linesOf before) (linesOf after)).mb.length ≤ maxCells →
        k = Lcs.lcs (linesOf before) (linesOf after)) := by
  obtain ⟨hbefore, hafter⟩ := trimmed_spec (linesOf before) (linesOf after)
  unfold diffLines
  generalize trimmed (linesOf before) (linesOf after) = t at hbefore hafter
  obtain ⟨head, ma, mb, tail⟩ := t
  dsimp only at hbefore hafter ⊢
  rw [hbefore, hafter, Lcs.lcs_append_right, Lcs.lcs_append_left]
  by_cases hcells : maxCells < ma.length * mb.length
  · rw [if_pos hcells]
    have hmid := (script_del ma).append (script_add mb)
    rw [List.append_nil, List.nil_append] at hmid
    exact ⟨_, ((script_same head).append hmid).append (script_same tail), fun hle => absurd hle (by omega)⟩
  · rw [if_neg hcells]
    have hcell : ∀ i ≤ ma.length, ∀ j ≤ mb.length, Cell ma mb (table ma mb) i j :=
      fun i hi j hj => table_spec (by omega) hi hj
    have hmid := walk_script hcell (Nat.zero_le ma.length) (Nat.zero_le mb.length)
    exact ⟨_, ((script_same head).append hmid).append (script_same tail), fun _ => rfl⟩

theorem diffLines_correct (before after : Units) :
    [10].intercalate (without .add (diffLines before after)) = before ∧
      [10].intercalate (without .del (diffLines before after)) = after ∧
      ((trimmed (linesOf before) (linesOf after)).ma.length *
          (trimmed (linesOf before) (linesOf after)).mb.length ≤ maxCells →
        IsGreatest (Lcs.Lengths (linesOf before) (linesOf after)) (sameCount (diffLines before after))) := by
  obtain ⟨k, hscript, hmost⟩ := diffLines_script before after
  refine ⟨?_, ?_, fun hcells => ?_⟩
  · rw [hscript.before, linesOf, List.intercalate_splitOn]
  · rw [hscript.after, linesOf, List.intercalate_splitOn]
  · rw [hscript.same, hmost hcells]
    exact Lcs.isGreatest_lcs _ _

theorem diffLines_correct_one : IsGreatest (Lcs.Lengths [[97]] [[98]]) (sameCount (diffLines [97] [98])) :=
  (diffLines_correct [97] [98]).2.2 (by decide)

theorem commonStart_self (a : List Units) : commonStart a a = a.length := by
  induction a with
  | nil => rfl
  | cons x a ih => simp [commonStart, ih]

theorem trimmed_self (a : List Units) : trimmed a a = ⟨a, [], [], []⟩ := by
  have hend (n : ℕ) : commonEnd a a n n n = (n, n) := by
    cases n <;> simp [commonEnd]
  simp [trimmed, commonStart_self, hend]

/-- Nothing is shown as changed exactly when nothing has changed, however long the texts are. -/
theorem diffLines_unchanged_iff (before after : Units) :
    (∀ l ∈ diffLines before after, l.kind = .same) ↔ before = after := by
  refine ⟨fun h => ?_, fun h => ?_⟩
  · obtain ⟨k, hscript, -⟩ := diffLines_script before after
    have hlines : linesOf before = linesOf after := by
      rw [← hscript.before, ← hscript.after]
      refine congrArg (List.map DiffLine.text) (List.filter_congr fun l hl => ?_)
      simp [h l hl]
    have hjoin := congrArg ([10].intercalate ·) hlines
    simpa only [linesOf, List.intercalate_splitOn] using hjoin
  · subst h
    simp [diffLines, trimmed_self, walk]

end Savoire.History
