import Savoire.Desktop.SurrogatePairs
import Savoire.Library.Utf
import Savoire.Outline.Edit

/-! The changes that lead from one text to another: a single one, or one for each line. A text is its UTF-16 units. -/
namespace Savoire.TextChanges
open Myers TextDiff
open Outlines (joinLines ascii)

/-- The units from `start` to `stop` become others. -/
structure TextChange where
  start : ℕ
  stop : ℕ
  insert : Units
  deriving DecidableEq

/-- `null` where the texts are equal; no end of the change is to cut a surrogate pair. -/
def minimalTextChange (before after : Units) : Option TextChange :=
  if before = after then none
  else
    let max := min before.length after.length
    let start := common before after
    let start := if decide (0 < start) && decide (start < max) && before[start - 1]?.any isHighSurrogate then start - 1
      else start
    let tail := commonSuffix before after start
    some ⟨start, before.length - tail, (after.take (after.length - tail)).drop start⟩

def diffToChange (a b : Units) : Option TextChange :=
  if a = b then none
  else
    let p := common a b
    let s := min (common a.reverse b.reverse) (min a.length b.length - p)
    some ⟨p, a.length - s, (b.take (b.length - s)).drop p⟩

/-- The loop over the lines, the first ones of these at `off`. -/
def lineChanges : (off : ℕ) → (la lb : List Units) → List TextChange
  | off, l :: la, l' :: lb =>
    ((diffToChange l l').map fun c => ⟨off + c.start, off + c.stop, c.insert⟩).toList ++
      lineChanges (off + l.length + 1) la lb
  | _, _, _ => []

def diffToChanges (a b : Units) : List TextChange :=
  if a = b then []
  else
    let la := a.splitOn 10
    let lb := b.splitOn 10
    if la.length ≠ lb.length then (diffToChange a b).toList
    else
      let p := common la lb
      let s := min (common la.reverse lb.reverse) (la.length - p)
      lineChanges ((la.take p).map fun l => l.length + 1).sum ((la.take (la.length - s)).drop p)
        ((lb.take (la.length - s)).drop p)

def TextChange.apply (c : TextChange) (text : Units) : Units := text.take c.start ++ c.insert ++ text.drop c.stop

def applyChanges (text : Units) : (place : ℕ) → List TextChange → Units
  | place, [] => text.drop place
  | place, c :: cs => (text.take c.start).drop place ++ c.insert ++ applyChanges text c.stop cs

structure TextChange.Within (c : TextChange) (text : Units) : Prop where
  le : c.start ≤ c.stop
  stop_le : c.stop ≤ text.length

section Single
variable {α : Type*} [DecidableEq α] {a b : List α} {before after : Units} {c : TextChange} {start tail : ℕ}

theorem replace_between (hstart : start ≤ common a b) (htail : tail ≤ common a.reverse b.reverse)
    (hb : start + tail ≤ b.length) :
    a.take start ++ (b.take (b.length - tail)).drop start ++ a.drop (a.length - tail) = b := by
  rw [take_of_le_common hstart, drop_of_le_common htail]
  have htwice : b.take start = (b.take (b.length - tail)).take start := by
    rw [List.take_take, Nat.min_eq_left (by omega)]
  rw [htwice, List.take_append_drop, List.take_append_drop]

theorem diffToChange_none : diffToChange before after = none ↔ before = after := by
  unfold diffToChange
  split
  · simpa
  · simpa

theorem diffToChange_within (h : diffToChange before after = some c) : c.Within before := by
  unfold diffToChange at h
  split at h
  · cases h
  · cases h
    have hle := common_le before after
    constructor
    · dsimp only
      omega
    · exact Nat.sub_le _ _

theorem diffToChange_apply (h : diffToChange before after = some c) : c.apply before = after := by
  unfold diffToChange at h
  split at h
  · cases h
  · cases h
    have hle := common_le before after
    refine replace_between le_rfl (Nat.min_le_left _ _) ?_
    dsimp only
    omega

/-- The units of a sequence of code points. -/
def WellFormed (text : Units) : Prop := ∃ s : List Char, text = s.flatMap Utf.utf16

theorem last_not_high (h : WellFormed before) : before.getLast?.any isHighSurrogate = false := by
  obtain ⟨s, rfl⟩ := h
  induction s using List.reverseRecOn with
  | nil => rfl
  | append_singleton s d =>
    have hlast : (Utf.utf16 d).getLast?.any isHighSurrogate = false := by
      have hrange := Utf.toNat_range d
      have hsecond : ∀ n : ℕ, isHighSurrogate (0xDC00 + n) = false := by
        intro n
        rw [isHighSurrogate, Bool.and_eq_false_iff, decide_eq_false_iff_not, decide_eq_false_iff_not]
        omega
      unfold Utf.utf16
      dsimp only
      split
      · rw [List.getLast?_singleton, Option.any_some, isHighSurrogate, Bool.and_eq_false_iff, decide_eq_false_iff_not,
          decide_eq_false_iff_not]
        omega
      · rw [List.getLast?_cons_cons, List.getLast?_singleton, Option.any_some]
        exact hsecond _
    have hne : Utf.utf16 d ≠ [] := Utf.utf16_decides.ne_nil d
    rw [List.flatMap_append, List.flatMap_singleton, List.getLast?_append_of_ne_nil _ hne]
    exact hlast

theorem start_eq (hbefore : WellFormed before) (hafter : WellFormed after) :
    (if decide (0 < common before after) && decide (common before after < min before.length after.length) &&
        before[common before after - 1]?.any isHighSurrogate then common before after - 1 else common before after) =
      commonPrefix before after := by
  have hle := common_le before after
  have hsame := take_common before after
  -- the shorter text does not end with the first half of a pair
  have hend (hpos : 0 < common before after) (hlong : ¬ common before after < min before.length after.length) :
      before[common before after - 1]?.any isHighSurrogate = false := by
    rw [← getLast?_take hpos hle.1]
    by_cases hb : common before after = before.length
    · rw [hb, List.take_length]
      exact last_not_high hbefore
    · have ha : common before after = after.length := by omega
      rw [hsame, ha, List.take_length]
      exact last_not_high hafter
  simp only [commonPrefix]
  by_cases hpos : 0 < common before after
  · by_cases hlong : common before after < min before.length after.length
    · simp [hpos, hlong]
    · simp [hend hpos hlong]
  · simp [hpos]

/-- The change lies within the text and leads to the other one; it is missing just where there is nothing to do; and no
end of it cuts a surrogate pair of either text. -/
theorem minimalTextChange_correct (before after : Units) :
    (minimalTextChange before after = none ↔ before = after) ∧
      ∀ c, minimalTextChange before after = some c → c.Within before ∧ c.apply before = after ∧
        (WellFormed before → WellFormed after → ¬ Splits before c.start ∧ ¬ Splits before c.stop ∧
          ¬ Splits after c.start ∧ ¬ Splits after (c.start + c.insert.length)) := by
  constructor
  · unfold minimalTextChange
    split
    · simpa
    · simpa
  intro c hc
  unfold minimalTextChange at hc
  split at hc
  · cases hc
  cases hc
  have hle := common_le before after
  generalize hstart : (if decide (0 < common before after) &&
    decide (common before after < min before.length after.length) &&
    before[common before after - 1]?.any isHighSurrogate then common before after - 1 else common before after) = start
  have hlow : start ≤ common before after := by
    rw [← hstart]
    split
    · omega
    · exact le_rfl
  have htail := commonSuffix_le before after start
  have hfit : start + commonSuffix before after start ≤ min before.length after.length := by omega
  have hreplace := replace_between hlow (htail.trans (Nat.min_le_left _ _)) (hfit.trans (Nat.min_le_right _ _))
  refine ⟨⟨?_, Nat.sub_le _ _⟩, hreplace, fun hbefore hafter => ?_⟩
  · dsimp only
    omega
  · rw [start_eq hbefore hafter] at hstart
    obtain ⟨hb, ha⟩ := not_splits_commonPrefix before after
    obtain ⟨hb', ha'⟩ := not_splits_commonSuffix before after start
    rw [hstart] at hb ha
    refine ⟨hb, hb', ha, ?_⟩
    have hinsert : start + ((after.take (after.length - commonSuffix before after start)).drop start).length =
        after.length - commonSuffix before after start := by
      rw [List.length_drop, List.length_take]
      omega
    rwa [hinsert]

theorem minimalTextChange_letter : (⟨1, 1, ascii "x"⟩ : TextChange).apply (ascii "ab") = ascii "axb" :=
  ((minimalTextChange_correct (ascii "ab") (ascii "axb")).2 _ (by decide)).2.1

theorem le_common {n : ℕ} (h : a.take n = b.take n) (ha : n ≤ a.length) (hb : n ≤ b.length) : n ≤ common a b := by
  induction n generalizing a b with
  | zero => exact Nat.zero_le _
  | succ n ih =>
    cases a with
    | nil => simp at ha
    | cons x a =>
      cases b with
      | nil => simp at hb
      | cons y b =>
        rw [List.take_succ_cons, List.take_succ_cons] at h
        obtain ⟨rfl, hrest⟩ := List.cons.inj h
        rw [common, if_pos rfl]
        exact Nat.succ_le_succ (ih hrest (by simpa using ha) (by simpa using hb))

/-- No single change that leads from one text to the other takes off and puts in less. -/
theorem diffToChange_least (h : diffToChange before after = some c) (c' : TextChange) (hc' : c'.Within before)
    (happly : c'.apply before = after) :
    c.stop - c.start + c.insert.length ≤ c'.stop - c'.start + c'.insert.length := by
  obtain ⟨hle, hstop⟩ := hc'
  have hlength : after.length = c'.start + c'.insert.length + (before.length - c'.stop) := by
    simp only [← happly, TextChange.apply, List.length_append, List.length_take, List.length_drop]
    omega
  have hhead : c'.start ≤ common before after := by
    refine le_common ?_ (hle.trans hstop) (by omega)
    rw [← happly, TextChange.apply, List.append_assoc, List.take_append_of_le_length (by simp; omega), List.take_take,
      min_self]
  have htail : before.length - c'.stop ≤ common before.reverse after.reverse := by
    refine le_common ?_ (by simp) (by simp; omega)
    rw [← happly, TextChange.apply, List.reverse_append, List.take_append_of_le_length (by simp), List.reverse_drop,
      List.take_take, min_self]
  unfold diffToChange at h
  split at h <;> cases h
  have hcommon := common_le before after
  simp only [List.length_drop, List.length_take]
  omega

theorem diffToChange_least_letter : 1 - 1 + (ascii "x").length ≤ 2 - 0 + (ascii "axb").length := by
  have h : diffToChange (ascii "ab") (ascii "axb") = some ⟨1, 1, ascii "x"⟩ := by decide
  exact diffToChange_least h ⟨0, 2, ascii "axb"⟩ ⟨by decide, by decide⟩ (by decide)

end Single

section Lines
variable {text a b pre l l' : Units} {la lb : List Units} {cs : List TextChange} {c : TextChange} {place n m : ℕ}

theorem applyChanges_from (hle : place ≤ n) (hcs : ∀ c ∈ cs, n ≤ c.start) (hn : n ≤ text.length) :
    applyChanges text place cs = (text.take n).drop place ++ applyChanges text n cs := by
  cases cs with
  | nil =>
    rw [applyChanges, applyChanges, ← List.drop_append_of_le_length (by simpa using ⟨hle, hle.trans hn⟩)]
    rw [List.take_append_drop]
  | cons c cs =>
    have hc := hcs c List.mem_cons_self
    have hsplit : (text.take c.start).drop place = (text.take n).drop place ++ (text.take c.start).drop n := by
      have htake : (text.take n).drop place ++ (text.take c.start).drop n =
          ((text.take n) ++ (text.take c.start).drop n).drop place := by
        rw [List.drop_append_of_le_length]
        rw [List.length_take]
        omega
      have htake' : text.take n = (text.take c.start).take n := by rw [List.take_take, Nat.min_eq_left hc]
      rw [htake, htake', List.take_append_drop]
    rw [applyChanges, applyChanges, hsplit]
    simp

theorem lineChanges_start (off : ℕ) (la lb : List Units) : ∀ c ∈ lineChanges off la lb, off ≤ c.start := by
  induction la generalizing off lb with
  | nil => simp [lineChanges]
  | cons l la ih =>
    cases lb with
    | nil => simp [lineChanges]
    | cons l' lb =>
      intro c hc
      obtain hc | hc := List.mem_append.1 hc
      · obtain ⟨d, -, rfl⟩ := Option.map_eq_some_iff.1 (Option.mem_toList.1 hc)
        exact Nat.le_add_right _ _
      · have := ih _ lb c hc
        omega

theorem slice_mid (pre l v : Units) (n : ℕ) (hm : m ≤ l.length) :
    ((pre ++ (l ++ v)).take (pre.length + m)).drop (pre.length + n) = (l.take m).drop n := by
  rw [List.take_length_add_append, List.drop_length_add_append, List.take_append_of_le_length hm]

theorem applyChanges_head (pre v : Units) (hcs : ∀ d ∈ cs, pre.length + l.length ≤ d.start) :
    applyChanges (pre ++ (l ++ v)) pre.length
        (((diffToChange l l').map fun c => ⟨pre.length + c.start, pre.length + c.stop, c.insert⟩).toList ++ cs) =
      l' ++ applyChanges (pre ++ (l ++ v)) (pre.length + l.length) cs := by
  have hlen : pre.length + l.length ≤ (pre ++ (l ++ v)).length := by
    rw [List.length_append, List.length_append]
    omega
  cases hc : diffToChange l l' with
  | none =>
    obtain rfl := diffToChange_none.1 hc
    have hmid := slice_mid pre l v 0 le_rfl
    rw [Nat.add_zero, List.take_length, List.drop_zero] at hmid
    rw [Option.map_none, Option.toList_none, List.nil_append, applyChanges_from (Nat.le_add_right _ _) hcs hlen, hmid]
  | some c =>
    have hin := diffToChange_within hc
    have happly := diffToChange_apply hc
    have hstart := slice_mid pre l v 0 (hin.le.trans hin.stop_le)
    have hstop := slice_mid pre l v c.stop le_rfl
    rw [Nat.add_zero, List.drop_zero] at hstart
    rw [Option.map_some, Option.toList_some, List.singleton_append, applyChanges,
      applyChanges_from (Nat.add_le_add_left hin.stop_le _) hcs hlen, hstart, hstop, ← happly, TextChange.apply]
    simp

theorem joinLines_singleton (l : Units) : joinLines [l] = l := by
  simp [joinLines]

theorem joinLines_cons (l : Units) {ls : List Units} (h : ls ≠ []) :
    joinLines (l :: ls) = l ++ 10 :: joinLines ls := by
  rw [joinLines, List.intercalate_cons_of_ne_nil h]
  simp [joinLines]

/-- Lines that change one by one: the changes lie within them in order, and lead to the other lines. -/
theorem lineChanges_correct (hlen : la.length = lb.length) (hne : la ≠ []) :
    ((lineChanges pre.length la lb).Pairwise fun c d => c.stop < d.start) ∧
      (∀ c ∈ lineChanges pre.length la lb, c.Within (pre ++ joinLines la)) ∧
      applyChanges (pre ++ joinLines la) pre.length (lineChanges pre.length la lb) = joinLines lb := by
  induction la generalizing pre lb with
  | nil => exact absurd rfl hne
  | cons l la ih =>
    obtain _ | ⟨l', lb⟩ := lb
    · cases hlen
    rw [List.length_cons, List.length_cons, Nat.add_right_cancel_iff] at hlen
    -- the change of the first line
    have hhead : ∀ c ∈ ((diffToChange l l').map fun c =>
        (⟨pre.length + c.start, pre.length + c.stop, c.insert⟩ : TextChange)).toList,
        c.start ≤ c.stop ∧ c.stop ≤ pre.length + l.length := by
      intro c hc
      obtain ⟨d, hd, rfl⟩ := Option.map_eq_some_iff.1 (Option.mem_toList.1 hc)
      have hin := diffToChange_within hd
      exact ⟨Nat.add_le_add_left hin.le _, Nat.add_le_add_left hin.stop_le _⟩
    have hpair : (((diffToChange l l').map fun c =>
        (⟨pre.length + c.start, pre.length + c.stop, c.insert⟩ : TextChange)).toList).Pairwise
        fun c d => c.stop < d.start := by
      cases diffToChange l l' with
      | none => exact .nil
      | some => exact List.pairwise_singleton _ _
    by_cases hla : la = []
    · subst hla
      obtain rfl : lb = [] := List.eq_nil_of_length_eq_zero hlen.symm
      have hend : lineChanges (pre.length + l.length + 1) [] [] = [] := rfl
      rw [lineChanges, hend, List.append_nil, joinLines_singleton, joinLines_singleton]
      refine ⟨hpair, fun c hc => ⟨(hhead c hc).1, ?_⟩, ?_⟩
      · rw [List.length_append]
        exact (hhead c hc).2
      · have happly := @applyChanges_head l l' [] pre [] (by simp)
        rw [List.append_nil, List.append_nil, applyChanges, ← List.length_append, List.drop_length] at happly
        rwa [List.append_nil] at happly
    · have hlb : lb ≠ [] := by
        rintro rfl
        exact hla (List.eq_nil_of_length_eq_zero hlen)
      have hpre : (pre ++ l ++ [10]).length = pre.length + l.length + 1 := by
        rw [List.length_append, List.length_append, List.length_singleton]
      have htext : pre ++ l ++ [10] ++ joinLines la = pre ++ (l ++ 10 :: joinLines la) := by simp
      obtain ⟨hpair', hin, happly⟩ := @ih (pre ++ l ++ [10]) lb hlen hla
      rw [hpre, htext] at happly hin
      rw [hpre] at hpair'
      have hbelow := lineChanges_start (pre.length + l.length + 1) la lb
      rw [lineChanges, joinLines_cons l hla, joinLines_cons l' hlb]
      refine ⟨List.pairwise_append.2 ⟨hpair, hpair', fun c hc d hd => ?_⟩, fun c hc => ?_, ?_⟩
      · have := (hhead c hc).2
        have := hbelow d hd
        omega
      · obtain hc | hc := List.mem_append.1 hc
        · refine ⟨(hhead c hc).1, ?_⟩
          have := (hhead c hc).2
          rw [List.length_append, List.length_append]
          omega
        · exact hin c hc
      · have hbreak : ((pre ++ (l ++ 10 :: joinLines la)).take (pre.length + l.length + 1)).drop
            (pre.length + l.length) = [10] := by
          rw [← hpre, ← htext, List.take_left, ← List.length_append, List.drop_left]
        have hlong : pre.length + l.length + 1 ≤ (pre ++ (l ++ 10 :: joinLines la)).length := by
          rw [← hpre, ← htext, @List.length_append _ (pre ++ l ++ [10])]
          exact Nat.le_add_right _ _
        rw [applyChanges_head pre _ fun d hd => (Nat.le_succ _).trans (hbelow d hd),
          applyChanges_from (Nat.le_succ _) hbelow hlong, hbreak, happly]
        rfl

theorem diffToChange_self (l : Units) : diffToChange l l = none := diffToChange_none.2 rfl

theorem lineChanges_append (off : ℕ) (ks la lb : List Units) :
    lineChanges off (ks ++ la) (ks ++ lb) = lineChanges (off + (ks.map fun l => l.length + 1).sum) la lb := by
  induction ks generalizing off with
  | nil => rfl
  | cons k ks ih =>
    rw [List.cons_append, List.cons_append, lineChanges, diffToChange_self, ih, List.map_cons, List.sum_cons,
      Nat.add_assoc off, Nat.add_assoc]
    rfl

theorem lineChanges_append_right (off : ℕ) (ks : List Units) (hlen : la.length = lb.length) :
    lineChanges off (la ++ ks) (lb ++ ks) = lineChanges off la lb := by
  induction la generalizing off lb with
  | nil =>
    obtain rfl : lb = [] := List.eq_nil_of_length_eq_zero hlen.symm
    have hnone := lineChanges_append off ks [] []
    rwa [List.append_nil] at hnone
  | cons l la ih =>
    obtain _ | ⟨l', lb⟩ := lb
    · cases hlen
    rw [List.cons_append, List.cons_append, lineChanges, lineChanges, ih _ (by simpa using hlen)]

/-- The changes are in order and apart, lie within the text, and lead to the other one. -/
theorem diffToChanges_correct (a b : Units) :
    ((diffToChanges a b).Pairwise fun c d => c.stop < d.start) ∧ (∀ c ∈ diffToChanges a b, c.Within a) ∧
      applyChanges a 0 (diffToChanges a b) = b := by
  by_cases heq : a = b
  · subst heq
    simp [diffToChanges, applyChanges]
  by_cases hlen : (a.splitOn 10).length = (b.splitOn 10).length
  · have hjoin (t : Units) : joinLines (t.splitOn 10) = t := List.intercalate_splitOn 10
    have hall := @lineChanges_correct [] _ _ hlen (List.splitOn_ne_nil 10 a)
    rw [List.nil_append, hjoin, hjoin, List.length_nil] at hall
    -- the lines in common at both ends are left out
    have hsame : diffToChanges a b = lineChanges 0 (a.splitOn 10) (b.splitOn 10) := by
      rw [diffToChanges, if_neg heq]
      dsimp only
      rw [if_neg (not_not.2 hlen)]
      generalize a.splitOn 10 = la at hlen
      generalize b.splitOn 10 = lb at hlen
      have hle := common_le la lb
      generalize hp : common la lb = p at hle
      generalize hs : min (common la.reverse lb.reverse) (la.length - p) = s
      have htake : la.take p = lb.take p := by
        rw [← hp]
        exact take_common la lb
      have hdrop : la.drop (la.length - s) = lb.drop (lb.length - s) := drop_of_le_common (by omega)
      have hcut (ks : List Units) (hk : ks.length = la.length) : ks = ks.take p ++
          ((ks.take (la.length - s)).drop p ++ ks.drop (la.length - s)) := by
        have htwice : ks.take p = (ks.take (la.length - s)).take p := by
          rw [List.take_take, Nat.min_eq_left (by omega)]
        rw [htwice, ← List.append_assoc, List.take_append_drop, List.take_append_drop]
      have hla := hcut la rfl
      have hlb := hcut lb hlen.symm
      rw [← htake] at hlb
      rw [← hlen] at hdrop
      rw [← hdrop] at hlb
      conv_rhs => rw [hla, hlb]
      rw [lineChanges_append, lineChanges_append_right _ _ (by simp [hlen]), Nat.zero_add]
    rwa [hsame]
  · have hsingle : diffToChanges a b = (diffToChange a b).toList := by
      rw [diffToChanges, if_neg heq]
      rw [if_pos hlen]
    rw [hsingle]
    cases hc : diffToChange a b with
    | none => exact absurd (diffToChange_none.1 hc) heq
    | some c =>
      refine ⟨List.pairwise_singleton _ _, ?_, ?_⟩
      · simpa using diffToChange_within hc
      · exact diffToChange_apply hc

end Lines

end Savoire.TextChanges
