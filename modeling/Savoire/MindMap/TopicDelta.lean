import Savoire.Desktop.TextDiff

/-! The delta that carries an edit of a title over to the shared title, which another member may have changed
since the edit began. -/
namespace Savoire.MindMap
open TextDiff Myers

structure TopicEdit where
  pos : Nat
  remove : Nat
  insert : Units
  deriving DecidableEq

/-- Least change from one text to another: beginning and end in common are left out. -/
def textEdit (a b : Units) : TopicEdit :=
  let p := common a b
  let s := min (common a.reverse b.reverse) (min a.length b.length - p)
  ⟨p, a.length - p - s, (b.take (b.length - s)).drop p⟩

def toDelta (pos remove : Nat) (insert : Units) : List TextEdit :=
  (if 0 < pos then [.retain pos] else []) ++ (if 0 < remove then [.delete remove] else []) ++
    if insert = [] then [] else [.insert insert]

def slice (text : Units) (i j : Nat) : Units := (text.take j).drop i

/-- Where the edit of the base text belongs in the current one: at its own place if the text up to its end still
stands there, else as far from the end as it was. -/
def topicPlace (current base : Units) (e : TopicEdit) : Option Nat :=
  let removed := slice base e.pos (e.pos + e.remove)
  let suffix := base.length - e.pos - e.remove
  let pos := current.length - suffix - e.remove
  if current = base then some e.pos
  else if current.take e.pos = base.take e.pos ∧ slice current e.pos (e.pos + e.remove) = removed then some e.pos
  else if suffix + e.remove ≤ current.length ∧
      current.drop (current.length - suffix) = base.drop (base.length - suffix) ∧
      slice current pos (pos + e.remove) = removed then some pos
  else none

def topicDelta (current base next : Units) : List TextEdit :=
  let e := textEdit base next
  match topicPlace current base e with
  | some pos => toDelta pos e.remove e.insert
  | none =>
    let all := textEdit current next
    toDelta all.pos all.remove all.insert

variable {u m v u' v' w : Units}

theorem take_start (u m v : Units) : (u ++ m ++ v).take u.length = u := by
  rw [List.append_assoc, List.take_left]

theorem slice_mid (u m v : Units) : slice (u ++ m ++ v) u.length (u.length + m.length) = m := by
  rw [slice, ← List.length_append, List.take_left, List.drop_left]

theorem drop_end (u m v : Units) : (u ++ m ++ v).drop ((u ++ m ++ v).length - v.length) = v := by
  rw [List.length_append, Nat.add_sub_cancel, List.drop_left]

theorem start_of_cut {i j : Nat} {text : Units} (h : text.take i = u) (h' : slice text i j = m) (hij : i ≤ j) :
    text = u ++ m ++ text.drop j := by
  rw [← h, ← h', slice, cut_text text hij]

theorem take_slice_iff {text : Units} :
    text.take u.length = u ∧ slice text u.length (u.length + m.length) = m ↔ u ++ m <+: text := by
  constructor
  · rintro ⟨hu, hm⟩
    exact ⟨_, (start_of_cut hu hm (by omega)).symm⟩
  · rintro ⟨v, rfl⟩
    exact ⟨take_start u m v, slice_mid u m v⟩

theorem drop_slice_iff {text : Units} :
    (v.length + m.length ≤ text.length ∧ text.drop (text.length - v.length) = v ∧
      slice text (text.length - v.length - m.length) (text.length - v.length - m.length + m.length) = m) ↔
    m ++ v <:+ text := by
  constructor
  · rintro ⟨hle, hv, hm⟩
    have hstop : text.length - v.length - m.length + m.length = text.length - v.length := by omega
    have hcut := start_of_cut rfl hm (by omega)
    rw [hstop, hv, List.append_assoc] at hcut
    exact ⟨_, hcut.symm⟩
  · rintro ⟨u, rfl⟩
    rw [← List.append_assoc]
    have hstart : (u ++ m ++ v).length - v.length - m.length = u.length := by
      simp only [List.length_append]
      omega
    rw [hstart]
    refine ⟨?_, drop_end u m v, slice_mid u m v⟩
    simp only [List.length_append]
    omega

theorem textEdit_cut (a b : Units) :
    ∃ u m v, u.length = (textEdit a b).pos ∧ m.length = (textEdit a b).remove ∧
      a = u ++ m ++ v ∧ b = u ++ (textEdit a b).insert ++ v := by
  have hle := common_le a b
  obtain ⟨s, hs⟩ : ∃ s, s = min (common a.reverse b.reverse) (min a.length b.length - common a b) := ⟨_, rfl⟩
  have hdrop : a.drop (a.length - s) = b.drop (b.length - s) := drop_of_le_common (by omega)
  refine ⟨a.take (common a b), slice a (common a b) (a.length - s), a.drop (a.length - s), ?_, ?_, ?_, ?_⟩
  · rw [List.length_take]
    exact Nat.min_eq_left hle.1
  · simp only [slice, textEdit, ← hs, List.length_drop, List.length_take]
    omega
  · exact (cut_text a (by omega)).symm
  · rw [take_common, hdrop]
    simp only [textEdit, ← hs]
    exact (cut_text b (by omega)).symm

theorem apply_toDelta (u m v s : Units) :
    applyTextEdits (u ++ m ++ v) (toDelta u.length m.length s) = u ++ s ++ v := by
  have hinsert (text : Units) : applyTextEdits text (if s = [] then [] else [.insert s]) = s ++ text := by
    split
    · rename_i hs
      rw [hs]
      rfl
    · rfl
  have hremove : applyTextEdits (m ++ v)
      ((if 0 < m.length then [.delete m.length] else []) ++ if s = [] then [] else [.insert s]) = s ++ v := by
    split
    · rw [List.cons_append, List.nil_append, applyTextEdits, List.drop_left, hinsert]
    · have hm : m = [] := List.eq_nil_of_length_eq_zero (by omega)
      rw [List.nil_append, hinsert, hm, List.nil_append]
  rw [toDelta, List.append_assoc, List.append_assoc]
  split
  · rw [List.cons_append, List.nil_append, applyTextEdits, List.take_left, List.drop_left, hremove,
      List.append_assoc]
  · have hu : u = [] := List.eq_nil_of_length_eq_zero (by omega)
    rw [hu, List.nil_append, List.nil_append, hremove, List.nil_append]

theorem fits_toDelta {pos remove n : Nat} (s : Units) (h : pos + remove ≤ n) : Fits n (toDelta pos remove s) := by
  have hinsert (n : Nat) : Fits n (if s = [] then [] else [.insert s]) := by
    split <;> simp [Fits]
  have hremove (n : Nat) (h : remove ≤ n) :
      Fits n ((if 0 < remove then [.delete remove] else []) ++ if s = [] then [] else [.insert s]) := by
    split
    · exact ⟨h, hinsert _⟩
    · exact hinsert n
  rw [toDelta, List.append_assoc]
  split
  · exact ⟨by omega, hremove _ (by omega)⟩
  · exact hremove n (by omega)

variable {current base next : Units} {e : TopicEdit}

structure Around (e : TopicEdit) (base u m v : Units) : Prop where
  pos : u.length = e.pos
  remove : m.length = e.remove
  text : base = u ++ m ++ v

theorem topicPlace_eq (h : Around e base u m v) (current : Units) :
    topicPlace current base e =
      if u ++ m <+: current then some u.length
      else if m ++ v <:+ current then some (current.length - v.length - m.length) else none := by
  obtain ⟨hpos, hremove, rfl⟩ := h
  have hsuffix : (u ++ m ++ v).length - u.length - m.length = v.length := by
    simp only [List.length_append]
    omega
  simp only [topicPlace, ← hpos, ← hremove, hsuffix, take_start, slice_mid, drop_end, take_slice_iff,
    drop_slice_iff]
  split
  · rename_i heq
    rw [heq, if_pos ⟨v, rfl⟩]
  · rfl

section
variable (h : Around (textEdit base next) base u m v)
include h

theorem topicDelta_start (rest : Units) :
    topicDelta (u ++ m ++ rest) base next = toDelta u.length m.length (textEdit base next).insert := by
  have hplace := topicPlace_eq h (u ++ m ++ rest)
  rw [if_pos ⟨rest, rfl⟩] at hplace
  simp only [topicDelta, hplace, h.remove]

theorem topicDelta_end (hnot : ¬ u ++ m <+: w ++ m ++ v) :
    topicDelta (w ++ m ++ v) base next = toDelta w.length m.length (textEdit base next).insert := by
  have hplace := topicPlace_eq h (w ++ m ++ v)
  have hstart : (w ++ m ++ v).length - v.length - m.length = w.length := by
    simp only [List.length_append]
    omega
  rw [if_neg hnot, if_pos ⟨w, (List.append_assoc w m v).symm⟩, hstart] at hplace
  simp only [topicDelta, hplace, h.remove]

theorem topicDelta_neither (hstart : ¬ u ++ m <+: current)
    (hend : ¬ m ++ v <:+ current) :
    topicDelta current base next =
      toDelta (textEdit current next).pos (textEdit current next).remove (textEdit current next).insert := by
  have hplace := topicPlace_eq h current
  rw [if_neg hstart, if_neg hend] at hplace
  simp only [topicDelta, hplace]

theorem topicDelta_cut (current : Units) :
    ∃ w n x s, current = w ++ n ++ x ∧ topicDelta current base next = toDelta w.length n.length s := by
  by_cases hstart : u ++ m <+: current
  · obtain ⟨rest, rfl⟩ := hstart
    exact ⟨u, m, rest, _, rfl, topicDelta_start h rest⟩
  · by_cases hend : m ++ v <:+ current
    · obtain ⟨w, rfl⟩ := hend
      rw [← List.append_assoc] at hstart ⊢
      exact ⟨w, m, v, _, rfl, topicDelta_end h hstart⟩
    · obtain ⟨w, n, x, hw, hn, hcurrent, -⟩ := textEdit_cut current next
      refine ⟨w, n, x, (textEdit current next).insert, hcurrent, ?_⟩
      rw [hw, hn]
      exact topicDelta_neither h hstart hend

end

/-- The delta stays inside the current text and gives the text with both edits: where the text up to the end of
the edited range still stands, else where the range and what follows it still do. Where neither does, it gives
the wanted text. -/
theorem topicDelta_merges (current base next : Units) :
    let edit := textEdit base next
    let merged := applyTextEdits current (topicDelta current base next)
    Fits current.length (topicDelta current base next) ∧
      (current = base → merged = next) ∧
      ∃ before removed after, before.length = edit.pos ∧ removed.length = edit.remove ∧
        base = before ++ removed ++ after ∧ next = before ++ edit.insert ++ after ∧
        (∀ rest, current = before ++ removed ++ rest → merged = before ++ edit.insert ++ rest) ∧
        (∀ start, current = start ++ removed ++ after → ¬ before ++ removed <+: current →
          merged = start ++ edit.insert ++ after) ∧
        (¬ before ++ removed <+: current → ¬ removed ++ after <:+ current → merged = next) := by
  intro edit merged
  obtain ⟨u, m, v, hpos, hremove, hbase, hnext⟩ := textEdit_cut base next
  have h : Around (textEdit base next) base u m v := ⟨hpos, hremove, hbase⟩
  have hstart (rest : Units) (hrest : current = u ++ m ++ rest) : merged = u ++ edit.insert ++ rest := by
    simp only [merged, hrest]
    rw [topicDelta_start h rest, apply_toDelta]
  refine ⟨?_, ?_, u, m, v, hpos, hremove, hbase, hnext, hstart, ?_, ?_⟩
  · obtain ⟨w, n, x, s, hcut, hdelta⟩ := topicDelta_cut h current
    rw [hdelta, hcut]
    apply fits_toDelta
    simp only [List.length_append]
    omega
  · intro heq
    rw [hstart v (heq.trans hbase)]
    exact hnext.symm
  · intro start heq hnot
    rw [heq] at hnot
    simp only [merged, heq]
    rw [topicDelta_end h hnot, apply_toDelta]
  · intro hnot hnot'
    obtain ⟨w, n, x, hw, hn, hcurrent, hwanted⟩ := textEdit_cut current next
    have hdelta := topicDelta_neither h hnot hnot'
    rw [← hw, ← hn] at hdelta
    simp only [merged, hdelta]
    rw [congrArg (applyTextEdits · _) hcurrent, apply_toDelta]
    exact hwanted.symm

/-- Units typed before the edited range: the range seems to stand where it was, and the edit goes there. -/
theorem start_taken_for_range :
    let base : Units := [97, 98]
    let next : Units := [120, 98]
    (textEdit base next).pos = 0 ∧
      applyTextEdits (97 :: base) (topicDelta (97 :: base) base next) = [120, 97, 98] ∧
      applyTextEdits (97 :: base) (topicDelta (97 :: base) base next) ≠ 97 :: next := by
  decide

end Savoire.MindMap
