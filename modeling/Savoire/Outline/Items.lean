import Mathlib.Data.List.DropRight
import Savoire.Outline.Parse

/-! What the pass over the lines finds: the parent of an item is the nearest item before it that is further left, and
its subtree ends with the last line that is not empty before the next item that is not further right. -/
namespace Savoire.Outlines
open NearestSmaller

def heads (texts : List Units) : List Nat :=
  texts.filterMap fun t => (itemRe t).map fun m => columns m.indentText

/-- Not an item, or one right of column `n`. -/
def inside (n : Nat) (t : Units) : Bool := (itemRe t).all fun m => decide (n < columns m.indentText)

/-- The lines after an item at column `n` that belong to its subtree. -/
def blockRest (n : Nat) (w : List Units) : List Units := (w.takeWhile (inside n)).rdropWhile isEmpty

variable {texts u a b : List Units} {t : Units} {m : ItemMatch} {lines : List OutlineLine} {items : List OutlineItem}
  {it : OutlineItem} {s : Parsing} {stk : List Nat} {n lastLine j : Nat}

theorem heads_append (u w : List Units) : heads (u ++ w) = heads u ++ heads w := by
  simp [heads, List.filterMap_append]

theorem heads_of_none (h : itemRe t = none) : heads [t] = [] := by simp [heads, h]

theorem heads_of_some (h : itemRe t = some m) : heads [t] = [columns m.indentText] := by simp [heads, h]

theorem heads_cons (h : itemRe t = some m) (w : List Units) : heads (t :: w) = columns m.indentText :: heads w := by
  simp [heads, h]

theorem all_inside : (b.all (inside n)) = true ↔ ∀ c ∈ heads b, n < c := by
  simp only [List.all_eq_true, inside, heads, List.mem_filterMap, Option.map_eq_some_iff, Option.all_eq_true,
    decide_eq_true_eq]
  constructor
  · rintro h c ⟨t, ht, m, hm, rfl⟩
    exact h t ht m hm
  · exact fun h t ht m hm => h _ ⟨t, ht, m, hm, rfl⟩

theorem length_outlineLines (start : Nat) (texts : List Units) : (outlineLines start texts).length = texts.length := by
  induction texts generalizing start with
  | nil => rfl
  | cons t texts ih => rw [outlineLines, List.length_cons, List.length_cons, ih]

theorem text_outlineLines (start : Nat) (texts : List Units) (i : Nat) :
    (outlineLines start texts)[i]?.map OutlineLine.text = texts[i]? := by
  induction texts generalizing start i with
  | nil => rfl
  | cons t texts ih =>
    cases i with
    | zero => rfl
    | succ i => simpa [outlineLines] using ih (start + t.length + 1) i

theorem lastText_spec (htexts : ∃ c, texts = a ++ t :: (b ++ c)) :
    lastText (outlineLines 0 texts) a.length (a.length + b.length) = a.length + (b.rdropWhile isEmpty).length := by
  induction b using List.reverseRecOn with
  | nil =>
    rw [List.length_nil, Nat.add_zero, List.rdropWhile_nil, List.length_nil, Nat.add_zero]
    cases a.length with
    | zero => rfl
    | succ e => rw [lastText, if_neg (by omega)]
  | append_singleton b x ih =>
    obtain ⟨c, htexts⟩ := htexts
    have hx : (outlineLines 0 texts)[a.length + b.length + 1]?.any (fun l => isEmpty l.text) = isEmpty x := by
      have htext := text_outlineLines 0 texts (a.length + b.length + 1)
      have hget : texts[a.length + b.length + 1]? = some x := by
        rw [htexts, List.getElem?_append_right (by omega)]
        have hsub : a.length + b.length + 1 - a.length = b.length + 1 := by omega
        rw [hsub, List.getElem?_cons_succ, List.append_assoc, List.getElem?_append_right le_rfl]
        simp
      rw [hget] at htext
      obtain ⟨l, hl, rfl⟩ := Option.map_eq_some_iff.mp htext
      rw [hl]
      rfl
    rw [List.length_append, List.length_singleton, ← Nat.add_assoc, lastText, hx]
    by_cases hempty : isEmpty x = true
    · rw [if_pos ⟨by omega, hempty⟩, List.rdropWhile_concat_pos _ _ _ hempty]
      exact ih ⟨x :: c, by simp [htexts]⟩
    · rw [if_neg fun h => hempty h.2, List.rdropWhile_concat_neg _ _ _ hempty, List.length_append]
      rfl

theorem getElem?_closeAll : (closeAll lines lastLine stk items)[j]? =
    items[j]?.map fun it => if j ∈ stk then close lines lastLine it else it := by
  induction stk generalizing items with
  | nil => simp [closeAll]
  | cons idx stk ih =>
    have htwice : ∀ it, close lines lastLine (close lines lastLine it) = close lines lastLine it := fun _ => rfl
    change (closeAll lines lastLine stk (items.modify idx (close lines lastLine)))[j]? = _
    rw [ih, List.getElem?_modify]
    cases items[j]? with
    | none => rfl
    | some it =>
      by_cases hj : idx = j
      · subst hj
        by_cases hmem : idx ∈ stk <;> simp [hmem, htwice]
      · simp [hj, Ne.symm hj]

theorem length_closeAll : (closeAll lines lastLine stk items).length = items.length := by
  induction stk generalizing items with
  | nil => rfl
  | cons idx stk ih =>
    change (closeAll lines lastLine stk (items.modify idx (close lines lastLine))).length = _
    rw [ih, List.length_modify]

theorem indentOf_modify (idx : Nat) :
    indentOf (items.modify idx (close lines lastLine)) j = indentOf items j := by
  rw [indentOf, indentOf, List.getElem?_modify]
  cases items[j]? with
  | none => rfl
  | some it => by_cases hj : idx = j <;> simp [hj, close]

theorem popWhile_spec {open' : List (Nat × Nat)} (hcolumns : ∀ p ∈ open', indentOf items p.2 = p.1) :
    popWhile lines n lastLine (open'.map Prod.snd) items =
      ((open'.dropWhile fun p => decide (n ≤ p.1)).map Prod.snd,
        closeAll lines lastLine ((open'.takeWhile fun p => decide (n ≤ p.1)).map Prod.snd) items) := by
  induction open' generalizing items with
  | nil => rfl
  | cons p open' ih =>
    rw [List.forall_mem_cons] at hcolumns
    rw [List.map_cons, popWhile, hcolumns.1, List.dropWhile_cons, List.takeWhile_cons]
    by_cases hle : n ≤ p.1
    · rw [if_pos hle, if_pos (by simpa using hle), if_pos (by simpa using hle),
        ih fun q hq => (indentOf_modify _).trans (hcolumns.2 q hq)]
      rfl
    · rw [if_neg hle, if_neg (by simpa using hle), if_neg (by simpa using hle)]
      rfl

/-- The items of some lines with their columns, newest first. -/
def marks (u : List Units) : List (Nat × Nat) := (heads u).zipIdx.reverse

/-- What is known of an item once the lines `a`, its own line and the lines `b` are read. -/
structure Describes (a : List Units) (m : ItemMatch) (b : List Units) (it : OutlineItem) : Prop where
  index : it.index = (heads a).length
  line : it.line = a.length
  indent : it.indent = columns m.indentText
  indentText : it.indentText = m.indentText
  parent : it.parent = (parent Prod.fst (marks a) it.indent).map Prod.snd
  endLine : it.endLine = if b.all (inside it.indent) then a.length else a.length + (blockRest it.indent b).length

def parentOf (items : List OutlineItem) (k : Nat) : Option Nat := items[k]?.bind OutlineItem.parent

def lastItem (count : Nat) : Option Nat := if count = 0 then none else some (count - 1)

def childrenOf (items : List OutlineItem) (p : Option Nat) : List Nat :=
  (List.range items.length).filter fun k => parentOf items k == p

structure Inv (u : List Units) (s : Parsing) : Prop where
  count : s.items.length = (heads u).length
  stack : s.stack = (stack Prod.fst (marks u)).map Prod.snd
  item : ∀ a t b m, u = a ++ t :: b → itemRe t = some m →
    ∃ it, s.items[(heads a).length]? = some it ∧ Describes a m b it
  owner : s.owner = (List.range u.length).map fun l => lastItem (heads (u.take (l + 1))).length
  children : ∀ j it, s.items[j]? = some it → it.children = childrenOf s.items (some j)
  roots : s.roots = childrenOf s.items none

theorem mem_marks {p : Nat × Nat} (h : p ∈ marks u) : (heads u)[p.2]? = some p.1 :=
  List.mem_zipIdx_iff_getElem?.mp (List.mem_reverse.mp h)

theorem marks_of_none (h : itemRe t = none) : marks (u ++ [t]) = marks u := by
  rw [marks, heads_append, heads_of_none h, List.append_nil]
  rfl

theorem marks_concat (h : itemRe t = some m) :
    marks (u ++ [t]) = (columns m.indentText, (heads u).length) :: marks u := by
  rw [marks, heads_append, heads_of_some h, List.zipIdx_append, List.reverse_append]
  simp [marks]

theorem Describes.concat (h : Describes a m b it) (hnone : itemRe t = none ∨ b.all (inside it.indent) = false) :
    Describes a m (b ++ [t]) it where
  __ := h
  endLine := by
    rw [h.endLine]
    cases hall : b.all (inside it.indent) with
    | true =>
      have hinside : inside it.indent t = true := by
        rw [inside, hnone.resolve_right (by simp [hall])]
        rfl
      simp [hall, hinside]
    | false =>
      have hstop : (b ++ [t]).takeWhile (inside it.indent) = b.takeWhile (inside it.indent) := by
        rw [List.takeWhile_append, if_neg]
        intro hlen
        have htake := List.takeWhile_eq_self_iff.mp ((List.takeWhile_prefix _).eq_of_length hlen)
        rw [← List.all_eq_true, hall] at htake
        cases htake
      simp [hall, blockRest, hstop]

theorem Inv.owner_concat (h : Inv u s) (t : Units) : s.owner ++ [lastItem (heads (u ++ [t])).length] =
    (List.range (u ++ [t]).length).map fun l => lastItem (heads ((u ++ [t]).take (l + 1))).length := by
  rw [List.length_append, List.length_singleton, List.range_succ, List.map_append, h.owner]
  refine congrArg₂ (· ++ ·) (List.map_congr_left fun l hl => ?_) ?_
  · rw [List.mem_range] at hl
    rw [List.take_append_of_le_length (by omega)]
  · rw [List.map_singleton, List.take_of_length_le (by simp)]

theorem split_concat {α : Type*} {u a b : List α} {x t : α} (h : u ++ [x] = a ++ t :: b) :
    b = [] ∧ u = a ∧ x = t ∨ ∃ b', b = b' ++ [x] ∧ u = a ++ t :: b' := by
  obtain rfl | ⟨b', y, rfl⟩ := b.eq_nil_or_concat
  · obtain ⟨hu, hx⟩ := List.append_inj' h rfl
    exact .inl ⟨rfl, hu, List.singleton_inj.mp hx⟩
  · rw [List.concat_eq_append, ← List.cons_append, ← List.append_assoc] at h
    obtain ⟨hu, hx⟩ := List.append_inj' h rfl
    rw [List.singleton_inj.mp hx, List.concat_eq_append]
    exact .inr ⟨b', rfl, hu⟩

theorem Inv.line (h : Inv u s) {l : OutlineLine} (hl : itemRe l.text = none) :
    Inv (u ++ [l.text]) (addLine lines s l u.length) := by
  have hadd : addLine lines s l u.length = { s with
      owner := s.owner ++ [lastItem s.items.length], itemAtLine := s.itemAtLine ++ [none] } := by
    unfold addLine
    rw [hl]
    rfl
  have hheads : heads (u ++ [l.text]) = heads u := by
    rw [heads_append, heads_of_none hl, List.append_nil]
  rw [hadd]
  refine ⟨by rw [hheads]; exact h.count, by rw [marks_of_none hl]; exact h.stack, ?_, ?_, h.children, h.roots⟩
  · intro a t b m hu hm
    obtain ⟨-, -, rfl⟩ | ⟨b, rfl, hu'⟩ := split_concat hu
    · rw [hl] at hm
      cases hm
    · obtain ⟨it, hit, hdesc⟩ := h.item a t b m hu' hm
      exact ⟨it, hit, hdesc.concat (.inl hl)⟩
  · rw [← h.owner_concat, hheads, h.count]

theorem heads_split (h : (heads u)[j]? = some n) :
    ∃ a t b m, u = a ++ t :: b ∧ itemRe t = some m ∧ (heads a).length = j ∧ columns m.indentText = n := by
  induction u generalizing j with
  | nil => simp [heads] at h
  | cons x u ih =>
    have hnext : ∀ {k}, (heads u)[k]? = some n → (heads [x]).length + k = j →
        ∃ a t b m, x :: u = a ++ t :: b ∧ itemRe t = some m ∧ (heads a).length = j ∧ columns m.indentText = n := by
      intro k hk hj
      obtain ⟨a, t, b, m, rfl, hm, hlen, hn⟩ := ih hk
      refine ⟨x :: a, t, b, m, rfl, hm, ?_, hn⟩
      rw [← List.singleton_append, heads_append, List.length_append, hlen, hj]
    rw [← List.singleton_append, heads_append] at h
    cases hx : itemRe x with
    | none =>
      rw [heads_of_none hx, List.nil_append] at h
      exact hnext h (by simp [heads_of_none hx])
    | some m =>
      rw [heads_of_some hx, List.singleton_append] at h
      cases j with
      | zero => exact ⟨[], x, u, m, rfl, hx, rfl, Option.some.inj h⟩
      | succ j => exact hnext h (by rw [heads_of_some hx, List.length_singleton, Nat.add_comm])

theorem Inv.described (h : Inv u s) (hit : s.items[j]? = some it) :
    ∃ a t b m, u = a ++ t :: b ∧ itemRe t = some m ∧ (heads a).length = j ∧ Describes a m b it := by
  have hlt : j < (heads u).length := h.count ▸ (List.getElem?_eq_some_iff.mp hit).1
  obtain ⟨a, t, b, m, hu, hm, hj, -⟩ := heads_split (List.getElem?_eq_getElem hlt)
  obtain ⟨it', hit', hdesc⟩ := h.item a t b m hu hm
  rw [hj, hit] at hit'
  rw [Option.some.inj hit']
  exact ⟨a, t, b, m, hu, hm, hj, hdesc⟩

theorem Inv.columns (h : Inv u s) {p : Nat × Nat} (hp : p ∈ marks u) : indentOf s.items p.2 = p.1 := by
  obtain ⟨a, t, b, m, hu, hm, hj, hn⟩ := heads_split (mem_marks hp)
  obtain ⟨it, hit, hdesc⟩ := h.item a t b m hu hm
  rw [indentOf, ← hj, hit, ← hn]
  exact hdesc.indent

theorem Inv.parent_lt (h : Inv u s) {k p : Nat} (hp : parentOf s.items k = some p) : p < k := by
  obtain ⟨it, hit, hp⟩ := Option.bind_eq_some_iff.mp hp
  obtain ⟨a, t, b, m, -, -, hj, hdesc⟩ := h.described hit
  rw [hdesc.parent] at hp
  obtain ⟨q, hq, rfl⟩ := Option.map_eq_some_iff.mp hp
  have hlt := (List.getElem?_eq_some_iff.mp (mem_marks (List.mem_of_find?_eq_some hq))).1
  omega

theorem marks_split (hm : itemRe t = some m) (a b : List Units) : marks (a ++ t :: b) =
    ((heads b).zipIdx ((heads a).length + 1)).reverse ++ (columns m.indentText, (heads a).length) :: marks a := by
  rw [marks, heads_append, heads_cons hm, List.zipIdx_append, List.zipIdx_cons, List.reverse_append]
  simp [marks]

theorem mem_stack_marks (hm : itemRe t = some m) :
    (columns m.indentText, (heads a).length) ∈ stack Prod.fst (marks (a ++ t :: b)) ↔
      b.all (inside (columns m.indentText)) = true := by
  have hnotin : (columns m.indentText, (heads a).length) ∉ ((heads b).zipIdx ((heads a).length + 1)).reverse := by
    intro hmem
    have hle := List.le_snd_of_mem_zipIdx (List.mem_reverse.mp hmem)
    omega
  rw [marks_split hm, mem_stack hnotin, all_inside]
  constructor
  · intro hall c hc
    obtain ⟨k, hk⟩ := List.mem_iff_getElem?.mp hc
    refine hall (c, (heads a).length + 1 + k) (List.mem_reverse.mpr ?_)
    rw [List.mem_zipIdx_iff_le_and_getElem?_sub]
    exact ⟨by simp, by simpa using hk⟩
  · intro hall p hp
    have hmem := List.mem_reverse.mp hp
    rw [List.mem_zipIdx_iff_le_and_getElem?_sub] at hmem
    exact hall p.1 (List.mem_of_getElem? hmem.2)

section Push
variable {new : OutlineItem}

theorem length_pushItem : (pushItem items new).length = items.length + 1 := by
  unfold pushItem
  split <;> simp

theorem getElem?_pushItem_of_lt (h : items[j]? = some it) : (pushItem items new)[j]? =
    some { it with children := if new.parent = some j then it.children ++ [items.length] else it.children } := by
  have hlt := (List.getElem?_eq_some_iff.mp h).1
  have happ : (items ++ [new])[j]? = some it := (List.getElem?_append_left hlt).trans h
  unfold pushItem
  split
  · rename_i p hp
    rw [List.getElem?_modify, happ, hp]
    by_cases hpj : p = j
    · simp [hpj]
    · simp [hpj]
  · rename_i hp
    rw [happ, hp]
    simp

theorem getElem?_pushItem_last (h : ∀ p ∈ new.parent, p < items.length) :
    (pushItem items new)[items.length]? = some new := by
  have hlast : (items ++ [new])[items.length]? = some new := by simp
  unfold pushItem
  split
  · rename_i p hp
    have hne : p ≠ items.length := Nat.ne_of_lt (h p hp)
    simp [hne]
  · exact hlast

theorem childrenOf_pushItem (h : ∀ p ∈ new.parent, p < items.length) (p : Option Nat) :
    childrenOf (pushItem items new) p = childrenOf items p ++ if new.parent = p then [items.length] else [] := by
  have hnew : parentOf (pushItem items new) items.length = new.parent := by
    rw [parentOf, getElem?_pushItem_last h]
    rfl
  have hold : ∀ k < items.length, parentOf (pushItem items new) k = parentOf items k := by
    intro k hk
    rw [parentOf, parentOf, getElem?_pushItem_of_lt (List.getElem?_eq_getElem hk), List.getElem?_eq_getElem hk]
    rfl
  rw [childrenOf, length_pushItem, List.range_succ, List.filter_append, childrenOf]
  congr 1
  · refine List.filter_congr fun k hk => ?_
    rw [hold k (List.mem_range.mp hk)]
  · rw [List.filter_singleton, hnew]
    simp

end Push

theorem childrenOf_closeAll (p : Option Nat) :
    childrenOf (closeAll lines lastLine stk items) p = childrenOf items p := by
  rw [childrenOf, length_closeAll]
  refine List.filter_congr fun k _ => ?_
  have hparent : parentOf (closeAll lines lastLine stk items) k = parentOf items k := by
    rw [parentOf, parentOf, getElem?_closeAll]
    cases items[k]? with
    | none => rfl
    | some it =>
      split <;> rfl
  rw [hparent]

theorem Describes.close {rest : List Units} (h : Describes a m b it) (htexts : texts = a ++ t :: (b ++ rest))
    (hall : b.all (inside it.indent) = true) :
    (close (outlineLines 0 texts) ((a ++ t :: b).length - 1) it).endLine =
      a.length + (blockRest it.indent b).length := by
  have hlen : max it.line ((a ++ t :: b).length - 1) = a.length + b.length := by
    rw [h.line, List.length_append, List.length_cons]
    omega
  have htake : b.takeWhile (inside it.indent) = b := List.takeWhile_eq_self_iff.mpr (List.all_eq_true.mp hall)
  simp only [Outlines.close]
  rw [hlen, h.line, lastText_spec ⟨rest, htexts⟩, blockRest, htake]

theorem Inv.itemLine (h : Inv u s) {l : OutlineLine} {rest : List Units} (htexts : texts = u ++ l.text :: rest)
    (hl : itemRe l.text = some m) : Inv (u ++ [l.text]) (addLine (outlineLines 0 texts) s l u.length) := by
  have hcolumns : ∀ p ∈ NearestSmaller.stack Prod.fst (marks u), indentOf s.items p.2 = p.1 :=
    fun p hp => h.columns (stack_subset hp)
  have hpop : popWhile (outlineLines 0 texts) (Outlines.columns m.indentText) (u.length - 1) _ _ = _ :=
    popWhile_spec hcolumns
  rw [← h.stack] at hpop
  generalize hn : Outlines.columns m.indentText = n at hpop
  generalize hclosed : ((NearestSmaller.stack Prod.fst (marks u)).takeWhile fun p => decide (n ≤ p.1)).map Prod.snd =
    closed at hpop
  generalize hopen : ((NearestSmaller.stack Prod.fst (marks u)).dropWhile fun p => decide (n ≤ p.1)).map Prod.snd =
    open' at hpop
  generalize hitems : closeAll (outlineLines 0 texts) (u.length - 1) closed s.items = items at hpop
  have hcount : items.length = (heads u).length := by rw [← hitems, length_closeAll, h.count]
  have hparent : open'.head? = (parent Prod.fst (marks u) n).map Prod.snd := by
    rw [← hopen, List.head?_map, head?_stack]
  obtain ⟨new, hnew, hadd⟩ : ∃ new : OutlineItem,
      (new.index = items.length ∧ new.line = u.length ∧ new.indent = n ∧ new.indentText = m.indentText ∧
        new.parent = open'.head? ∧ new.endLine = u.length ∧ new.children = []) ∧
      addLine (outlineLines 0 texts) s l u.length =
        { items := pushItem items new
          roots := new.parent.elim (s.roots ++ [items.length]) fun _ => s.roots
          stack := items.length :: open'
          owner := s.owner ++ [some items.length]
          itemAtLine := s.itemAtLine ++ [some items.length] } := by
    refine ⟨newItem items open' l u.length m, ⟨rfl, rfl, hn, rfl, rfl, rfl, rfl⟩, ?_⟩
    unfold addLine
    rw [hl]
    simp only [hn, hpop]
    cases open' <;> rfl
  obtain ⟨hindex, hline, hindent, htext, hnewparent, hend, hchildren⟩ := hnew
  have hbefore : ∀ p ∈ new.parent, p < items.length := by
    intro p hp
    rw [hnewparent, hparent] at hp
    obtain ⟨q, hq, rfl⟩ := Option.map_eq_some_iff.mp hp
    rw [hcount]
    exact (List.getElem?_eq_some_iff.mp (mem_marks (List.mem_of_find?_eq_some hq))).1
  have hheads : (heads (u ++ [l.text])).length = items.length + 1 := by
    rw [heads_append, heads_of_some hl, List.length_append, hcount]
    rfl
  have hget : ∀ j it, s.items[j]? = some it → items[j]? =
      some (if j ∈ closed then close (outlineLines 0 texts) (u.length - 1) it else it) := by
    intro j it hit
    rw [← hitems, getElem?_closeAll, hit]
    rfl
  have hkids : ∀ p, childrenOf items p = childrenOf s.items p := by
    intro p
    rw [← hitems, childrenOf_closeAll]
  rw [hadd]
  refine ⟨by rw [length_pushItem, hheads], ?_, ?_, ?_, ?_, ?_⟩
  · rw [marks_concat hl, NearestSmaller.stack, List.map_cons, hn, hopen, ← hcount]
  · intro a t b m' hu hm'
    obtain ⟨rfl, rfl, rfl⟩ | ⟨b, rfl, hu'⟩ := split_concat hu
    · rw [hl] at hm'
      obtain rfl : m = m' := Option.some.inj hm'
      refine ⟨new, ?_, hindex.trans hcount, hline, hindent.trans hn.symm, htext, ?_, by simpa using hend⟩
      · rw [← hcount]
        exact getElem?_pushItem_last hbefore
      · rw [hnewparent, hparent, hindent]
    · obtain ⟨it, hit, hdesc⟩ := h.item a t b m' hu' hm'
      -- It is closed now when it was open and is not left of the new item.
      have hmem : (heads a).length ∈ closed ↔ b.all (inside it.indent) = true ∧ n ≤ it.indent := by
        rw [hdesc.indent, ← mem_stack_marks hm' (t := t) (a := a), ← hu', ← hclosed, List.mem_map]
        constructor
        · rintro ⟨p, hp, hpa⟩
          obtain ⟨hp, hle⟩ := (mem_takeWhile (stack_sorted _)).mp hp
          have hcol : p.1 = Outlines.columns m'.indentText := by
            have hmark := mem_marks (stack_subset hp)
            rw [hpa, hu', heads_append, heads_cons hm', List.getElem?_append_right le_rfl, Nat.sub_self] at hmark
            exact (Option.some.inj hmark).symm
          have hpair : p = (Outlines.columns m'.indentText, (heads a).length) := Prod.ext hcol hpa
          rw [← hpair]
          exact ⟨hp, hcol ▸ hle⟩
        · rintro ⟨hp, hle⟩
          exact ⟨_, (mem_takeWhile (stack_sorted _)).mpr ⟨hp, hle⟩, rfl⟩
      refine ⟨_, getElem?_pushItem_of_lt (hget _ it hit), ?_⟩
      by_cases hclose : (heads a).length ∈ closed
      · obtain ⟨hall, hle⟩ := hmem.mp hclose
        have hout : inside it.indent l.text = false := by
          rw [inside, hl, Option.all_some, hn]
          simpa using hle
        simp only [if_pos hclose]
        refine ⟨hdesc.index, hdesc.line, hdesc.indent, hdesc.indentText, hdesc.parent, ?_⟩
        have hsplit : texts = a ++ t :: (b ++ l.text :: rest) := by
          rw [htexts, hu']
          simp
        have hcl := hdesc.close hsplit hall
        rw [← hu'] at hcl
        have hrest : blockRest it.indent (b ++ [l.text]) = blockRest it.indent b := by
          rw [blockRest, blockRest, List.takeWhile_append_of_pos (List.all_eq_true.mp hall),
            List.takeWhile_cons_of_neg (by simp [hout]), List.append_nil,
            List.takeWhile_eq_self_iff.mpr (List.all_eq_true.mp hall)]
        refine hcl.trans ?_
        change _ = if (b ++ [l.text]).all (inside it.indent) then _ else
          a.length + (blockRest it.indent (b ++ [l.text])).length
        rw [hrest, List.all_append, hall, Bool.true_and, List.all_cons, hout]
        rfl
      · simp only [if_neg hclose]
        have hdesc' : Describes a m' (b ++ [l.text]) it := by
          by_cases hall : b.all (inside it.indent) = true
          · have hlt : it.indent < n := by
              by_contra hle
              exact hclose (hmem.mpr ⟨hall, by omega⟩)
            have hin : inside it.indent l.text = true := by
              rw [inside, hl, Option.all_some, hn]
              simpa using hlt
            refine ⟨hdesc.index, hdesc.line, hdesc.indent, hdesc.indentText, hdesc.parent, ?_⟩
            rw [hdesc.endLine, hall, List.all_append, hall, List.all_cons, hin]
            rfl
          · exact hdesc.concat (.inr (by simpa using hall))
        exact ⟨hdesc'.index, hdesc'.line, hdesc'.indent, hdesc'.indentText, hdesc'.parent, hdesc'.endLine⟩
  · rw [← h.owner_concat, hheads]
    rfl
  · intro j it hit
    have hlt := (List.getElem?_eq_some_iff.mp hit).1
    rw [length_pushItem] at hlt
    rw [childrenOf_pushItem hbefore, hkids]
    by_cases hj : j = items.length
    · subst hj
      rw [getElem?_pushItem_last hbefore] at hit
      obtain rfl := Option.some.inj hit
      have hnone : childrenOf s.items (some items.length) = [] := by
        refine List.filter_eq_nil_iff.mpr fun k hk => ?_
        rw [beq_iff_eq]
        intro hp
        have hlt := h.parent_lt hp
        rw [List.mem_range, h.count, ← hcount] at hk
        omega
      rw [hchildren, hnone, if_neg]
      · rfl
      · intro hp
        exact absurd (hbefore _ hp) (by omega)
    · have hjs : j < s.items.length := by
        rw [h.count, ← hcount]
        omega
      have hit' : (pushItem items new)[j]? = _ :=
        getElem?_pushItem_of_lt (hget j _ (List.getElem?_eq_getElem hjs))
      rw [hit] at hit'
      have hold := h.children j _ (List.getElem?_eq_getElem hjs)
      have hsame : (if j ∈ closed then close (outlineLines 0 texts) (u.length - 1) s.items[j]
          else s.items[j]).children = s.items[j].children := by split <;> rfl
      rw [Option.some.inj hit']
      simp only [hsame, hold]
      by_cases hp : new.parent = some j <;> simp [hp]
  · rw [childrenOf_pushItem hbefore, hkids, ← h.roots]
    cases new.parent <;> simp

theorem inv_nil : Inv [] ⟨[], [], [], [], []⟩ where
  count := rfl
  stack := rfl
  item a t b m h := by simp at h
  owner := rfl
  children j it h := by simp at h
  roots := rfl

theorem inv_foldl (texts : List Units) (i : Nat) (hi : i ≤ texts.length) :
    Inv (texts.take i) ((((outlineLines 0 texts).zipIdx).take i).foldl
      (fun s l => addLine (outlineLines 0 texts) s l.1 l.2) ⟨[], [], [], [], []⟩) := by
  induction i with
  | zero => exact inv_nil
  | succ i ih =>
    have hlt : i < (outlineLines 0 texts).length := by
      rw [length_outlineLines]
      omega
    obtain ⟨l, hl⟩ : ∃ l, (outlineLines 0 texts)[i]? = some l := ⟨_, List.getElem?_eq_getElem hlt⟩
    have htext : texts[i]? = some l.text := by
      rw [← text_outlineLines 0 texts i, hl]
      rfl
    have hzip : (outlineLines 0 texts).zipIdx[i]? = some (l, i) := by
      rw [List.getElem?_zipIdx, hl]
      simp
    have hlen : (texts.take i).length = i := List.length_take_of_le (by omega)
    have hprev := ih (by omega)
    rw [List.take_add_one, htext, List.take_add_one, hzip, List.foldl_append]
    have hsplit : texts = texts.take i ++ l.text :: texts.drop (i + 1) := by
      rw [List.append_cons]
      have htake : texts.take (i + 1) = texts.take i ++ [l.text] := by
        rw [List.take_add_one, htext]
        rfl
      rw [← htake, List.take_append_drop]
    cases hre : itemRe l.text with
    | none =>
      have hline : Inv _ (addLine (outlineLines 0 texts) _ l _) := hprev.line hre
      rwa [hlen] at hline
    | some m =>
      have hitem := hprev.itemLine hsplit hre
      rwa [hlen] at hitem

/-- What is known of an item of a parsed outline, after the lines `a` and before the lines `b`. -/
structure IsItem (a : List Units) (m : ItemMatch) (b : List Units) (it : OutlineItem) : Prop where
  index : it.index = (heads a).length
  line : it.line = a.length
  indent : it.indent = columns m.indentText
  indentText : it.indentText = m.indentText
  parent : it.parent = (parent Prod.fst (marks a) it.indent).map Prod.snd
  endLine : it.endLine = a.length + (blockRest it.indent b).length

structure Parsed (texts : List Units) (o : Outline) : Prop where
  lines : o.lines = outlineLines 0 texts
  count : o.items.length = (heads texts).length
  item : ∀ a t b m, texts = a ++ t :: b → itemRe t = some m →
    ∃ it, o.items[(heads a).length]? = some it ∧ IsItem a m b it
  owner : o.owner = (List.range texts.length).map fun l => lastItem (heads (texts.take (l + 1))).length
  children : ∀ j it, o.items[j]? = some it → it.children = childrenOf o.items (some j)
  roots : o.roots = childrenOf o.items none

theorem parsed_parseLines (texts : List Units) : Parsed texts (parseLines texts) := by
  have h := inv_foldl texts texts.length le_rfl
  have hall : ((outlineLines 0 texts).zipIdx).take texts.length = (outlineLines 0 texts).zipIdx :=
    List.take_of_length_le (by simp [length_outlineLines])
  rw [List.take_length, hall] at h
  change Inv texts (readLines (outlineLines 0 texts)) at h
  simp only [parseLines]
  generalize readLines (outlineLines 0 texts) = s at h ⊢
  refine ⟨rfl, by rw [length_closeAll, h.count], ?_, h.owner, ?_, by rw [childrenOf_closeAll]; exact h.roots⟩
  · intro a t b m htexts hm
    obtain ⟨it, hit, hdesc⟩ := h.item a t b m htexts hm
    refine ⟨_, by rw [getElem?_closeAll, hit]; rfl, ?_⟩
    by_cases hopen : (heads a).length ∈ s.stack
    · have hall : b.all (inside it.indent) = true := by
        rw [h.stack, List.mem_map] at hopen
        obtain ⟨p, hp, hpa⟩ := hopen
        have hcol : p.1 = Outlines.columns m.indentText := by
          have hmark := mem_marks (stack_subset hp)
          rw [hpa, htexts, heads_append, heads_cons hm, List.getElem?_append_right le_rfl, Nat.sub_self] at hmark
          exact (Option.some.inj hmark).symm
        have hpair : p = (Outlines.columns m.indentText, (heads a).length) := Prod.ext hcol hpa
        rw [htexts, hpair] at hp
        rw [hdesc.indent]
        exact (mem_stack_marks hm).mp hp
      have hsplit : texts = a ++ t :: (b ++ []) := by simpa using htexts
      have hclose := hdesc.close hsplit hall
      rw [← htexts] at hclose
      simp only [if_pos hopen, length_outlineLines]
      exact ⟨hdesc.index, hdesc.line, hdesc.indent, hdesc.indentText, hdesc.parent, hclose⟩
    · have hnot : b.all (inside it.indent) = false := by
        by_contra hall
        refine hopen ?_
        rw [h.stack, List.mem_map, htexts]
        refine ⟨_, (mem_stack_marks (t := t) (a := a) (b := b) hm).mpr ?_, rfl⟩
        rw [← hdesc.indent]
        simpa using hall
      simp only [if_neg hopen]
      refine ⟨hdesc.index, hdesc.line, hdesc.indent, hdesc.indentText, hdesc.parent, ?_⟩
      rw [hdesc.endLine, hnot]
      rfl
  · intro j it hit
    rw [getElem?_closeAll] at hit
    obtain ⟨it', hit', rfl⟩ := Option.map_eq_some_iff.mp hit
    rw [childrenOf_closeAll, ← h.children j it' hit']
    split <;> rfl

end Savoire.Outlines
