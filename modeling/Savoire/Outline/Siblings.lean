import Savoire.Outline.Edit

/-! The lines of the item at the cursor, of its parent and of the siblings next to it. -/
namespace Savoire.Outlines
open NearestSmaller

variable {texts a b w : List Units} {t : Units} {m : ItemMatch} {o : Outline} {it it' prev p : OutlineItem}
  {pos i j k n : Nat}

/-- An item with its line, the lines before and those after. -/
structure Found (texts : List Units) (o : Outline) (it : OutlineItem) (a : List Units) (t : Units) (m : ItemMatch)
    (w : List Units) : Prop where
  texts : texts = a ++ t :: w
  re : itemRe t = some m
  get : o.items[(heads a).length]? = some it
  isItem : IsItem a m w it

theorem Parsed.found (h : Parsed texts o) (hit : o.items[j]? = some it) :
    ∃ a t m w, Found texts o it a t m w ∧ (heads a).length = j := by
  have hlt : j < (heads texts).length := h.count ▸ (List.getElem?_eq_some_iff.mp hit).1
  obtain ⟨a, t, w, m, htexts, hm, hj, -⟩ := heads_split (List.getElem?_eq_getElem hlt)
  obtain ⟨it', hit', hitem⟩ := h.item a t w m htexts hm
  have hget := hit'
  rw [hj, hit] at hit'
  obtain rfl := Option.some.inj hit'
  exact ⟨a, t, m, w, ⟨htexts, hm, hget, hitem⟩, hj⟩

theorem Parsed.index (h : Parsed texts o) (hit : o.items[j]? = some it) : it.index = j := by
  obtain ⟨a, t, m, w, hf, hj⟩ := h.found hit
  rw [hf.isItem.index, hj]

theorem Parsed.parent_lt (h : Parsed texts o) (hit : o.items[j]? = some it) (hp : it.parent = some k) : k < j := by
  obtain ⟨a, t, m, w, hf, hj⟩ := h.found hit
  rw [hf.isItem.parent] at hp
  obtain ⟨q, hq, rfl⟩ := Option.map_eq_some_iff.mp hp
  have hlt := (List.getElem?_eq_some_iff.mp (mem_marks (List.mem_of_find?_eq_some hq))).1
  omega

theorem Parsed.owning (h : Parsed texts o) (hit : itemOwning o pos = some it) :
    ∃ a t m w, Found texts o it a t m w ∧ it.line ≤ lineOf o pos ∧ lineOf o pos < texts.length := by
  obtain ⟨idx, hidx, hget⟩ := Option.bind_eq_some_iff.mp hit
  rw [h.owner, List.getElem?_map, Option.join_eq_some_iff] at hidx
  obtain ⟨li, hli, hlast⟩ := Option.map_eq_some_iff.mp hidx
  obtain ⟨hlt, rfl⟩ := List.getElem?_eq_some_iff.mp hli
  rw [List.length_range] at hlt
  rw [List.getElem_range] at hlast
  generalize lineOf o pos = li at hlt hlast ⊢
  have hcount : (heads (texts.take (li + 1))).length = idx + 1 := by
    unfold lastItem at hlast
    split at hlast
    · cases hlast
    · have := Option.some.inj hlast
      omega
  obtain ⟨a, t, b, m, hsplit, hm, hj, -⟩ :=
    heads_split (List.getElem?_eq_getElem (by omega : idx < (heads (texts.take (li + 1))).length))
  have htexts : texts = a ++ t :: (b ++ texts.drop (li + 1)) := by
    rw [← List.cons_append, ← List.append_assoc, ← hsplit, List.take_append_drop]
  obtain ⟨it', hit', hitem⟩ := h.item a t _ m htexts hm
  have hget' := hit'
  rw [hj, hget] at hit'
  obtain rfl := Option.some.inj hit'
  refine ⟨a, t, m, _, ⟨htexts, hm, hget', hitem⟩, ?_, hlt⟩
  have hlen := congrArg List.length hsplit
  rw [List.length_take, List.length_append, List.length_cons] at hlen
  rw [hitem.line]
  omega

theorem parentOf_eq (hit : o.items[j]? = some it) : parentOf o.items j = it.parent := by
  rw [parentOf, hit]
  rfl

theorem Parsed.siblings (h : Parsed texts o) (hit : o.items[j]? = some it) :
    siblingsOf o it = childrenOf o.items it.parent := by
  unfold siblingsOf
  cases hp : it.parent with
  | none => exact h.roots
  | some k =>
    have hlt := h.parent_lt hit hp
    have hj := (List.getElem?_eq_some_iff.mp hit).1
    have hk : o.items[k]? = some o.items[k] := List.getElem?_eq_getElem (by omega)
    simp only [hk, Option.map_some, Option.getD_some]
    exact h.children k _ hk

theorem childrenOf_sorted (items : List OutlineItem) (p : Option Nat) : (childrenOf items p).Pairwise (· < ·) :=
  (List.pairwise_lt_range).filter _

variable {l : List Nat}

theorem notMem_between (hl : l.Pairwise (· < ·)) (hi : l[k]? = some i) (hj : l[k + 1]? = some j)
    (hin : i < n) (hnj : n < j) : n ∉ l := by
  intro hn
  obtain ⟨q, hq⟩ := List.mem_iff_getElem?.mp hn
  obtain ⟨hi', rfl⟩ := List.getElem?_eq_some_iff.mp hi
  obtain ⟨hj', rfl⟩ := List.getElem?_eq_some_iff.mp hj
  obtain ⟨hq', rfl⟩ := List.getElem?_eq_some_iff.mp hq
  rw [List.pairwise_iff_getElem] at hl
  by_cases hqk : q ≤ k
  · obtain rfl | hlt := Nat.eq_or_lt_of_le hqk
    · omega
    · have := hl q k hq' hi' hlt
      omega
  · obtain rfl | hlt := Nat.eq_or_lt_of_le (by omega : k + 1 ≤ q)
    · omega
    · have := hl (k + 1) q hj' hq' hlt
      omega

theorem idxOf?_eq_some (hl : l.Pairwise (· < ·)) : l.idxOf? i = some k ↔ l[k]? = some i := by
  constructor
  · intro h
    obtain ⟨hk, heq, -⟩ := List.findIdx?_eq_some_iff_getElem.mp h
    rw [List.getElem?_eq_getElem hk]
    simpa using heq
  · intro h
    obtain ⟨hk, rfl⟩ := List.getElem?_eq_some_iff.mp h
    refine List.findIdx?_eq_some_iff_getElem.mpr ⟨hk, by simp, fun q hq => ?_⟩
    have hlt := List.pairwise_iff_getElem.mp hl q k (by omega) hk hq
    simpa using Nat.ne_of_lt hlt

/-- The item before `it` under its parent. -/
structure Before (o : Outline) (prev it : OutlineItem) : Prop where
  get : o.items[prev.index]? = some prev
  parent : prev.parent = it.parent
  lt : prev.index < it.index
  between : ∀ k, prev.index < k → k < it.index → parentOf o.items k ≠ it.parent

theorem Parsed.before_iff (h : Parsed texts o) (hit : o.items[it.index]? = some it) :
    previousSibling o it = some prev ↔
      ∃ k, (childrenOf o.items it.parent)[k]? = some prev.index ∧ o.items[prev.index]? = some prev ∧
        (childrenOf o.items it.parent)[k + 1]? = some it.index := by
  have hsorted := childrenOf_sorted o.items it.parent
  rw [previousSibling, h.siblings hit]
  constructor
  · intro hprev
    split at hprev
    · rename_i k hk
      obtain ⟨i, hi, hget⟩ := Option.bind_eq_some_iff.mp hprev
      obtain rfl := h.index hget
      exact ⟨k, hi, hget, (idxOf?_eq_some hsorted).mp hk⟩
    · cases hprev
  · rintro ⟨k, hk, hget, hnext⟩
    rw [(idxOf?_eq_some hsorted).mpr hnext]
    simp only [hk, Option.bind_some, hget]

theorem Parsed.next_iff (h : Parsed texts o) (hit : o.items[it.index]? = some it) :
    nextSibling o it = some it' ↔ o.items[it'.index]? = some it' ∧ previousSibling o it' = some it := by
  have hsorted := childrenOf_sorted o.items it.parent
  have hmem : ∀ {k idx : Nat} {x : OutlineItem}, (childrenOf o.items it.parent)[k]? = some idx →
      o.items[idx]? = some x → x.parent = it.parent := by
    intro k idx x hk hx
    have hp := (List.mem_filter.mp (List.mem_of_getElem? hk)).2
    rwa [beq_iff_eq, parentOf_eq hx] at hp
  rw [nextSibling, h.siblings hit]
  constructor
  · intro hnext
    split at hnext
    · rename_i k hk
      obtain ⟨j, hj, hget⟩ := Option.bind_eq_some_iff.mp hnext
      obtain rfl := h.index hget
      refine ⟨hget, (h.before_iff hget).mpr ?_⟩
      rw [hmem hj hget]
      exact ⟨k, (idxOf?_eq_some hsorted).mp hk, hit, hj⟩
    · cases hnext
  · rintro ⟨hget, hprev⟩
    obtain ⟨k, hk, -, hnext⟩ := (h.before_iff hget).mp hprev
    have hp : it'.parent = it.parent := by
      have hmem' := (List.mem_filter.mp (List.mem_of_getElem? hk)).2
      rw [beq_iff_eq, parentOf_eq hit] at hmem'
      exact hmem'.symm
    rw [hp] at hk hnext
    rw [(idxOf?_eq_some hsorted).mpr hk]
    simp only [hnext, Option.bind_some, hget]

theorem Parsed.before (h : Parsed texts o) (hit : o.items[it.index]? = some it)
    (hprev : previousSibling o it = some prev) : Before o prev it := by
  have hsorted := childrenOf_sorted o.items it.parent
  obtain ⟨k, hk, hget, hnext⟩ := (h.before_iff hit).mp hprev
  obtain ⟨hk', hki⟩ := List.getElem?_eq_some_iff.mp hk
  obtain ⟨hn', hni⟩ := List.getElem?_eq_some_iff.mp hnext
  refine ⟨hget, ?_, ?_, fun n hn hnit hp => ?_⟩
  · have hmem := (List.mem_filter.mp (List.mem_of_getElem? hk)).2
    rwa [beq_iff_eq, parentOf_eq hget] at hmem
  · have hlt := List.pairwise_iff_getElem.mp hsorted k (k + 1) hk' hn' (by omega)
    omega
  · refine notMem_between hsorted hk hnext hn hnit (List.mem_filter.mpr ⟨?_, by rw [hp]; exact beq_self_eq_true _⟩)
    have hlt := (List.getElem?_eq_some_iff.mp hit).1
    rw [List.mem_range]
    omega

theorem mem_childrenOf {q : Option Nat} (hit : o.items[it.index]? = some it) (hq : it.parent = q) :
    it.index ∈ childrenOf o.items q := by
  refine List.mem_filter.mpr ⟨List.mem_range.mpr (List.getElem?_eq_some_iff.mp hit).1, ?_⟩
  rw [parentOf_eq hit, hq]
  exact beq_self_eq_true q

theorem Parsed.previousSibling_eq (h : Parsed texts o) (hit : o.items[it.index]? = some it) (hb : Before o prev it) :
    previousSibling o it = some prev := by
  have hsorted := childrenOf_sorted o.items it.parent
  obtain ⟨k, hk⟩ := List.mem_iff_getElem?.mp (mem_childrenOf hb.get hb.parent)
  obtain ⟨q, hq⟩ := List.mem_iff_getElem?.mp (mem_childrenOf hit rfl)
  obtain ⟨hk', hki⟩ := List.getElem?_eq_some_iff.mp hk
  obtain ⟨hq', hqi⟩ := List.getElem?_eq_some_iff.mp hq
  have hlt := hb.lt
  rw [List.pairwise_iff_getElem] at hsorted
  have hkq : k < q := by
    by_contra hle
    obtain rfl | hqk := Nat.eq_or_lt_of_le (by omega : q ≤ k)
    · omega
    · have := hsorted q k hq' hk' hqk
      omega
  refine (h.before_iff hit).mpr ⟨k, hk, hb.get, ?_⟩
  obtain rfl | hne := Nat.eq_or_lt_of_le (by omega : k + 1 ≤ q)
  · exact hq
  · -- What stands between them would be a sibling as well.
    exfalso
    have hmem := (List.mem_filter.mp (List.getElem_mem (by omega : k + 1 < (childrenOf o.items it.parent).length))).2
    have hlow := hsorted k (k + 1) hk' (by omega) (by omega)
    have hhigh := hsorted (k + 1) q (by omega) hq' hne
    exact hb.between _ (by omega) (by omega) (beq_iff_eq.mp hmem)

theorem Parsed.row (h : Parsed texts o) (hit : o.items[j]? = some it) : (heads texts)[j]? = some it.indent ∧
    it.parent = (parent Prod.fst ((heads texts).take j).zipIdx.reverse it.indent).map Prod.snd := by
  obtain ⟨a, t, m, w, hf, rfl⟩ := h.found hit
  constructor
  · rw [hf.texts, heads_append, heads_cons hf.re, List.getElem?_append_right le_rfl, Nat.sub_self, hf.isItem.indent]
    rfl
  · rw [hf.isItem.parent, hf.texts, heads_append, List.take_left]
    rfl

theorem nodup_zipIdx (l : List Nat) : l.zipIdx.Nodup := by
  refine List.Nodup.of_map Prod.snd ?_
  rw [List.zipIdx_map_snd]
  exact List.nodup_range'

theorem parent_snd_inj {u v : Option (Nat × Nat)} (hu : ∀ p ∈ u, p ∈ l.zipIdx)
    (hv : ∀ p ∈ v, p ∈ l.zipIdx) (huv : u.map Prod.snd = v.map Prod.snd) : u = v := by
  cases u with
  | none =>
    cases v with
    | none => rfl
    | some q => cases huv
  | some p =>
    cases v with
    | none => cases huv
    | some q =>
      have hp := List.mem_zipIdx_iff_getElem?.mp (hu p rfl)
      have hq := List.mem_zipIdx_iff_getElem?.mp (hv q rfl)
      have hsnd : p.2 = q.2 := Option.some.inj huv
      rw [hsnd, hq] at hp
      exact congrArg some (Prod.ext (Option.some.inj hp).symm hsnd)

theorem mem_of_parent {q : Nat × Nat} (hq : q ∈ parent Prod.fst (l.take k).zipIdx.reverse n) :
    q ∈ l.zipIdx := by
  have hmem := List.mem_zipIdx_iff_getElem?.mp (List.mem_reverse.mp (List.mem_of_find?_eq_some hq))
  have hlt := (List.getElem?_eq_some_iff.mp hmem).1
  rw [List.length_take] at hlt
  rw [List.getElem?_take_of_lt (by omega)] at hmem
  exact List.mem_zipIdx_iff_getElem?.mpr hmem

theorem exists_split {x y : Nat} (hx : l[i]? = some x) (hy : l[j]? = some y) (hlt : i < j) :
    ∃ u s v, l = u ++ x :: (s ++ y :: v) ∧ u.length = i ∧ u.length + s.length + 1 = j := by
  obtain ⟨hi, rfl⟩ := List.getElem?_eq_some_iff.mp hx
  obtain ⟨hj, rfl⟩ := List.getElem?_eq_some_iff.mp hy
  refine ⟨l.take i, (l.drop (i + 1)).take (j - (i + 1)), l.drop (j + 1), ?_, by simp; omega, by simp; omega⟩
  have hsplit : l.drop (i + 1) = (l.drop (i + 1)).take (j - (i + 1)) ++ l.drop j := by
    have hdrop : l.drop j = (l.drop (i + 1)).drop (j - (i + 1)) := by
      rw [List.drop_drop]
      congr 1
      omega
    rw [hdrop, List.take_append_drop]
  rw [← List.drop_eq_getElem_cons hj, ← hsplit, ← List.drop_eq_getElem_cons hi, List.take_append_drop]

theorem Before.columns (h : Parsed texts o) (hb : Before o prev it) (hit : o.items[it.index]? = some it) :
    it.indent ≤ prev.indent ∧ ∀ k x, prev.index < k → k < it.index → o.items[k]? = some x → prev.indent < x.indent := by
  obtain ⟨hcol, hparent⟩ := h.row hit
  obtain ⟨hcol', hparent'⟩ := h.row hb.get
  obtain ⟨u, s, v, hH, hu, hs⟩ := exists_split hcol' hcol hb.lt
  have htake : (heads texts).take prev.index = u := by rw [hH, ← hu, List.take_left]
  -- The items up to one after the first, newest first.
  have hfrom : ∀ s1 rest, s ++ it.indent :: v = s1 ++ rest →
      ((heads texts).take (prev.index + 1 + s1.length)).zipIdx.reverse =
        (s1.zipIdx (prev.index + 1)).reverse ++ (prev.indent, prev.index) :: u.zipIdx.reverse := by
    intro s1 rest hrest
    have hlist : (heads texts).take (prev.index + 1 + s1.length) = u ++ prev.indent :: s1 := by
      rw [hH, hrest, List.take_append, List.take_of_length_le (by omega)]
      have hlen : prev.index + 1 + s1.length - u.length = s1.length + 1 := by omega
      rw [hlen, List.take_succ_cons, List.take_left]
    rw [hlist, List.zipIdx_append, List.zipIdx_cons, List.reverse_append, List.reverse_cons, hu, Nat.zero_add,
      List.append_assoc]
    rfl
  have hindex : prev.index + 1 + s.length = it.index := by omega
  have hsame := parent_snd_inj (fun q => mem_of_parent) (fun q => mem_of_parent)
    (hparent.symm.trans (hb.parent.symm.trans hparent'))
  rw [← hindex, hfrom s _ rfl, htake] at hsame
  have hnodup :
      (u.zipIdx ++ (prev.indent, prev.index) :: s.zipIdx (prev.index + 1) ++ [(it.indent, it.index)]).Nodup := by
    have hall := nodup_zipIdx (u ++ prev.indent :: s ++ [it.indent])
    rw [List.zipIdx_append, List.zipIdx_append, List.zipIdx_cons, List.zipIdx_singleton] at hall
    simp only [List.length_append, List.length_cons, Nat.zero_add, hu] at hall
    have hlast : prev.index + (s.length + 1) = it.index := by omega
    rwa [hlast] at hall
  have hget : ∀ k x, prev.index < k → k < it.index → o.items[k]? = some x →
      (x.indent, k) ∈ s.zipIdx (prev.index + 1) := by
    intro k x hk hki hx
    have hcolx := (h.row hx).1
    rw [hH, List.getElem?_append_right (by omega)] at hcolx
    have hsub : k - u.length = k - (prev.index + 1) + 1 := by omega
    rw [hsub, List.getElem?_cons_succ, List.getElem?_append_left (by omega)] at hcolx
    exact List.mk_mem_zipIdx_iff_le_and_getElem?_sub.mpr ⟨by omega, hcolx⟩
  obtain ⟨hle, hall⟩ := next_sibling hnodup hsame fun u' z w hzip heq => by
    obtain ⟨s1, rest, rfl, rfl, hrest⟩ := List.zipIdx_eq_append_iff.mp hzip
    obtain ⟨y, s2, rfl, rfl, rfl⟩ := List.zipIdx_eq_cons_iff.mp hrest.symm
    have hlt := (List.getElem?_eq_some_iff.mp hit).1
    simp only [List.length_append, List.length_cons] at hs
    obtain ⟨x, hx⟩ : ∃ x, o.items[prev.index + 1 + s1.length]? = some x := ⟨_, List.getElem?_eq_getElem (by omega)⟩
    obtain ⟨hcolx, hparentx⟩ := h.row hx
    rw [hH, List.getElem?_append_right (by omega)] at hcolx
    have hsub : prev.index + 1 + s1.length - u.length = s1.length + 1 := by omega
    rw [hsub, List.getElem?_cons_succ, List.append_assoc, List.getElem?_append_right le_rfl, Nat.sub_self] at hcolx
    obtain rfl : y = x.indent := Option.some.inj hcolx
    rw [hfrom s1 _ (List.append_assoc ..), heq, ← htake, ← hparent'] at hparentx
    exact hb.between _ (by omega) (by omega) ((parentOf_eq hx).trans (hparentx.trans hb.parent))
  exact ⟨hle, fun k x hk hki hx => hall _ (hget k x hk hki hx)⟩

theorem Found.split {a' w' : List Units} {t' : Units} {m' : ItemMatch} (hf' : Found texts o it' a' t' m' w')
    (hf : Found texts o it a t m w) (hlt : it'.index < it.index) :
    ∃ s, a = a' ++ t' :: s ∧ w' = s ++ t :: w := by
  have hlines := hf'.texts.symm.trans hf.texts
  rw [hf'.isItem.index, hf.isItem.index] at hlt
  obtain ⟨s, rfl, hs⟩ | ⟨s, rfl, hs⟩ := List.append_eq_append_iff.mp hlines
  · cases s with
    | nil => simp at hlt
    | cons x s =>
      obtain ⟨rfl, rfl⟩ := List.cons.inj hs
      exact ⟨s, rfl, rfl⟩
  · rw [heads_append, List.length_append] at hlt
    omega

theorem Found.getElem? (h : Parsed texts o) (hf : Found texts o it a t m w) {c : Nat} (hc : (heads w)[k]? = some c) :
    ∃ x, o.items[it.index + 1 + k]? = some x ∧ x.indent = c := by
  have hplace : (heads texts)[it.index + 1 + k]? = some c := by
    have hsub : (heads a).length + 1 + k - (heads a).length = k + 1 := by omega
    rw [hf.isItem.index, hf.texts, heads_append, heads_cons hf.re, List.getElem?_append_right (by omega), hsub,
      List.getElem?_cons_succ, hc]
  have hlt := (List.getElem?_eq_some_iff.mp hplace).1
  have hx := List.getElem?_eq_getElem (h.count ▸ hlt : it.index + 1 + k < o.items.length)
  refine ⟨_, hx, ?_⟩
  rw [(h.row hx).1] at hplace
  exact Option.some.inj hplace

theorem Parsed.previous (h : Parsed texts o) (hf : Found texts o it a t m w)
    (hprev : previousSibling o it = some prev) : ∃ a' t' m' s, a = a' ++ t' :: s ∧
      Found texts o prev a' t' m' (s ++ t :: w) ∧ prev.parent = it.parent ∧ it.indent ≤ prev.indent ∧
      ∀ c ∈ heads s, prev.indent < c := by
  have hit : o.items[it.index]? = some it := by
    rw [hf.isItem.index]
    exact hf.get
  have hb := h.before hit hprev
  obtain ⟨a', t', m', w', hf', hindex⟩ := h.found hb.get
  obtain ⟨s, rfl, rfl⟩ := hf'.split hf hb.lt
  obtain ⟨hle, hall⟩ := hb.columns h hit
  refine ⟨a', t', m', s, rfl, hf', hb.parent, hle, fun c hc => ?_⟩
  obtain ⟨k, hk⟩ := List.mem_iff_getElem?.mp hc
  have hklt := (List.getElem?_eq_some_iff.mp hk).1
  have hk' : (heads (s ++ t :: w))[k]? = some c := by
    rw [heads_append, List.getElem?_append_left hklt, hk]
  obtain ⟨x, hx, rfl⟩ := hf'.getElem? h hk'
  have hlen : it.index = prev.index + 1 + (heads s).length := by
    rw [hf.isItem.index, hf'.isItem.index, heads_append, heads_cons hf'.re, List.length_append, List.length_cons]
    omega
  exact hall _ x (by omega) (by omega) hx

end Savoire.Outlines
