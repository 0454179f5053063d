import Savoire.Outline.Lines

/-! The tree of an outline taken apart at an item: what comes before it, its subtree, and what comes after. -/
namespace Savoire.Outlines
open NearestSmaller

/-- Item `r` of some and all that have their parent among those already found. -/
def gather (parent : Nat → Option Nat) (r : Nat) (s : List Nat) (ks : List Nat) : List Nat :=
  ks.foldl (fun s k => if k = r ∨ (parent k).any (s.contains ·) then s ++ [k] else s) s

def Outline.subtree (o : Outline) (r : Nat) : List Nat := gather (parentOf o.items) r [] o.names

def Outline.entries (o : Outline) (order : List Nat) : List Entry := order.filterMap ((o.tree o.names)[·]?)

variable {texts a b g r w : List Units} {t : Units} {m : ItemMatch} {o : Outline} {it : OutlineItem}
  {na nb nc names : List Nat} {n j k : Nat}

/-- The lines of a subtree, the empty lines after it, and the rest. -/
structure Block (n : Nat) (b g r : List Units) : Prop where
  inside : ∀ c ∈ heads b, n < c
  full : b.rdropWhile isEmpty = b
  gap : ∀ x ∈ g, isEmpty x = true
  stop : ∀ x ∈ r.head?, ∃ m, itemRe x = some m ∧ columns m.indentText ≤ n

theorem Found.block (h : Found texts o it a t m w) : ∃ b g r, w = b ++ (g ++ r) ∧ Block it.indent b g r ∧
    it.endLine = a.length + b.length := by
  obtain ⟨g, r, hw, hgap, hstop, hinside⟩ := blockRest_spec it.indent w
  exact ⟨_, g, r, hw, ⟨hinside, List.rdropWhile_idempotent _ _, hgap, hstop⟩, h.isItem.endLine⟩

theorem length_heads_item (hm : itemRe t = some m) (hg : ∀ x ∈ g, isEmpty x = true) :
    (heads (a ++ t :: (b ++ g))).length = (heads a).length + 1 + (heads b).length := by
  have hg' := heads_empty hg []
  rw [List.append_nil] at hg'
  rw [heads_append, heads_cons hm, heads_append, hg']
  simp [heads]
  omega

section
variable (h : Block n b g r)
include h

theorem Block.gap_rest : Gap (g ++ r) := by
  refine gap_append h.gap ?_
  cases r with
  | nil => exact gap_nil
  | cons x r =>
    obtain ⟨m, hm, -⟩ := h.stop x rfl
    exact gap_item hm r

theorem Block.heads_rest : heads (g ++ r) = heads r := heads_empty h.gap r

theorem Block.blockRest : Outlines.blockRest n (b ++ (g ++ r)) = b := by
  have hempty : ∀ x ∈ g, Outlines.inside n x = true := by
    intro x hx
    rw [Outlines.inside, itemRe_isEmpty (h.gap x hx)]
    rfl
  have hstop : r.takeWhile (Outlines.inside n) = [] := by
    cases r with
    | nil => rfl
    | cons x r =>
      obtain ⟨m, hm, hle⟩ := h.stop x rfl
      refine List.takeWhile_cons_of_neg ?_
      rw [Outlines.inside, hm, Option.all_some]
      simpa using hle
  rw [Outlines.blockRest, List.takeWhile_append_of_pos (List.all_eq_true.mp (all_inside.mpr h.inside)),
    List.takeWhile_append_of_pos hempty, hstop, List.append_nil]
  conv_rhs => rw [← h.full]
  rw [List.rdropWhile, List.rdropWhile, List.reverse_append,
    List.dropWhile_append_of_pos fun x hx => h.gap x (List.mem_reverse.mp hx)]

theorem Block.heads_head_le : ∀ c ∈ (heads r).head?, c ≤ n := by
  intro c hc
  cases r with
  | nil => simp [heads] at hc
  | cons x r =>
    obtain ⟨m, hm, hle⟩ := h.stop x rfl
    rw [heads_cons hm, List.head?_cons, Option.mem_some_iff] at hc
    exact hc ▸ hle

theorem Block.head_le : ∀ y ∈ (nodes nc r).head?, y.indent ≤ n := by
  intro y hy
  cases r with
  | nil => simp [nodes, rows, bodies] at hy
  | cons x r =>
    obtain ⟨m, hm, hle⟩ := h.stop x rfl
    cases nc with
    | nil => simp [nodes] at hy
    | cons name nc =>
      rw [nodes_item hm, List.head?_cons, Option.mem_some_iff] at hy
      rw [← hy]
      exact hle

theorem Block.nodes_lt (hlen : nb.length = (heads b).length) :
    ∀ y ∈ nodes nb b, n < y.indent := by
  intro y hy
  refine h.inside _ ?_
  rw [← map_indent_nodes hlen]
  exact List.mem_map_of_mem hy

theorem Block.nodes (hm : itemRe t = some m) (hna : na.length = (heads a).length)
    (hnb : nb.length = (heads b).length) : Outlines.nodes (na ++ (j :: nb ++ nc)) (a ++ t :: (b ++ (g ++ r))) =
      Outlines.nodes na a ++
        (⟨j, columns m.indentText, content t b⟩ :: Outlines.nodes nb b ++ Outlines.nodes nc r) := by
  have hrest : Outlines.nodes nc (g ++ r) = Outlines.nodes nc r := by
    rw [Outlines.nodes, Outlines.nodes, rows_empty h.gap]
  rw [nodes_append (gap_item hm _) hna, List.cons_append, nodes_item hm, content_append h.gap_rest,
    nodes_append h.gap_rest hnb, hrest]
  rfl

end

theorem Block.tree (h : Block (columns m.indentText) b g r) (hm : itemRe t = some m)
    (hna : na.length = (heads a).length) (hnb : nb.length = (heads b).length) (hnc : nc.length = (heads r).length) :
    (parseLines (a ++ t :: (b ++ (g ++ r)))).tree (na ++ (j :: nb ++ nc)) =
      (parents Node.indent [] (Outlines.nodes na a)).map entry ++
        (entry (⟨j, columns m.indentText, content t b⟩,
            parent Node.indent (Outlines.nodes na a).reverse (columns m.indentText)) ::
          (parents Node.indent [⟨j, columns m.indentText, content t b⟩] (Outlines.nodes nb b)).map entry ++
          (parents Node.indent (Outlines.nodes na a).reverse (Outlines.nodes nc r)).map entry) := by
  have hcount : (na ++ (j :: nb ++ nc)).length = (heads (a ++ t :: (b ++ (g ++ r)))).length := by
    rw [heads_append, heads_cons hm, heads_append, h.heads_rest]
    simp only [List.length_append, List.length_cons, hna, hnb, hnc]
    omega
  rw [tree_parseLines hcount, h.nodes hm hna hnb, parents_append, List.append_nil,
    parents_block (h.nodes_lt hnb) h.head_le]
  simp only [List.map_append, List.map_cons]

theorem Parsed.names_eq (h : Parsed texts o) : o.names = List.range (heads texts).length := by
  rw [Outline.names, h.count]

theorem Parsed.tree_eq (h : Parsed texts o) (hit : o.items[k]? = some it) :
    (o.tree o.names)[k]? = some ⟨k, it.parent, o.content it⟩ := by
  have hlt := (List.getElem?_eq_some_iff.mp hit).1
  have hname : ∀ i < o.items.length, o.names[i]? = some i := fun i hi => List.getElem?_range hi
  have hparent : it.parent.bind (o.names[·]?) = it.parent := by
    cases hp : it.parent with
    | none => rfl
    | some p =>
      have hpk := h.parent_lt hit hp
      exact hname p (by omega)
  rw [Outline.tree, List.getElem?_zipWith, hit, hname k hlt]
  simp only [hparent]

theorem Parsed.length_tree (h : Parsed texts o) : (o.tree o.names).length = (heads texts).length := by
  rw [Outline.tree, List.length_zipWith, Outline.names, List.length_range, Nat.min_self, h.count]

theorem Parsed.parentOf_tree (h : Parsed texts o) (k : Nat) :
    parentOf o.items k = (o.tree o.names)[k]?.bind Entry.parent := by
  cases hit : o.items[k]? with
  | none =>
    have hle : (o.tree o.names).length ≤ k := by
      rw [h.length_tree, ← h.count]
      exact List.getElem?_eq_none_iff.mp hit
    rw [parentOf, hit, List.getElem?_eq_none_iff.mpr hle]
    rfl
  | some it =>
    rw [h.tree_eq hit, parentOf_eq hit]
    rfl

theorem names_split (i j k : Nat) :
    List.range (i + (j + 1 + k)) = List.range i ++ (i :: List.range' (i + 1) j ++ List.range' (i + 1 + j) k) := by
  rw [List.range_eq_range', List.range_eq_range', ← List.range'_append, Nat.zero_add, ← List.range'_append, Nat.one_mul,
    Nat.one_mul, List.range'_succ, Nat.add_right_comm i 1 j, ← Nat.add_assoc]

section Gather
variable {parent : Nat → Option Nat} {i d s : Nat} {l : List Nat}

theorem gather_append (s l l' : List Nat) : gather parent i s (l ++ l') = gather parent i (gather parent i s l) l' :=
  List.foldl_append ..

theorem gather_none {s : List Nat} (h : ∀ k ∈ l, k ≠ i ∧ ∀ p ∈ parent k, p ∉ s) : gather parent i s l = s := by
  induction l with
  | nil => rfl
  | cons k l ih =>
    rw [List.forall_mem_cons] at h
    have hnot : ¬ (k = i ∨ (parent k).any (s.contains ·) = true) := by
      rintro (hk | hany)
      · exact h.1.1 hk
      · obtain ⟨p, hp, hmem⟩ := (Option.any_eq_true _ _).mp hany
        exact h.1.2 p hp (by simpa using hmem)
    rw [gather, List.foldl_cons, if_neg hnot]
    exact ih h.2

theorem gather_all (n : Nat) (h : ∀ k, i + d ≤ k → k < i + d + n → ∃ p, parent k = some p ∧ i ≤ p ∧ p < k) :
    gather parent i (List.range' i d) (List.range' (i + d) n) = List.range' i (d + n) := by
  induction n generalizing d with
  | zero => rfl
  | succ n ih =>
    obtain ⟨p, hp, hle, hlt⟩ := h (i + d) le_rfl (by omega)
    have hmem : (parent (i + d)).any ((List.range' i d).contains ·) = true := by
      rw [hp, Option.any_some, List.contains_iff_mem, List.mem_range'_1]
      omega
    have hrest := ih (d := d + 1) fun k hk hkn => h k (by omega) (by omega)
    rw [List.range'_succ, gather, List.foldl_cons, if_pos (.inr hmem)]
    rw [List.range'_1_concat, ← Nat.add_assoc, Nat.add_right_comm d 1 n] at hrest
    exact hrest

end Gather

theorem mem_parents {v : Node → Nat} {before l : List Node} {y q : Node} (h : (y, some q) ∈ parents v before l) :
    q ∈ before ∨ q ∈ l := by
  induction l generalizing before with
  | nil => cases h
  | cons x l ih =>
    obtain h | h := List.mem_cons.mp h
    · exact .inl (List.mem_of_find?_eq_some (Prod.mk.inj h).2.symm)
    · obtain hq | hq := ih h
      · obtain rfl | hq := List.mem_cons.mp hq
        · exact .inr List.mem_cons_self
        · exact .inl hq
      · exact .inr (List.mem_cons_of_mem x hq)

theorem parents_ne_none {v : Node → Nat} {before l : List Node} {x y : Node} (hx : x ∈ before)
    (hl : ∀ y ∈ l, v x < v y) : (y, none) ∉ parents v before l := by
  induction l generalizing before with
  | nil => exact List.not_mem_nil
  | cons z l ih =>
    rw [List.forall_mem_cons] at hl
    intro h
    obtain h | h := List.mem_cons.mp h
    · have hle := parent_eq_none.mp (Prod.mk.inj h).2.symm x hx
      omega
    · exact ih (List.mem_cons_of_mem z hx) hl.2 h

theorem length_nodes (h : names.length = (heads w).length) : (nodes names w).length = (heads w).length := by
  rw [nodes, List.length_zipWith, length_rows, h, Nat.min_self]

theorem name_mem {y : Node} (h : y ∈ nodes names w) : y.name ∈ names := by
  obtain ⟨k, hk⟩ := List.mem_iff_getElem?.mp h
  rw [nodes, List.getElem?_zipWith_eq_some] at hk
  obtain ⟨name, r, hname, -, rfl⟩ := hk
  exact List.mem_of_getElem? hname

theorem name_mem_tree {v : Node → Nat} {before : List Node} {e : Entry}
    (h : e ∈ (parents v before (nodes names w)).map entry) : e.name ∈ names := by
  obtain ⟨y, hy, rfl⟩ := List.mem_map.mp h
  refine name_mem (w := w) ?_
  rw [← map_fst_parents (v := v) before (nodes names w)]
  exact List.mem_map_of_mem hy

/-- An item, the items under it, and the others after it, as the tree shows them. -/
structure At (texts : List Units) (a : List Units) (t : Units) (m : ItemMatch) (b g r : List Units) : Prop where
  texts : texts = a ++ t :: (b ++ (g ++ r))
  re : itemRe t = some m
  block : Block (columns m.indentText) b g r

theorem Found.at (h : Found texts o it a t m w) : ∃ b g r, w = b ++ (g ++ r) ∧ At texts a t m b g r ∧
    it.endLine = a.length + b.length := by
  obtain ⟨b, g, r, rfl, hblock, hend⟩ := h.block
  exact ⟨b, g, r, rfl, ⟨h.texts, h.re, h.isItem.indent ▸ hblock⟩, hend⟩

section At
variable (h : At texts a t m b g r)
include h

theorem At.count : (heads texts).length = (heads a).length + ((heads b).length + 1 + (heads r).length) := by
  rw [h.texts, heads_append, heads_cons h.re, heads_append, h.block.heads_rest]
  simp only [List.length_append, List.length_cons]
  omega

theorem At.tree : (parseLines texts).tree (parseLines texts).names =
    (parents Node.indent [] (nodes (List.range (heads a).length) a)).map entry ++
      (entry (⟨(heads a).length, columns m.indentText, content t b⟩,
          parent Node.indent (nodes (List.range (heads a).length) a).reverse (columns m.indentText)) ::
        (parents Node.indent [⟨(heads a).length, columns m.indentText, content t b⟩]
          (nodes (List.range' ((heads a).length + 1) (heads b).length) b)).map entry ++
        (parents Node.indent (nodes (List.range (heads a).length) a).reverse
          (nodes (List.range' ((heads a).length + 1 + (heads b).length) (heads r).length) r)).map entry) := by
  rw [(parsed_parseLines texts).names_eq, h.count, names_split, h.texts]
  exact h.block.tree h.re (by simp) (by simp) (by simp)

theorem At.map_tree (p : Option Nat) : ((parseLines texts).tree (parseLines texts).names).map
    (fun e => if e.name = (heads a).length then { e with parent := p } else e) =
    (parents Node.indent [] (nodes (List.range (heads a).length) a)).map entry ++
      (⟨(heads a).length, p, content t b⟩ ::
        (parents Node.indent [⟨(heads a).length, columns m.indentText, content t b⟩]
          (nodes (List.range' ((heads a).length + 1) (heads b).length) b)).map entry ++
        (parents Node.indent (nodes (List.range (heads a).length) a).reverse
          (nodes (List.range' ((heads a).length + 1 + (heads b).length) (heads r).length) r)).map entry) := by
  have hother : ∀ {names : List Nat} {before : List Node} {w : List Units}, (heads a).length ∉ names →
      ((parents Node.indent before (nodes names w)).map entry).map
        (fun e => if e.name = (heads a).length then { e with parent := p } else e) =
      (parents Node.indent before (nodes names w)).map entry := by
    intro names before w hnot
    refine (List.map_congr_left fun e he => ?_).trans (List.map_id _)
    have hname : e.name ≠ (heads a).length := fun hname => hnot (hname ▸ name_mem_tree he)
    rw [if_neg hname, id]
  rw [h.tree, List.map_append, List.cons_append, List.map_cons, List.map_append, hother, hother, hother]
  · simp [entry]
  · rw [List.mem_range'_1]
    omega
  · simp
  · simp

theorem At.parentOf_inside (hk : (heads a).length < k) (hk' : k < (heads a).length + 1 + (heads b).length) :
    ∃ p, parentOf (parseLines texts).items k = some p ∧ (heads a).length ≤ p := by
  have hlen : (nodes (List.range (heads a).length) a).length = (heads a).length := length_nodes (by simp)
  have hlen' : (nodes (List.range' ((heads a).length + 1) (heads b).length) b).length = (heads b).length :=
    length_nodes (by simp)
  rw [(parsed_parseLines texts).parentOf_tree, h.tree, List.getElem?_append_right (by simp [hlen]; omega)]
  simp only [List.length_map, length_parents, hlen]
  obtain ⟨d, rfl⟩ : ∃ d, k = (heads a).length + (d + 1) := ⟨k - (heads a).length - 1, by omega⟩
  rw [Nat.add_sub_cancel_left, List.cons_append, List.getElem?_cons_succ,
    List.getElem?_append_left (by simp [hlen']; omega), List.getElem?_map]
  have hd : d < (parents Node.indent [⟨(heads a).length, columns m.indentText, content t b⟩]
      (nodes (List.range' ((heads a).length + 1) (heads b).length) b)).length := by
    rw [length_parents, hlen']
    omega
  rw [List.getElem?_eq_getElem hd]
  have hmem := List.getElem_mem hd
  generalize (parents _ _ _)[d] = e at hmem ⊢
  obtain ⟨y, _ | q⟩ := e
  · exact absurd hmem (parents_ne_none List.mem_cons_self (h.block.nodes_lt (by simp)))
  · refine ⟨q.name, rfl, ?_⟩
    obtain hq | hq := mem_parents hmem
    · rw [List.mem_singleton.mp hq]
    · have hname := name_mem hq
      rw [List.mem_range'_1] at hname
      omega

theorem At.parentOf_after (hk : (heads a).length + 1 + (heads b).length ≤ k) {p : Nat}
    (hp : parentOf (parseLines texts).items k = some p) :
    p < (heads a).length ∨ (heads a).length + 1 + (heads b).length ≤ p := by
  have hlen : (nodes (List.range (heads a).length) a).length = (heads a).length := length_nodes (by simp)
  have hlen' : (nodes (List.range' ((heads a).length + 1) (heads b).length) b).length = (heads b).length :=
    length_nodes (by simp)
  rw [(parsed_parseLines texts).parentOf_tree, h.tree, List.getElem?_append_right (by simp [hlen]; omega)] at hp
  simp only [List.length_map, length_parents, hlen] at hp
  obtain ⟨d, rfl⟩ : ∃ d, k = (heads a).length + (d + 1) := ⟨k - (heads a).length - 1, by omega⟩
  rw [Nat.add_sub_cancel_left, List.cons_append, List.getElem?_cons_succ,
    List.getElem?_append_right (by simp [hlen']; omega), List.getElem?_map] at hp
  obtain ⟨e, he, hp⟩ := Option.bind_eq_some_iff.mp hp
  obtain ⟨⟨y, q⟩, hmem, rfl⟩ := Option.map_eq_some_iff.mp he
  obtain ⟨q, rfl, rfl⟩ := Option.map_eq_some_iff.mp hp
  obtain hq | hq := mem_parents (List.mem_of_getElem? hmem)
  · have hname := name_mem (List.mem_reverse.mp hq)
    exact .inl (List.mem_range.mp hname)
  · have hname := name_mem hq
    rw [List.mem_range'_1] at hname
    exact .inr hname.1

theorem At.subtree : (parseLines texts).subtree (heads a).length =
    List.range' (heads a).length ((heads b).length + 1) := by
  have hlt : ∀ {k p}, parentOf (parseLines texts).items k = some p → p < k := by
    intro k p hp
    obtain ⟨it, hit, hp⟩ := Option.bind_eq_some_iff.mp hp
    exact (parsed_parseLines texts).parent_lt hit hp
  have hbefore : gather (parentOf (parseLines texts).items) (heads a).length [] (List.range (heads a).length) = [] :=
    gather_none fun k hk => ⟨Nat.ne_of_lt (List.mem_range.mp hk), fun _ _ => List.not_mem_nil⟩
  have hself : gather (parentOf (parseLines texts).items) (heads a).length [] [(heads a).length] =
      List.range' (heads a).length 1 := by
    simp [gather]
  have hinside : gather (parentOf (parseLines texts).items) (heads a).length (List.range' (heads a).length 1)
      (List.range' ((heads a).length + 1) (heads b).length) = List.range' (heads a).length (1 + (heads b).length) := by
    refine gather_all (heads b).length fun k hk hkn => ?_
    obtain ⟨p, hp, hle⟩ := h.parentOf_inside (by omega) hkn
    exact ⟨p, hp, hle, hlt hp⟩
  rw [Outline.subtree, (parsed_parseLines texts).names_eq, h.count, names_split, gather_append, hbefore,
    ← List.singleton_append, List.append_assoc, gather_append, hself, gather_append, hinside, Nat.add_comm 1]
  refine gather_none fun k hk => ⟨?_, fun p hp hmem => ?_⟩
  · rw [List.mem_range'_1] at hk
    omega
  · rw [List.mem_range'_1] at hk hmem
    obtain hlt | hge := h.parentOf_after hk.1 hp <;> omega

end At

theorem blockRest_of_stop {s : List Units} (hs : ∀ c ∈ heads s, n < c) (hm : itemRe t = some m)
    (hle : columns m.indentText ≤ n) : blockRest n (s ++ t :: w) = s.rdropWhile isEmpty := by
  have hinside := List.all_eq_true.mp (all_inside.mpr hs)
  have hout : inside n t = false := by
    rw [inside, hm, Option.all_some]
    simpa using hle
  rw [blockRest, List.takeWhile_append_of_pos hinside, List.takeWhile_cons_of_neg (by simp [hout]), List.append_nil]

theorem Found.index_of_previous {prev : OutlineItem} {a' b' g' w w' : List Units} {t' : Units} {m' : ItemMatch}
    (hf : Found texts o it (a' ++ t' :: (b' ++ g')) t m w) (hf' : Found texts o prev a' t' m' w')
    (hg : ∀ x ∈ g', isEmpty x = true) : it.index = prev.index + 1 + (heads b').length := by
  rw [hf.isItem.index, hf'.isItem.index, length_heads_item hf'.re hg]

theorem Parsed.previousAt {prev : OutlineItem} (h : Parsed texts o) (hf : Found texts o it a t m w)
    (hprev : previousSibling o it = some prev) : ∃ a' t' m' b' g', a = a' ++ t' :: (b' ++ g') ∧
      Found texts o prev a' t' m' (b' ++ g' ++ t :: w) ∧ At texts a' t' m' b' g' (t :: w) ∧
      prev.endLine = a'.length + b'.length ∧ prev.parent = it.parent ∧ it.indent ≤ prev.indent := by
  obtain ⟨a', t', m', s, rfl, hf', hparent, hle, hs⟩ := h.previous hf hprev
  have hsplit : s = s.rdropWhile isEmpty ++ s.rtakeWhile isEmpty := List.rdropWhile_append_rtakeWhile.symm
  have hcol : columns m.indentText ≤ prev.indent := hf.isItem.indent ▸ hle
  have hend := hf'.isItem.endLine
  rw [blockRest_of_stop hs hf.re hcol] at hend
  refine ⟨a', t', m', s.rdropWhile isEmpty, s.rtakeWhile isEmpty, by rw [← hsplit], by rwa [← hsplit], ⟨?_, hf'.re, ?_⟩,
    hend, hparent, hle⟩
  · rw [hf'.texts, ← List.append_assoc (s.rdropWhile isEmpty), ← hsplit]
  · rw [← hf'.isItem.indent]
    refine ⟨fun c hc => hs c ?_, List.rdropWhile_idempotent _ _, fun x hx => List.mem_rtakeWhile_imp hx, ?_⟩
    · rw [hsplit, heads_append]
      exact List.mem_append_left _ hc
    · rintro x hx
      obtain rfl := Option.mem_some_iff.mp hx
      exact ⟨m, hf.re, hcol⟩

end Savoire.Outlines
