import Savoire.Outline.Reorder

/-! Moving an item up or down exchanges two subtrees of the tree exactly when both items are at the same column and the
cursor has a line to go to. -/
namespace Savoire.Outlines
open NearestSmaller

/-- The items in their order with the subtrees of two siblings that follow one another exchanged. -/
def Outline.swapOrder (o : Outline) (first second : OutlineItem) : List Nat :=
  List.range first.index ++ (o.subtree second.index ++ (o.subtree first.index ++
    o.names.drop (first.index + (o.subtree first.index).length + (o.subtree second.index).length)))

/-- The same tree but for the two subtrees, which have changed places. -/
structure Swapped (o o' : Outline) (first second : OutlineItem) : Prop where
  count : o'.items.length = o.items.length
  tree : o'.tree (o.swapOrder first second) = o.entries (o.swapOrder first second)

/-- Moving item `k` up gives a text. -/
def MovesBack (text' : Units) (k : Nat) (text : Units) : Prop :=
  ∀ pos it, itemOwning (parseOutline text') pos = some it → it.index = k →
    ∃ e, moveItem text' pos .up = .edit e ∧ e.text = text

def sibling (o : Outline) (it : OutlineItem) : Direction → Option OutlineItem
  | .up => previousSibling o it
  | .down => nextSibling o it

def upper (it other : OutlineItem) : Direction → OutlineItem
  | .up => other
  | .down => it

def lower (it other : OutlineItem) : Direction → OutlineItem
  | .up => it
  | .down => other

variable {texts a b b' g g' r w : List Units} {t t' : Units} {m m' : ItemMatch} {o : Outline}
  {it other first second : OutlineItem} {c : Nat → List Units} {n j k : Nat}

structure Adjacent (texts a : List Units) (t : Units) (m : ItemMatch) (b g : List Units) (t' : Units) (m' : ItemMatch)
    (b' g' r : List Units) : Prop where
  first : At texts a t m b g (t' :: (b' ++ (g' ++ r)))
  second : At texts (a ++ t :: (b ++ g)) t' m' b' g' r

theorem Adjacent.le (h : Adjacent texts a t m b g t' m' b' g' r) : columns m'.indentText ≤ columns m.indentText := by
  obtain ⟨mx, hmx, hle⟩ := h.first.block.stop t' rfl
  rw [h.second.re] at hmx
  exact Option.some.inj hmx ▸ hle

theorem Adjacent.swap (h : Adjacent texts a t m b g t' m' b' g' r)
    (heq : columns m.indentText = columns m'.indentText) :
    Adjacent (a ++ t' :: (b' ++ (g ++ t :: (b ++ (g' ++ r))))) a t' m' b' g t m b g' r := by
  refine ⟨⟨rfl, h.second.re, h.second.block.inside, h.second.block.full, h.first.block.gap, fun x hx => ?_⟩,
    ⟨by simp, h.first.re, h.first.block.inside, h.first.block.full, h.second.block.gap, fun x hx => ?_⟩⟩
  · obtain rfl := Option.mem_some_iff.mp hx
    exact ⟨m, h.first.re, heq.le⟩
  · obtain ⟨mx, hmx, hle⟩ := h.second.block.stop x hx
    exact ⟨mx, hmx, heq ▸ hle⟩

theorem Parsed.adjacent (h : Parsed texts o) (hget : o.items[second.index]? = some second)
    (hprev : previousSibling o second = some first) : ∃ a t m b g t' m' b' g' r,
      Adjacent texts a t m b g t' m' b' g' r ∧ Found texts o first a t m (b ++ g ++ t' :: (b' ++ (g' ++ r))) ∧
      Found texts o second (a ++ t :: (b ++ g)) t' m' (b' ++ (g' ++ r)) ∧
      first.endLine = a.length + b.length ∧ second.endLine = (a ++ t :: (b ++ g)).length + b'.length := by
  obtain ⟨_, t', m', w, hf, -⟩ := h.found hget
  obtain ⟨a, t, m, b, g, rfl, hf', hat, hend, -, -⟩ := h.previousAt hf hprev
  obtain ⟨b', g', r, rfl, hat', hend'⟩ := hf.at
  exact ⟨a, t, m, b, g, t', m', b', g', r, ⟨hat, hat'⟩, hf', hf, hend, hend'⟩

theorem Adjacent.slices (h : Adjacent texts a t m b g t' m' b' g' r) (hline : first.line = a.length)
    (hend : first.endLine = a.length + b.length) (hline' : second.line = (a ++ t :: (b ++ g)).length)
    (hend' : second.endLine = (a ++ t :: (b ++ g)).length + b'.length) :
    slice texts 0 first.line = a ∧ slice texts first.line (first.endLine + 1) = t :: b ∧
      slice texts (first.endLine + 1) second.line = g ∧
      slice texts second.line (second.endLine + 1) = t' :: b' ∧ texts.drop (second.endLine + 1) = g' ++ r := by
  have htexts := h.first.texts
  have h1 : slice texts 0 first.line = a := by
    rw [htexts, ← List.nil_append (a ++ _)]
    exact slice_append [] a _ rfl (by simp [hline])
  have h2 : slice texts first.line (first.endLine + 1) = t :: b := by
    rw [htexts, ← List.cons_append]
    exact slice_append a (t :: b) _ hline (by rw [hend, List.length_cons, Nat.add_assoc])
  have h3 : slice texts (first.endLine + 1) second.line = g := by
    have hsplit : texts = (a ++ t :: b) ++ (g ++ t' :: (b' ++ (g' ++ r))) := by rw [htexts]; simp
    rw [hsplit]
    exact slice_append _ g _ (by simp [hend]; omega) (by simp [hline']; omega)
  have h4 : slice texts second.line (second.endLine + 1) = t' :: b' := by
    have hsplit : texts = a ++ t :: (b ++ g) ++ (t' :: b' ++ (g' ++ r)) := h.second.texts
    rw [hsplit]
    exact slice_append _ (t' :: b') _ hline' (by rw [hend', List.length_cons, Nat.add_assoc])
  have h5 : texts.drop (second.endLine + 1) = g' ++ r := by
    have hsplit : texts = (a ++ t :: (b ++ g) ++ t' :: b') ++ (g' ++ r) := by rw [h.second.texts]; simp
    rw [hsplit]
    exact List.drop_left' (by simp [hend']; omega)
  exact ⟨h1, h2, h3, h4, h5⟩

theorem rows_block (h : At texts a t m b g r) : rows texts = rows a ++ (rows (t :: b) ++ rows r) := by
  have hrest : rows (g ++ r) = rows r := rows_empty h.block.gap r
  rw [h.texts, rows_append (gap_item h.re _), ← List.cons_append, rows_append h.block.gap_rest, hrest]

theorem length_rows_item (hm : itemRe t = some m) (b : List Units) : (rows (t :: b)).length = (heads b).length + 1 := by
  rw [length_rows, heads_cons hm, List.length_cons]

theorem Adjacent.rows (h : Adjacent texts a t m b g t' m' b' g' r) :
    Outlines.rows texts =
      Outlines.rows a ++ (Outlines.rows (t :: b) ++ (Outlines.rows (t' :: b') ++ Outlines.rows r)) := by
  have hrest : Outlines.rows (t' :: (b' ++ (g' ++ r))) = Outlines.rows (t' :: b') ++ Outlines.rows r := by
    rw [← List.cons_append, rows_append h.second.block.gap_rest, rows_empty h.second.block.gap]
  rw [rows_block h.first, hrest]

theorem Adjacent.rows_swap (h : Adjacent texts a t m b g t' m' b' g' r) :
    Outlines.rows (a ++ t' :: (b' ++ (g ++ t :: (b ++ (g' ++ r))))) =
      Outlines.rows a ++ (Outlines.rows (t' :: b') ++ (Outlines.rows (t :: b) ++ Outlines.rows r)) := by
  have hgap : Gap (g ++ t :: (b ++ (g' ++ r))) := gap_append h.first.block.gap (gap_item h.first.re _)
  rw [rows_append (gap_item h.second.re _), ← List.cons_append, rows_append hgap, rows_empty h.first.block.gap,
    ← List.cons_append, rows_append h.second.block.gap_rest, rows_empty h.second.block.gap]

theorem range_four (i j k l : Nat) : List.range (i + (j + (k + l))) =
    List.range i ++ (List.range' i j ++ (List.range' (i + j) k ++ List.range' (i + j + k) l)) := by
  have hlast : List.range' 0 i ++ List.range' (0 + i) (j + (k + l)) = List.range' 0 (i + (j + (k + l))) :=
    List.range'_append_1
  rw [Nat.zero_add] at hlast
  rw [List.range'_append_1, List.range'_append_1, List.range_eq_range', List.range_eq_range', hlast]

section
variable (h : Adjacent texts a t m b g t' m' b' g' r)
include h

theorem Adjacent.names : (parseLines texts).names =
    List.range (heads a).length ++ (List.range' (heads a).length ((heads b).length + 1) ++
      (List.range' ((heads a).length + 1 + (heads b).length) ((heads b').length + 1) ++
        List.range' ((heads a).length + 1 + (heads b).length + 1 + (heads b').length) (heads r).length)) := by
  have hcount : (heads texts).length =
      (heads a).length + (((heads b).length + 1) + (((heads b').length + 1) + (heads r).length)) := by
    have hlen := congrArg List.length h.rows
    rw [List.length_append, List.length_append, List.length_append, length_rows_item h.first.re,
      length_rows_item h.second.re] at hlen
    simpa [length_rows] using hlen
  rw [(parsed_parseLines texts).names_eq, hcount, range_four]
  have hfirst : (heads a).length + ((heads b).length + 1) = (heads a).length + 1 + (heads b).length := by omega
  have hsecond : (heads a).length + 1 + (heads b).length + ((heads b').length + 1) =
      (heads a).length + 1 + (heads b).length + 1 + (heads b').length := by omega
  rw [hfirst, hsecond]

theorem Adjacent.rows_parts {f : Nat → Nat × List Units}
    (hf : f = fun k => (indentOf (parseLines texts).items k, (parseLines texts).contentAt k)) :
    Outlines.rows a = (List.range (heads a).length).map f ∧
    Outlines.rows (t :: b) = (List.range' (heads a).length ((heads b).length + 1)).map f ∧
    Outlines.rows (t' :: b') =
      (List.range' ((heads a).length + 1 + (heads b).length) ((heads b').length + 1)).map f ∧
    Outlines.rows r =
      (List.range' ((heads a).length + 1 + (heads b).length + 1 + (heads b').length) (heads r).length).map f := by
  have hall := h.rows.symm.trans (rows_eq_names texts)
  rw [← hf, h.names, List.map_append, List.map_append, List.map_append] at hall
  obtain ⟨ha, hall⟩ := List.append_inj hall (by simp [length_rows])
  obtain ⟨hb, hall⟩ := List.append_inj hall (by simp [length_rows_item h.first.re])
  obtain ⟨hb', hr⟩ := List.append_inj hall (by simp [length_rows_item h.second.re])
  exact ⟨ha, hb, hb', hr⟩

theorem Adjacent.swapOrder (hindex : first.index = (heads a).length)
    (hindex' : second.index = (heads (a ++ t :: (b ++ g))).length) : (parseLines texts).swapOrder first second =
      List.range (heads a).length ++
        (List.range' ((heads a).length + 1 + (heads b).length) ((heads b').length + 1) ++
          (List.range' (heads a).length ((heads b).length + 1) ++
            List.range' ((heads a).length + 1 + (heads b).length + 1 + (heads b').length) (heads r).length)) := by
  have hcount := length_heads_item h.first.re h.first.block.gap (a := a) (b := b)
  have hfirst := h.first.subtree
  have hsecond := h.second.subtree
  rw [hcount] at hsecond
  rw [Outline.swapOrder, hindex, hindex', hcount, hfirst, hsecond, h.names]
  refine congrArg₂ _ rfl (congrArg₂ _ rfl (congrArg₂ _ rfl ?_))
  rw [← List.append_assoc, ← List.append_assoc]
  exact List.drop_left' (by simp; omega)

/-- The tree is the old one with the two subtrees exchanged exactly when the two items are at the same column. -/
theorem Adjacent.swapped_iff (hindex : first.index = (heads a).length)
    (hindex' : second.index = (heads (a ++ t :: (b ++ g))).length) : Swapped (parseLines texts)
      (parseLines (a ++ t' :: (b' ++ (g ++ t :: (b ++ (g' ++ r)))))) first second ↔
      columns m.indentText = columns m'.indentText := by
  have ho := parsed_parseLines texts
  obtain ⟨ha, hb, hb', hr⟩ := h.rows_parts rfl
  have hrows := h.rows_swap
  rw [ha, hb, hb', hr, ← List.map_append, ← List.map_append, ← List.map_append] at hrows
  have hcols := congrArg (List.map Prod.fst) hb
  have hcols' := congrArg (List.map Prod.fst) hb'
  rw [map_fst_rows, heads_cons h.first.re, List.map_map, List.range'_succ, List.map_cons] at hcols
  rw [map_fst_rows, heads_cons h.second.re, List.map_map, List.range'_succ, List.map_cons] at hcols'
  obtain ⟨hcol, hinside⟩ : columns m.indentText = indentOf (parseLines texts).items (heads a).length ∧
      heads b = (List.range' ((heads a).length + 1) (heads b).length).map (indentOf (parseLines texts).items) :=
    List.cons.inj hcols
  obtain ⟨hcol', hinside'⟩ : columns m'.indentText =
        indentOf (parseLines texts).items ((heads a).length + 1 + (heads b).length) ∧
      heads b' = (List.range' ((heads a).length + 1 + (heads b).length + 1) (heads b').length).map
        (indentOf (parseLines texts).items) :=
    List.cons.inj hcols'
  have hold := parents_names texts
  have hnodup : (parseLines texts).names.Nodup := List.nodup_range
  have hmem : ∀ k ∈ (parseLines texts).swapOrder first second, k < (parseLines texts).items.length := by
    intro k hk
    refine List.mem_range.mp (?_ : k ∈ (parseLines texts).names)
    rw [h.swapOrder hindex hindex'] at hk
    rw [h.names]
    simp only [List.mem_append] at hk ⊢
    tauto
  have hlast : ∀ z ∈ (List.range' ((heads a).length + 1 + (heads b).length + 1 + (heads b').length)
      (heads r).length).head?, indentOf (parseLines texts).items z ≤ columns m'.indentText := by
    have hcolsr := congrArg (List.map Prod.fst) hr
    rw [map_fst_rows, List.map_map] at hcolsr
    intro z hz
    refine h.second.block.heads_head_le _ ?_
    rw [hcolsr, List.head?_map, Option.mem_def]
    exact Option.map_eq_some_iff.mpr ⟨z, hz, rfl⟩
  rw [h.names, List.range'_succ, List.range'_succ] at hold hnodup
  have hswap := parents_swap_iff hnodup (lt_indentOf (hcol ▸ h.first.block.inside) hinside)
    (lt_indentOf (hcol' ▸ h.second.block.inside) hinside') (hcol ▸ hcol' ▸ h.le) (hcol' ▸ hlast) hold
  rw [hcol, hcol', ← hswap]
  have hpairs : ∀ order : List Nat, order.map (fun k => Entry.mk k (parentOf (parseLines texts).items k)
      ((parseLines texts).contentAt k)) = (order.map fun k => (k, parentOf (parseLines texts).items k)).map
        fun e => Entry.mk e.1 e.2 ((parseLines texts).contentAt e.1) := fun order => by rw [List.map_map]; rfl
  constructor
  · intro hs
    have htree := hs.tree
    rw [entries_eq hmem, h.swapOrder hindex hindex', tree_of_rows hrows, hpairs] at htree
    exact entry_map_inj htree
  · intro hparents
    refine ⟨?_, ?_⟩
    · have hlen := congrArg List.length h.rows_swap
      have hlen' := congrArg List.length h.rows
      simp only [List.length_append, length_rows] at hlen hlen'
      rw [(parsed_parseLines _).count, ho.count]
      omega
    · rw [entries_eq hmem, h.swapOrder hindex hindex', tree_of_rows hrows, hpairs, List.range'_succ, List.range'_succ,
        hparents]

end

theorem sibling_spec {dir : Direction} (h : Parsed texts o) (hit : o.items[it.index]? = some it)
    (hother : sibling o it dir = some other) : o.items[(lower it other dir).index]? = some (lower it other dir) ∧
      previousSibling o (lower it other dir) = some (upper it other dir) := by
  cases dir with
  | up => exact ⟨hit, hother⟩
  | down => exact (h.next_iff hit).mp hother

theorem Adjacent.previousSibling (h : Adjacent texts a t m b g t' m' b' g' r)
    (heq : columns m.indentText = columns m'.indentText)
    (hit : (parseLines texts).items[(heads (a ++ t :: (b ++ g))).length]? = some it) :
    ∃ prev, previousSibling (parseLines texts) it = some prev ∧
      Found texts (parseLines texts) prev a t m (b ++ (g ++ t' :: (b' ++ (g' ++ r)))) ∧
      Found texts (parseLines texts) it (a ++ t :: (b ++ g)) t' m' (b' ++ (g' ++ r)) := by
  have ho := parsed_parseLines texts
  obtain ⟨prev, hprev, hitem⟩ := ho.item _ _ _ _ h.first.texts h.first.re
  obtain ⟨it', hit', hitem'⟩ := ho.item _ _ _ _ h.second.texts h.second.re
  rw [hit] at hit'
  obtain rfl := Option.some.inj hit'
  have hf : Found texts (parseLines texts) prev a t m (b ++ (g ++ t' :: (b' ++ (g' ++ r)))) :=
    ⟨h.first.texts, h.first.re, hprev, hitem⟩
  have hf' : Found texts (parseLines texts) it (a ++ t :: (b ++ g)) t' m' (b' ++ (g' ++ r)) :=
    ⟨h.second.texts, h.second.re, hit, hitem'⟩
  have hgap := heads_empty h.first.block.gap []
  rw [List.append_nil] at hgap
  have hindex := hf'.index_of_previous hf h.first.block.gap
  -- What lies between the two is not left of the second one.
  have hparent : prev.parent = it.parent := by
    have hskip : parent Prod.fst (((heads (b ++ g)).zipIdx ((heads a).length + 1)).reverse ++
        [(columns m.indentText, (heads a).length)]) it.indent = none := by
      refine parent_eq_none.mpr fun p hp => ?_
      rw [hitem'.indent, ← heq]
      obtain hp | hp := List.mem_append.mp hp
      · have hmem := List.fst_mem_of_mem_zipIdx (List.mem_reverse.mp hp)
        rw [heads_append, hgap] at hmem
        exact (h.first.block.inside _ (by simpa [heads] using hmem)).le
      · rw [List.mem_singleton.mp hp]
    rw [hitem.parent, hitem'.parent, marks_split h.first.re, List.append_cons, parent_append, hskip, Option.none_or,
      hitem.indent, hitem'.indent, heq]
  refine ⟨prev, ho.previousSibling_eq ?_ ⟨?_, hparent, by omega, fun k hk hki hp => ?_⟩, hf, hf'⟩
  · rw [hitem'.index, hit]
  · rw [hitem.index, hprev]
  · obtain ⟨p, hpk, hle⟩ := h.first.parentOf_inside (k := k) (by rw [← hitem.index]; exact hk)
      (by rw [← hitem.index]; omega)
    rw [hp, ← hparent] at hpk
    have hlt := ho.parent_lt hprev hpk
    omega

/-- Where the line of the cursor comes to be, `rel` lines from the first one of its item. -/
def movedLine (a b' g : List Units) (rel : Nat) : Direction → Nat
  | .up => a.length + rel
  | .down => a.length + (b'.length + 1) + g.length + rel

section
variable (h : Adjacent texts a t m b g t' m' b' g' r)
include h

theorem Adjacent.moveItem {text : Units} {w : List Units} {pos : Nat} {dir : Direction}
    (htext : parseOutline text = parseLines texts)
    (hit : itemOwning (parseLines texts) pos = some it) (hother : sibling (parseLines texts) it dir = some other)
    (hf : Found texts (parseLines texts) (upper it other dir) a t m w)
    (hf' : Found texts (parseLines texts) (lower it other dir) (a ++ t :: (b ++ g)) t' m' (b' ++ (g' ++ r)))
    (hend : (upper it other dir).endLine = a.length + b.length)
    (hend' : (lower it other dir).endLine = (a ++ t :: (b ++ g)).length + b'.length) :
    Outlines.moveItem text pos dir = caret (a ++ t' :: (b' ++ (g ++ t :: (b ++ (g' ++ r)))))
      (movedLine a b' g (lineOf (parseLines texts) pos - it.line) dir)
      (column (parseLines texts) pos (lineOf (parseLines texts) pos)) := by
  obtain ⟨h1, h2, h3, h4, h5⟩ := h.slices hf.isItem.line hend hf'.isItem.line hend'
  have hline := hf.isItem.line
  have hlines : a ++ (t' :: b') ++ g ++ (t :: b) ++ (g' ++ r) = a ++ t' :: (b' ++ (g ++ t :: (b ++ (g' ++ r)))) := by
    simp
  unfold Outlines.moveItem
  rw [htext]
  cases dir with
  | up =>
    simp only [upper, lower, sibling] at h1 h2 h3 h4 h5 hother hline
    simp only [hit, hother, texts_parseLines, h1, h2, h3, h4, h5, hlines]
    rw [hline, movedLine]
  | down =>
    simp only [upper, lower, sibling] at h1 h2 h3 h4 h5 hother hline
    simp only [hit, hother, texts_parseLines, h1, h2, h3, h4, h5, hlines]
    rw [hline, List.length_cons, movedLine]

theorem Adjacent.endLine (hf : Found texts o first a t m (b ++ (g ++ t' :: (b' ++ (g' ++ r)))))
    (hf' : Found texts o second (a ++ t :: (b ++ g)) t' m' (b' ++ (g' ++ r))) :
    first.endLine = a.length + b.length ∧ second.endLine = (a ++ t :: (b ++ g)).length + b'.length := by
  rw [hf.isItem.endLine, hf'.isItem.endLine, hf.isItem.indent, hf'.isItem.indent, h.first.block.blockRest,
    h.second.block.blockRest]
  exact ⟨rfl, rfl⟩

theorem Adjacent.movesBack (heq : columns m.indentText = columns m'.indentText) (hlines : ∀ l ∈ texts, 10 ∉ l) :
    MovesBack (joinLines texts) (heads (a ++ t :: (b ++ g))).length
      (joinLines (a ++ t' :: (b' ++ (g ++ t :: (b ++ (g' ++ r)))))) := by
  intro pos it hit hindex
  have hne : texts ≠ [] := by
    rw [h.first.texts]
    simp
  have htext := parseOutline_joinLines hlines hne
  rw [htext] at hit
  have ho := parsed_parseLines texts
  obtain ⟨_, _, _, _, hown, hline, hli⟩ := ho.owning hit
  have hget := hown.get
  rw [← hown.isItem.index, hindex] at hget
  obtain ⟨prev, hprev, hf, hf'⟩ := h.previousSibling heq hget
  obtain ⟨hend, hend'⟩ := h.endLine hf hf'
  have hmove : Outlines.moveItem _ pos .up = _ := h.moveItem htext hit hprev hf hf' hend hend'
  have hlt : movedLine a b' g (lineOf (parseLines texts) pos - it.line) .up <
      (a ++ t' :: (b' ++ (g ++ t :: (b ++ (g' ++ r))))).length := by
    have hline' := hf'.isItem.line
    have hlen := congrArg List.length h.first.texts
    simp only [movedLine, List.length_append, List.length_cons] at hline' hlen ⊢
    omega
  rw [hmove, caret, if_pos hlt]
  exact ⟨_, rfl, rfl⟩

end

/-- Moving an item past its sibling: the new text has the tree with the two subtrees exchanged, and moving down and up
again gives the old text back, exactly when both are at the same column and the cursor, after the subtree of the item,
has a line as far after the other one. -/
theorem moveItem_correct (text : Units) (pos : Nat) (dir : Direction)
    (hit : itemOwning (parseOutline text) pos = some it) (hother : sibling (parseOutline text) it dir = some other) :
    (∃ e, moveItem text pos dir = .edit e ∧
      Swapped (parseOutline text) (parseOutline e.text) (upper it other dir) (lower it other dir) ∧
      (dir = .down → MovesBack e.text (it.index + ((parseOutline text).subtree other.index).length) text)) ↔
    it.indent = other.indent ∧ (dir = .down →
      lineOf (parseOutline text) pos + other.endLine < it.endLine + (parseOutline text).lines.length) := by
  have hlines := notMem_splitOn 10 text
  have htext := parseOutline_eq text
  have hjoin : joinLines (text.splitOn 10) = text := List.intercalate_splitOn 10
  rw [htext] at hit hother ⊢
  generalize text.splitOn 10 = texts at hlines htext hjoin hit hother ⊢
  have ho := parsed_parseLines texts
  obtain ⟨_, _, _, _, hown, hline, hli⟩ := ho.owning hit
  have hget := hown.get
  rw [← hown.isItem.index] at hget
  obtain ⟨hlow, hprev⟩ := sibling_spec ho hget hother
  obtain ⟨a, t, m, b, g, t', m', b', g', r, h, hf, hf', hend, hend'⟩ := ho.adjacent hlow hprev
  have hmove := h.moveItem htext hit hother hf hf' hend hend'
  have hswap := h.swapped_iff hf.isItem.index hf'.isItem.index
  have hcols : it.indent = other.indent ↔ columns m.indentText = columns m'.indentText := by
    rw [← hf.isItem.indent, ← hf'.isItem.indent]
    cases dir with
    | up => exact eq_comm
    | down => exact Iff.rfl
  have hcount : (parseLines texts).lines.length = texts.length := by
    rw [ho.lines, length_outlineLines]
  have hlen := congrArg List.length h.first.texts
  have hlineUp := hf.isItem.line
  have hlineLow := hf'.isItem.line
  -- The line of the cursor is there.
  have hcaret : movedLine a b' g (lineOf (parseLines texts) pos - it.line) dir <
        (a ++ t' :: (b' ++ (g ++ t :: (b ++ (g' ++ r))))).length ↔
      (dir = .down → lineOf (parseLines texts) pos + other.endLine < it.endLine + (parseLines texts).lines.length) := by
    simp only [List.length_append, List.length_cons] at hlen hend' hlineLow ⊢
    cases dir with
    | up =>
      simp only [upper, lower] at hend hend' hlineUp hlineLow
      simp only [movedLine, reduceCtorEq, false_imp_iff, iff_true]
      omega
    | down =>
      simp only [upper, lower] at hend hend' hlineUp hlineLow
      simp only [movedLine, true_imp_iff]
      omega
  have hlines' : ∀ l ∈ a ++ t' :: (b' ++ (g ++ t :: (b ++ (g' ++ r)))), 10 ∉ l := by
    rw [h.first.texts] at hlines
    simp only [List.forall_mem_append, List.forall_mem_cons] at hlines ⊢
    tauto
  rw [hmove, caret, hcols, ← hcaret]
  generalize movedLine a b' g (lineOf (parseLines texts) pos - it.line) dir = line
  by_cases hlt : line < (a ++ t' :: (b' ++ (g ++ t :: (b ++ (g' ++ r))))).length
  · rw [if_pos hlt, ← hswap]
    have htext' := parseOutline_joinLines hlines' (by simp)
    constructor
    · rintro ⟨e, he, hs, -⟩
      cases he
      rw [htext'] at hs
      exact ⟨hs, hlt⟩
    · rintro ⟨hs, -⟩
      refine ⟨_, rfl, by rwa [htext'], fun hdown => ?_⟩
      subst hdown
      have heq := hswap.mp hs
      have hback := (h.swap heq).movesBack heq.symm hlines'
      have hsub := h.second.subtree
      rw [← hf'.isItem.index] at hsub
      have hindex : it.index + ((parseLines texts).subtree other.index).length =
          (heads (a ++ t' :: (b' ++ g))).length := by
        have hup := hf.isItem.index
        simp only [upper, lower] at hup hsub
        rw [length_heads_item h.second.re h.first.block.gap, hup, hsub, List.length_range']
        omega
      rw [hindex, ← hjoin, h.first.texts]
      exact hback
  · rw [if_neg hlt]
    constructor
    · rintro ⟨e, he, -⟩
      cases he
    · exact fun h => absurd h.2 hlt

theorem moveItem_correct_two : ∃ it other, itemOwning (parseOutline (ascii "- a\n  - b\n\n- c")) 2 = some it ∧
    sibling (parseOutline (ascii "- a\n  - b\n\n- c")) it .down = some other ∧
    ((∃ e, moveItem (ascii "- a\n  - b\n\n- c") 2 .down = .edit e ∧
      Swapped (parseOutline (ascii "- a\n  - b\n\n- c")) (parseOutline e.text) (upper it other .down)
        (lower it other .down) ∧
      (Direction.down = .down → MovesBack e.text (it.index +
        ((parseOutline (ascii "- a\n  - b\n\n- c")).subtree other.index).length) (ascii "- a\n  - b\n\n- c"))) ↔
    it.indent = other.indent ∧ (Direction.down = .down →
      lineOf (parseOutline (ascii "- a\n  - b\n\n- c")) 2 + other.endLine <
        it.endLine + (parseOutline (ascii "- a\n  - b\n\n- c")).lines.length)) :=
  ⟨_, _, rfl, rfl, moveItem_correct (ascii "- a\n  - b\n\n- c") 2 .down rfl rfl⟩

/-- A cursor on the empty line below its item, and a sibling further left. -/
theorem moveItem_irregular :
    (∃ it other, itemOwning (parseOutline (ascii "- a\n\n- b")) 4 = some it ∧
      sibling (parseOutline (ascii "- a\n\n- b")) it .down = some other ∧
      moveItem (ascii "- a\n\n- b") 4 .down = .typeError) ∧
    ∃ it other e, itemOwning (parseOutline (ascii "  - a\n- b")) 4 = some it ∧
      sibling (parseOutline (ascii "  - a\n- b")) it .down = some other ∧
      moveItem (ascii "  - a\n- b") 4 .down = .edit e ∧ e.text = ascii "- b\n  - a" ∧
      ¬ Swapped (parseOutline (ascii "  - a\n- b")) (parseOutline e.text) it other :=
  ⟨⟨_, _, rfl, rfl, by decide⟩, _, _, _, rfl, rfl, rfl, by decide, fun h => absurd h.tree (by decide +kernel)⟩

end Savoire.Outlines
