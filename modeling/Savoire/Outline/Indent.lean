import Savoire.Outline.Subtrees

/-! Indenting an item makes it the last child of the sibling before it exactly when its new column is right of that
sibling and not right of anything below it. -/
namespace Savoire.Outlines
open NearestSmaller

/-- Item `i` has become the last child of item `p`; all items keep their place, their text and their other parents. -/
structure Indented (o o' : Outline) (i p : Nat) : Prop where
  tree : o'.tree o'.names = (o.tree o.names).map fun e => if e.name = i then { e with parent := some p } else e
  children : o'.items[p]?.map OutlineItem.children = o.items[p]?.map fun prev => prev.children ++ [i]

/-- The new column is right of the sibling before, and nothing below that sibling is left of it. -/
def Fits (o : Outline) (prev it : OutlineItem) : Prop :=
  prev.indent < it.indent + childUnit o prev ∧
    ∀ k x, prev.index < k → k < it.index → o.items[k]? = some x → it.indent + childUnit o prev ≤ x.indent

variable {texts a b c : List Units} {t : Units} {m : ItemMatch} {o : Outline} {it prev : OutlineItem}
  {names : List Nat} {n i j k unit : Nat}

theorem mapIdx_block (f : Units → Units) (a : List Units) (t : Units) (b c : List Units) :
    (a ++ t :: (b ++ c)).mapIdx (fun i l => if a.length ≤ i ∧ i ≤ a.length + b.length then f l else l) =
      a ++ f t :: (b.map f ++ c) := by
  refine List.ext_getElem? fun i => ?_
  rw [List.getElem?_mapIdx]
  by_cases hi : i < a.length
  · have hout : ¬ (a.length ≤ i ∧ i ≤ a.length + b.length) := by omega
    rw [List.getElem?_append_left hi, List.getElem?_append_left hi]
    simp only [if_neg hout, Option.map_id_fun', id]
  · obtain ⟨k, rfl⟩ : ∃ k, i = a.length + k := ⟨i - a.length, by omega⟩
    rw [List.getElem?_append_right (by omega), List.getElem?_append_right (by omega), Nat.add_sub_cancel_left]
    cases k with
    | zero => simp
    | succ k =>
      rw [List.getElem?_cons_succ, List.getElem?_cons_succ]
      by_cases hk : k < b.length
      · have hin : a.length ≤ a.length + (k + 1) ∧ a.length + (k + 1) ≤ a.length + b.length := by omega
        rw [List.getElem?_append_left hk, List.getElem?_append_left (by simpa using hk), List.getElem?_map]
        simp only [if_pos hin]
      · have hout : ¬ (a.length ≤ a.length + (k + 1) ∧ a.length + (k + 1) ≤ a.length + b.length) := by omega
        rw [List.getElem?_append_right (by omega), List.getElem?_append_right (by simp; omega), List.length_map]
        simp only [if_neg hout, Option.map_id_fun', id]

theorem columns_pad (unit : Nat) (ws : Units) : columns (List.replicate unit 32 ++ ws) = columns ws + unit := by
  induction unit with
  | zero => rfl
  | succ unit ih =>
    rw [List.replicate_succ, List.cons_append, columns_cons, ih, if_neg (by decide)]
    omega

theorem reindents_padLine (unit : Nat) : Reindents (padLine unit) (List.replicate unit 32 ++ ·) := by
  have hblank : ∀ c ∈ List.replicate unit 32, isBlank c = true := by
    intro c hc
    rw [List.eq_of_mem_replicate hc]
    rfl
  constructor
  · intro t
    unfold padLine
    split
    · rfl
    · exact List.dropWhile_append_of_pos hblank
  · intro t ht
    rw [padLine, if_neg (by simp [ht]), List.takeWhile_append_of_pos hblank]

theorem heads_padLine (unit : Nat) (b : List Units) : heads (b.map (padLine unit)) = (heads b).map (· + unit) := by
  rw [← map_columns_bodies, ← map_columns_bodies, (reindents_padLine unit).bodies, List.map_map, List.map_map]
  exact List.map_congr_left fun r _ => columns_pad unit r.1

def Node.shift (unit : Nat) (x : Node) : Node := { x with indent := x.indent + unit }

theorem nodes_padLine (names : List Nat) (unit : Nat) (b : List Units) :
    nodes names (b.map (padLine unit)) = (nodes names b).map (Node.shift unit) := by
  rw [(reindents_padLine unit).nodes, nodes_eq, List.map_zipWith]
  refine congrArg (List.zipWith · names (bodies b)) (funext fun name => funext fun r => ?_)
  rw [Node.shift, columns_pad]

theorem content_padLine (unit : Nat) (t : Units) (b : List Units) :
    content (padLine unit t) (b.map (padLine unit)) = content t b := (reindents_padLine unit).content t b

theorem itemRe_padLine (hm : itemRe t = some m) (unit : Nat) :
    ∃ m', itemRe (padLine unit t) = some m' ∧ columns m'.indentText = columns m.indentText + unit := by
  have hheads := heads_padLine unit [t]
  rw [heads_of_some hm, List.map_singleton, List.map_singleton] at hheads
  cases hm' : itemRe (padLine unit t) with
  | none =>
    rw [heads_of_none hm'] at hheads
    cases hheads
  | some m' =>
    rw [heads_of_some hm'] at hheads
    exact ⟨m', rfl, List.singleton_inj.mp hheads⟩

variable {g r : List Units}

theorem At.indent (h : At texts a t m b g r) (unit : Nat) : ∃ m', columns m'.indentText = columns m.indentText + unit ∧
    At (a ++ padLine unit t :: (b.map (padLine unit) ++ (g ++ r))) a (padLine unit t) m' (b.map (padLine unit)) g
      r := by
  obtain ⟨m', hm', hcol⟩ := itemRe_padLine h.re unit
  refine ⟨m', hcol, rfl, hm', ?_, (reindents_padLine unit).full h.block.full, h.block.gap, fun x hx => ?_⟩
  · intro c hc
    rw [heads_padLine, List.mem_map] at hc
    obtain ⟨c, hc, rfl⟩ := hc
    have hlt := h.block.inside c hc
    omega
  · obtain ⟨mx, hmx, hle⟩ := h.block.stop x hx
    exact ⟨mx, hmx, by omega⟩

theorem At.tree_indent (h : At texts a t m b g r) (unit : Nat) {o' : Outline}
    (ho' : o' = parseLines (a ++ padLine unit t :: (b.map (padLine unit) ++ (g ++ r)))) :
    o'.tree o'.names = ((parseLines texts).tree (parseLines texts).names).map fun e =>
      if e.name = (heads a).length then
        { e with
          parent := (parent Node.indent (nodes (List.range (heads a).length) a).reverse
            (columns m.indentText + unit)).map Node.name }
      else e := by
  obtain ⟨m', hcol, hat⟩ := h.indent unit
  have hlen : (heads (b.map (padLine unit))).length = (heads b).length := by rw [heads_padLine, List.length_map]
  have hinner := @parents_map _ Node.indent _ Node.indent (Node.shift unit)
    (fun x y => Nat.add_lt_add_iff_right) [⟨(heads a).length, columns m.indentText, content t b⟩]
    (nodes (List.range' ((heads a).length + 1) (heads b).length) b)
  have hentry : entry ∘ (fun e : Node × Option Node => (e.1.shift unit, e.2.map (Node.shift unit))) = entry := by
    funext e
    obtain ⟨x, _ | q⟩ := e <;> rfl
  rw [ho', h.map_tree, hat.tree, hcol, content_padLine, hlen, nodes_padLine]
  refine congrArg₂ (· ++ ·) rfl (congrArg₂ (· ++ ·) (congrArg₂ List.cons rfl ?_) rfl)
  refine (congrArg (List.map entry) hinner).trans ?_
  rw [List.map_map, hentry]

theorem parent_indent {a' b' g' w : List Units} {t' : Units} {m' : ItemMatch}
    (h : At texts a' t' m' b' g' (t :: w)) : (parent Node.indent
      (nodes (List.range (heads (a' ++ t' :: (b' ++ g'))).length) (a' ++ t' :: (b' ++ g'))).reverse n).map Node.name =
        some (heads a').length ↔ columns m'.indentText < n ∧ ∀ c ∈ heads b', n ≤ c := by
  have hblock : Block (columns m'.indentText) b' (g' ++ []) [] :=
    ⟨h.block.inside, h.block.full, by simpa using h.block.gap, by simp⟩
  have hcount : (heads (a' ++ t' :: (b' ++ g'))).length = (heads a').length + ((heads b').length + 1 + 0) := by
    have hg := heads_empty h.block.gap []
    rw [List.append_nil] at hg
    rw [heads_append, heads_cons h.re, heads_append, hg]
    simp [heads]
  have hnodes : nodes (List.range (heads (a' ++ t' :: (b' ++ g'))).length) (a' ++ t' :: (b' ++ g')) =
      nodes (List.range (heads a').length) a' ++ ⟨(heads a').length, columns m'.indentText, content t' b'⟩ ::
        nodes (List.range' ((heads a').length + 1) (heads b').length) b' := by
    have hparts : nodes (List.range (heads a').length ++
        ((heads a').length :: List.range' ((heads a').length + 1) (heads b').length ++ [])) (a' ++ _) = _ :=
      hblock.nodes h.re (by simp) (by simp)
    have hnil : nodes [] [] = [] := rfl
    simp only [List.append_nil, hnil] at hparts
    rw [hcount, names_split, List.range'_zero, List.append_nil, hparts]
  have hcols : (∀ y ∈ nodes (List.range' ((heads a').length + 1) (heads b').length) b', n ≤ y.indent) ↔
      ∀ c ∈ heads b', n ≤ c := by
    have hmap : (nodes (List.range' ((heads a').length + 1) (heads b').length) b').map Node.indent = heads b' :=
      map_indent_nodes (by simp)
    constructor
    · intro hall c hc
      rw [← hmap, List.mem_map] at hc
      obtain ⟨y, hy, rfl⟩ := hc
      exact hall y hy
    · intro hall y hy
      refine hall _ ?_
      rw [← hmap]
      exact List.mem_map_of_mem hy
  rw [hnodes, ← hcols]
  have hsplit : ∀ (u s : List Node) (x : Node), (u ++ x :: s).reverse = s.reverse ++ x :: u.reverse := by simp
  rw [hsplit]
  refine (parent_map_iff Node.name (fun y hy => ?_) fun y hy => ?_).trans (by simp only [List.mem_reverse])
  · have hle := (List.mem_range'_1.mp (name_mem (List.mem_reverse.mp hy))).1
    change y.name ≠ (heads a').length
    omega
  · exact Nat.ne_of_lt (List.mem_range.mp (name_mem (List.mem_reverse.mp hy)))

theorem childrenOf_indent {texts' : List Units} {o' : Outline} (ho : Parsed texts o) (ho' : Parsed texts' o')
    (htree : o'.tree o'.names =
      (o.tree o.names).map fun e => if e.name = i then { e with parent := some j } else e) (hi : i < o.items.length)
    (hparent : parentOf o.items i ≠ some j) (hlater : ∀ k, i < k → parentOf o.items k ≠ some j) :
    childrenOf o'.items (some j) = childrenOf o.items (some j) ++ [i] := by
  have hcount : o'.items.length = o.items.length := by
    rw [ho'.count, ho.count, ← ho.length_tree, ← ho'.length_tree, htree, List.length_map]
  have hget : ∀ k, parentOf o'.items k = if k = i then some j else parentOf o.items k := by
    intro k
    rw [ho'.parentOf_tree, ho.parentOf_tree, htree, List.getElem?_map]
    by_cases hk : k < o.items.length
    · have hname := ho.tree_eq (List.getElem?_eq_getElem hk)
      rw [hname]
      by_cases hki : k = i <;> simp [hki]
    · have hne : k ≠ i := by omega
      have hle : (o.tree o.names).length ≤ k := by
        rw [ho.length_tree, ← ho.count]
        omega
      rw [List.getElem?_eq_none_iff.mpr hle, if_neg hne]
      rfl
  obtain ⟨d, hd⟩ : ∃ d, o.items.length = i + (0 + 1 + d) := ⟨o.items.length - i - 1, by omega⟩
  have hbefore : (List.range i).filter (fun k => parentOf o'.items k == some j) =
      (List.range i).filter fun k => parentOf o.items k == some j := by
    refine List.filter_congr fun k hk => ?_
    have hne : k ≠ i := Nat.ne_of_lt (List.mem_range.mp hk)
    rw [hget, if_neg hne]
  have hafter : ∀ {items : List OutlineItem}, (∀ k, i < k → parentOf items k ≠ some j) →
      (List.range' (i + 1) d).filter (fun k => parentOf items k == some j) = [] := by
    intro items h
    refine List.filter_eq_nil_iff.mpr fun k hk => ?_
    rw [List.mem_range'_1] at hk
    simpa using h k (by omega)
  have hlater' : ∀ k, i < k → parentOf o'.items k ≠ some j := by
    intro k hk
    have hne : k ≠ i := by omega
    rw [hget, if_neg hne]
    exact hlater k hk
  rw [childrenOf, childrenOf, hcount, hd, names_split]
  simp only [List.filter_append, List.filter_cons, List.range'_zero, List.filter_nil, Nat.add_zero, hafter hlater,
    hafter hlater', hbefore]
  simp [hget, hparent]

theorem notMem_padLine (h : 10 ∉ t) : 10 ∉ padLine unit t := by
  unfold padLine
  split
  · exact h
  · intro hmem
    obtain hmem | hmem := List.mem_append.mp hmem
    · cases List.eq_of_mem_replicate hmem
    · exact h hmem

theorem forall_lines_map {P : Units → Prop} {f : Units → Units} {d : List Units} (hf : ∀ l, P l → P (f l))
    (h : ∀ l ∈ a ++ t :: (b ++ d), P l) : ∀ l ∈ a ++ f t :: (b.map f ++ d), P l := by
  simp only [List.forall_mem_append, List.forall_mem_cons, List.forall_mem_map] at h ⊢
  exact ⟨h.1, hf t h.2.1, fun l hl => hf l (h.2.2.1 l hl), h.2.2.2⟩

theorem Parsed.children_eq (h : Parsed texts o) (hj : j < o.items.length) :
    o.items[j]?.map OutlineItem.children = some (childrenOf o.items (some j)) := by
  have hget := List.getElem?_eq_getElem hj
  rw [hget, Option.map_some, h.children j _ hget]

theorem fits_iff {a' b' g' w : List Units} {t' : Units} {m' : ItemMatch} (h : Parsed texts o)
    (hf : Found texts o it (a' ++ t' :: (b' ++ g')) t m w) (hf' : Found texts o prev a' t' m' (b' ++ g' ++ t :: w))
    (hg : ∀ x ∈ g', isEmpty x = true) : Fits o prev it ↔
      columns m'.indentText < it.indent + childUnit o prev ∧ ∀ c ∈ heads b', it.indent + childUnit o prev ≤ c := by
  have hindex := hf.index_of_previous hf' hg
  have hafter : heads (b' ++ g' ++ t :: w) = heads b' ++ heads (t :: w) := by
    rw [List.append_assoc, heads_append, heads_empty hg]
  rw [Fits, hf'.isItem.indent]
  refine and_congr_right fun _ => ⟨fun hall c hc => ?_, fun hall k x hk hki hx => ?_⟩
  · obtain ⟨k, hk⟩ := List.mem_iff_getElem?.mp hc
    have hlt := (List.getElem?_eq_some_iff.mp hk).1
    have hplace : (heads (b' ++ g' ++ t :: w))[k]? = some c := by
      rw [hafter, List.getElem?_append_left hlt, hk]
    obtain ⟨x, hx, rfl⟩ := hf'.getElem? h hplace
    exact hall _ x (by omega) (by omega) hx
  · obtain ⟨d, rfl⟩ : ∃ d, k = prev.index + (d + 1) := ⟨k - prev.index - 1, by omega⟩
    have hcol := (h.row hx).1
    rw [hf'.texts, heads_append, heads_cons hf'.re, hafter, hf'.isItem.index, List.getElem?_append_right (by omega),
      Nat.add_sub_cancel_left, List.getElem?_cons_succ, List.getElem?_append_left (by omega)] at hcol
    exact hall _ (List.mem_of_getElem? hcol)

/-- Indenting an item that has a sibling before it: it becomes the last child of that sibling, its subtree with it and
all else untouched, exactly when its new column fits. -/
theorem indentItem_correct (text : Units) (pos : Nat) (hit : itemOwning (parseOutline text) pos = some it)
    (hprev : previousSibling (parseOutline text) it = some prev) : ∃ e, indentItem text pos = .edit e ∧
      (Indented (parseOutline text) (parseOutline e.text) it.index prev.index ↔ Fits (parseOutline text) prev it) := by
  have hlines := notMem_splitOn 10 text
  unfold indentItem
  rw [parseOutline_eq] at hit hprev ⊢
  generalize text.splitOn 10 = texts at hlines hit hprev ⊢
  have h := parsed_parseLines texts
  obtain ⟨a, t, m, w, hf, -, hli⟩ := h.owning hit
  obtain ⟨a', t', m', b', g', rfl, hf', hat', -, hparent, hle⟩ := h.previousAt hf hprev
  obtain ⟨b, g, r, rfl, hat, hend⟩ := hf.at
  have hedit := mapIdx_block (padLine (childUnit (parseLines texts) prev)) (a' ++ t' :: (b' ++ g')) t b (g ++ r)
  have hline := hf.isItem.line
  rw [← hf.texts, ← hend, ← hline] at hedit
  have hlt : lineOf (parseLines texts) pos <
      (a' ++ t' :: (b' ++ g') ++ padLine (childUnit (parseLines texts) prev) t ::
        (b.map (padLine (childUnit (parseLines texts) prev)) ++ (g ++ r))).length := by
    have hlen := congrArg List.length hf.texts
    simp only [List.length_append, List.length_cons, List.length_map] at hlen ⊢
    omega
  simp only [hit, hprev, texts_parseLines, hedit, caret, if_pos hlt]
  refine ⟨_, rfl, ?_⟩
  rw [parseOutline_joinLines ?_ (by simp), fits_iff h hf hf' hat'.block.gap, ← parent_indent hat',
    ← hf.isItem.index, ← hf'.isItem.index]
  · have htree := hat.tree_indent (childUnit (parseLines texts) prev) rfl
    rw [← hf.isItem.index, ← hf.isItem.indent] at htree
    have hget : (parseLines texts).items[it.index]? = some it := hf.isItem.index ▸ hf.get
    constructor
    · intro hind
      have hentry := congrArg (fun l => l[it.index]?.bind Entry.parent) (htree.symm.trans hind.tree)
      simpa [List.getElem?_map, h.tree_eq hget, hf'.isItem.index] using hentry
    · intro hname
      rw [hname] at htree
      have hlt' := (List.getElem?_eq_some_iff.mp hget).1
      have hprevget : (parseLines texts).items[prev.index]? = some prev := hf'.isItem.index ▸ hf'.get
      have hindex : it.index = prev.index + 1 + (heads b').length := hf.index_of_previous hf' hat'.block.gap
      refine ⟨htree, ?_⟩
      have hkids := childrenOf_indent h (parsed_parseLines _) htree hlt' (fun hp => ?_) fun k hk hp => ?_
      · have happend : ∀ x : Option OutlineItem, x.map (fun prev => prev.children ++ [it.index]) =
            (x.map OutlineItem.children).map (· ++ [it.index]) := fun x => by rw [Option.map_map]; rfl
        have hcount := congrArg List.length htree
        rw [List.length_map, h.length_tree, (parsed_parseLines _).length_tree, ← h.count,
          ← (parsed_parseLines _).count] at hcount
        rw [happend, h.children_eq (by omega), (parsed_parseLines _).children_eq (by omega), hkids]
        rfl
      · rw [parentOf_eq hget, ← hparent] at hp
        have := h.parent_lt hprevget hp
        omega
      · have hp' := hat'.parentOf_after (k := k) (by rw [← hf'.isItem.index]; omega) hp
        rw [← hf'.isItem.index] at hp'
        omega
  · rw [hf.texts] at hlines
    exact forall_lines_map (fun _ => notMem_padLine) hlines

theorem indentItem_correct_two : ∃ it prev e, itemOwning (parseOutline (ascii "- a\n- b\n  c")) 6 = some it ∧
    previousSibling (parseOutline (ascii "- a\n- b\n  c")) it = some prev ∧
    indentItem (ascii "- a\n- b\n  c") 6 = .edit e ∧
    (Indented (parseOutline (ascii "- a\n- b\n  c")) (parseOutline e.text) it.index prev.index ↔
      Fits (parseOutline (ascii "- a\n- b\n  c")) prev it) := by
  obtain ⟨it, hit⟩ : ∃ it, itemOwning (parseOutline (ascii "- a\n- b\n  c")) 6 = some it := ⟨_, rfl⟩
  obtain ⟨prev, hprev⟩ : ∃ prev, previousSibling (parseOutline (ascii "- a\n- b\n  c")) it = some prev := by
    obtain rfl := Option.some.inj hit
    exact ⟨_, rfl⟩
  obtain ⟨e, he, hiff⟩ := indentItem_correct (ascii "- a\n- b\n  c") 6 hit hprev
  exact ⟨it, prev, e, hit, hprev, he, hiff⟩

/-- The first child of the sibling before is further right than the second one, under which the item comes. -/
theorem indentItem_irregular : ∃ it prev e, itemOwning (parseOutline (ascii "- a\n    - b\n  - c\n- d")) 18 = some it ∧
    previousSibling (parseOutline (ascii "- a\n    - b\n  - c\n- d")) it = some prev ∧
    indentItem (ascii "- a\n    - b\n  - c\n- d") 18 = .edit e ∧
    e.text = ascii "- a\n    - b\n  - c\n    - d" ∧
    ¬ Indented (parseOutline (ascii "- a\n    - b\n  - c\n- d")) (parseOutline e.text) it.index prev.index :=
  ⟨_, _, _, rfl, rfl, rfl, by decide, fun h => absurd h.tree (by decide +kernel)⟩

end Savoire.Outlines
