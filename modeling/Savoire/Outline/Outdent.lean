import Savoire.Outline.Reorder

/-! Outdenting an item puts it behind the subtree of its parent exactly when no tab is split in a way that the columns
of two lines change places. -/
namespace Savoire.Outlines
open NearestSmaller

/-- A tab covers the columns on both sides of column `n`. -/
def splitsTab : Units → Nat → Bool
  | [], _ => false
  | c :: ws, n =>
    decide (0 < n) && if c = 9 then decide (n < indentUnit) || splitsTab ws (n - indentUnit) else splitsTab ws (n - 1)

/-- The items in their order, the subtree of `it` put behind that of its parent `p`. -/
def Outline.outdentOrder (o : Outline) (it p : OutlineItem) : List Nat :=
  List.range p.index ++ ((o.subtree p.index).filter (fun k => !(o.subtree it.index).contains k) ++
    (o.subtree it.index ++ o.names.drop (p.index + (o.subtree p.index).length)))

structure Outdented (o o' : Outline) (it p : OutlineItem) : Prop where
  count : o'.items.length = o.items.length
  tree : o'.tree (o.outdentOrder it p) = (o.entries (o.outdentOrder it p)).map fun e =>
    if e.name = it.index then { e with parent := p.parent } else e

def Outline.splits (o : Outline) (d k : Nat) : Bool := splitsTab (o.indentTextAt k) d

/-- No line that loses a column more than the others comes level with its parent by it, or left of a child. -/
structure Aligned (o : Outline) (it p : OutlineItem) : Prop where
  top : o.splits (it.indent - p.indent) it.index = true → (∀ q ∈ p.parent, indentOf o.items q + 1 < p.indent) ∧
    ∀ z ∈ (o.names.drop (p.index + (o.subtree p.index).length)).head?, indentOf o.items z < p.indent
  below : ∀ k ∈ o.subtree it.index, k ≠ it.index → ∀ q ∈ parentOf o.items k,
    (o.splits (it.indent - p.indent) k = true → o.splits (it.indent - p.indent) q = false →
      indentOf o.items q + 1 < indentOf o.items k) ∧
    ∀ z, q < z → z < k → o.splits (it.indent - p.indent) z = true → o.splits (it.indent - p.indent) k = false →
      indentOf o.items k < indentOf o.items z

variable {texts a b g s w mid r : List Units} {t t' : Units} {m m' : ItemMatch} {o : Outline} {it p : OutlineItem}
  {n k d : Nat} {l ws : Units}

theorem stripColumns_zero (l : Units) : (stripColumns l 0).1 = l := by
  cases l with
  | nil => rfl
  | cons c l => rw [stripColumns, if_neg fun h => absurd h.1 (Nat.lt_irrefl 0)]

theorem stripColumns_blank {c : Nat} (hd : 0 < d) (hc : isBlank c = true) (l : Units) :
    (stripColumns (c :: l) d).1 = (stripColumns l (d - if c = 9 then indentUnit else 1)).1 := by
  rw [stripColumns, if_pos ⟨hd, hc⟩]

theorem stripColumns_other {c : Nat} (hc : isBlank c = false) (l : Units) (d : Nat) :
    (stripColumns (c :: l) d).1 = c :: l := by
  rw [stripColumns, if_neg fun h => by simp [hc] at h]

theorem dropWhile_stripColumns (l : Units) (d : Nat) :
    (stripColumns l d).1.dropWhile isBlank = l.dropWhile isBlank := by
  induction l generalizing d with
  | nil => rfl
  | cons c l ih =>
    cases hc : isBlank c with
    | false => rw [stripColumns_other hc]
    | true =>
      obtain rfl | hd := Nat.eq_zero_or_pos d
      · rw [stripColumns_zero]
      · rw [stripColumns_blank hd hc, List.dropWhile_cons_of_pos hc, ih]

theorem takeWhile_stripColumns (l : Units) (d : Nat) :
    (stripColumns l d).1.takeWhile isBlank = (stripColumns (l.takeWhile isBlank) d).1 := by
  induction l generalizing d with
  | nil => rfl
  | cons c l ih =>
    cases hc : isBlank c with
    | false =>
      have hnot : ¬ isBlank c = true := by simp [hc]
      rw [stripColumns_other hc, List.takeWhile_cons_of_neg hnot]
      rfl
    | true =>
      obtain rfl | hd := Nat.eq_zero_or_pos d
      · rw [stripColumns_zero, stripColumns_zero]
      · rw [stripColumns_blank hd hc, List.takeWhile_cons_of_pos hc, stripColumns_blank hd hc, ih]

theorem reindents_stripColumns (d : Nat) :
    Reindents (fun l => (stripColumns l d).1) (fun ws => (stripColumns ws d).1) :=
  ⟨fun l => dropWhile_stripColumns l d, fun l _ => takeWhile_stripColumns l d⟩

theorem notMem_stripColumns (d : Nat) (h : 10 ∉ l) : 10 ∉ (stripColumns l d).1 := by
  induction l generalizing d with
  | nil => exact h
  | cons c l ih =>
    have hl : 10 ∉ l := fun hmem => h (List.mem_cons_of_mem c hmem)
    cases hc : isBlank c with
    | false => rwa [stripColumns_other hc]
    | true =>
      obtain rfl | hd := Nat.eq_zero_or_pos d
      · rwa [stripColumns_zero]
      · rw [stripColumns_blank hd hc]
        exact ih _ hl

theorem columns_stripColumns (hblank : ∀ c ∈ ws, isBlank c = true) (hd : d ≤ columns ws) :
    columns (stripColumns ws d).1 + d + (if splitsTab ws d then 1 else 0) = columns ws := by
  induction ws generalizing d with
  | nil =>
    have hzero : d = 0 := by simpa [columns] using hd
    rw [hzero]
    rfl
  | cons c ws ih =>
    rw [List.forall_mem_cons] at hblank
    obtain rfl | hpos := Nat.eq_zero_or_pos d
    · rw [stripColumns_zero]
      simp [splitsTab]
    · rw [columns_cons] at hd ⊢
      rw [stripColumns_blank hpos hblank.1, splitsTab, decide_eq_true hpos, Bool.true_and]
      by_cases htab : c = 9
      · rw [if_pos htab] at hd ⊢
        by_cases hsplit : d < indentUnit
        · have hunit : indentUnit = 2 := rfl
          have hzero : d - indentUnit = 0 := by omega
          rw [hzero, stripColumns_zero, decide_eq_true hsplit, Bool.true_or, if_pos htab, if_pos rfl]
          omega
        · have hrec := ih hblank.2 (d := d - indentUnit) (by omega)
          rw [decide_eq_false hsplit, Bool.false_or, if_pos htab]
          omega
      · rw [if_neg htab] at hd ⊢
        have hrec := ih hblank.2 (d := d - 1) (by omega)
        rw [if_neg htab]
        omega

/-- The parent, the lines before the item, the item with its subtree, and the rest of the subtree of the parent. -/
structure Under (texts a : List Units) (t : Units) (m : ItemMatch) (s : List Units) (t' : Units) (m' : ItemMatch)
    (b mid g r : List Units) : Prop where
  outer : At texts a t m (s ++ t' :: (b ++ mid)) g r
  re : itemRe t' = some m'
  inside : ∀ c ∈ heads b, columns m'.indentText < c
  full : b.rdropWhile isEmpty = b
  inner : ∃ g' r', At texts (a ++ t :: s) t' m' b g' r'
  gap : Gap mid
  head : ∀ c ∈ (heads mid).head?, c ≤ columns m'.indentText

theorem gap_of_prefix {u w : List Units} (h : Gap w) (hu : u <+: w) : Gap u := by
  obtain ⟨v, rfl⟩ := hu
  intro x hx
  refine h x ?_
  cases hdrop : u.dropWhile isEmpty with
  | nil =>
    rw [hdrop] at hx
    cases hx
  | cons y rest =>
    rw [hdrop] at hx
    rw [List.dropWhile_append, hdrop]
    exact hx

theorem Gap.append {u w : List Units} (hu : Gap u) (hw : Gap w) : Gap (u ++ w) := by
  intro x hx
  rw [List.dropWhile_append] at hx
  split at hx
  · exact hw x hx
  · rename_i hne
    refine hu x ?_
    cases hdrop : u.dropWhile isEmpty with
    | nil => simp [hdrop] at hne
    | cons y rest =>
      rw [hdrop] at hx
      exact hx

theorem rdropWhile_append_self {u : List Units} (hu : u.rdropWhile isEmpty = u) (v : List Units) :
    (u ++ v).rdropWhile isEmpty = u ++ v.rdropWhile isEmpty := by
  induction v using List.reverseRecOn with
  | nil => rw [List.append_nil, hu, List.rdropWhile_nil, List.append_nil]
  | append_singleton v x ih =>
    rw [← List.append_assoc]
    by_cases hx : isEmpty x = true
    · rw [List.rdropWhile_concat_pos _ _ _ hx, List.rdropWhile_concat_pos _ _ _ hx, ih]
    · rw [List.rdropWhile_concat_neg _ _ _ hx, List.rdropWhile_concat_neg _ _ _ hx, List.append_assoc]

theorem rdropWhile_item (hm : itemRe t = some m) (hb : b.rdropWhile isEmpty = b) (u : List Units) :
    (u ++ t :: b).rdropWhile isEmpty = u ++ t :: b := by
  have ht : ¬ isEmpty t = true := fun he => by
    rw [itemRe_isEmpty he] at hm
    cases hm
  have hself : (u ++ [t]).rdropWhile isEmpty = u ++ [t] := List.rdropWhile_concat_neg _ _ _ ht
  have hcons : u ++ t :: b = (u ++ [t]) ++ b := by simp
  rw [hcons, rdropWhile_append_self hself, hb]

theorem Parsed.under (h : Parsed texts o) (hf : Found texts o it a t m w) (hp : parentItem o it = some p) :
    ∃ a' t' m' s b mid g r, a = a' ++ t' :: s ∧ Under texts a' t' m' s t m b mid g r ∧
      Found texts o p a' t' m' (s ++ t :: w) ∧ it.endLine = a.length + b.length ∧
      p.endLine = a'.length + (s ++ t :: (b ++ mid)).length := by
  obtain ⟨j, hj, hget⟩ := Option.bind_eq_some_iff.mp hp
  obtain rfl := h.index hget
  have hit := hf.get
  rw [← hf.isItem.index] at hit
  have hlt := h.parent_lt hit hj
  obtain ⟨a', t', m', w', hf', hindex⟩ := h.found hget
  obtain ⟨s, rfl, rfl⟩ := hf'.split hf hlt
  obtain ⟨b, g, r, rfl, hat, hend⟩ := hf.at
  have hcols : p.indent < it.indent ∧ ∀ c ∈ heads s, it.indent ≤ c := by
    have hparent := hf.isItem.parent
    rw [hj, hf'.isItem.index, marks_split hf'.re] at hparent
    have hafter : ∀ y ∈ ((heads s).zipIdx ((heads a').length + 1)).reverse, y.2 ≠ (heads a').length := by
      intro y hy
      have hle := List.le_snd_of_mem_zipIdx (List.mem_reverse.mp hy)
      omega
    have hbefore : ∀ y ∈ marks a', y.2 ≠ (heads a').length := by
      intro y hy
      have hlt := (List.getElem?_eq_some_iff.mp (mem_marks hy)).1
      omega
    obtain ⟨hlt, hall⟩ := (parent_map_iff Prod.snd hafter hbefore).mp hparent.symm
    refine ⟨hf'.isItem.indent ▸ hlt, fun c hc => ?_⟩
    obtain ⟨k, hk⟩ := List.mem_iff_getElem?.mp hc
    refine hall (c, (heads a').length + 1 + k) (List.mem_reverse.mpr ?_)
    rw [List.mem_zipIdx_iff_le_and_getElem?_sub]
    exact ⟨by simp, by simpa using hk⟩
  have hs : ∀ c ∈ heads s, p.indent < c := fun c hc => hcols.1.trans_le (hcols.2 c hc)
  obtain ⟨g', r', hrest, hgap, hstop, hmid⟩ := blockRest_spec p.indent (g ++ r)
  have hfull : (blockRest p.indent (g ++ r)).rdropWhile isEmpty = blockRest p.indent (g ++ r) :=
    List.rdropWhile_idempotent _ _
  generalize blockRest p.indent (g ++ r) = mid at hrest hmid hfull
  have houter : Block p.indent (s ++ t :: (b ++ mid)) g' r' := by
    refine ⟨fun c hc => ?_, ?_, hgap, hstop⟩
    · rw [heads_append, heads_cons hf.re, heads_append] at hc
      simp only [List.mem_append, List.mem_cons] at hc
      obtain hc | rfl | hc | hc := hc
      · exact hs c hc
      · exact hf.isItem.indent ▸ hcols.1
      · exact hcols.1.trans (hf.isItem.indent ▸ hat.block.inside c hc)
      · exact hmid c hc
    · have hsplit : s ++ t :: (b ++ mid) = (s ++ t :: b) ++ mid := by simp
      rw [hsplit, rdropWhile_append_self (rdropWhile_item hf.re hat.block.full s), hfull]
  have hlines : s ++ t :: (b ++ (g ++ r)) = s ++ t :: (b ++ mid) ++ (g' ++ r') := by
    rw [hrest]
    simp
  refine ⟨a', t', m', s, b, mid, g', r', rfl, ⟨⟨?_, hf'.re, hf'.isItem.indent ▸ houter⟩, hf.re, hat.block.inside,
    hat.block.full, ⟨g, r, hat⟩, gap_of_prefix hat.block.gap_rest ⟨_, hrest.symm⟩, fun c hc => ?_⟩, hf', hend, ?_⟩
  · rw [hf'.texts, hlines]
  · refine hat.block.heads_head_le c ?_
    rw [← hat.block.heads_rest, hrest, heads_append, List.head?_append, Option.mem_def.mp hc]
    rfl
  · rw [hf'.isItem.endLine, hlines, houter.blockRest]

theorem range_cons (i j : Nat) : i :: List.range' (i + 1) j = List.range' i (1 + j) := by
  rw [Nat.add_comm 1 j, List.range'_succ]

theorem range_three (i j k l : Nat) : i :: List.range' (i + 1) j ++
    ((i + 1 + j) :: List.range' (i + 1 + j + 1) k ++ List.range' (i + 1 + j + 1 + k) l) =
      List.range' i (1 + j + (1 + k + l)) := by
  have hstep : ∀ d c, d + 1 + c = d + (1 + c) := fun d c => Nat.add_assoc ..
  rw [range_cons i j, range_cons (i + 1 + j) k, hstep (i + 1 + j) k, List.range'_append_1, hstep i j,
    List.range'_append_1]

theorem range_five (i j k l n : Nat) : List.range (i + (1 + j + (1 + k + (l + n)))) =
    List.range i ++ (i :: List.range' (i + 1) j ++ ((i + 1 + j) :: List.range' (i + 1 + j + 1) k ++
      (List.range' (i + 1 + j + 1 + k) l ++ List.range' (i + 1 + j + 1 + k + l) n))) := by
  have hall : List.range' 0 i ++ List.range' (0 + i) (1 + j + (1 + k + (l + n))) =
      List.range' 0 (i + (1 + j + (1 + k + (l + n)))) := List.range'_append_1
  rw [Nat.zero_add] at hall
  rw [List.range'_append_1, range_three, List.range_eq_range', List.range_eq_range', hall]

theorem block_iff {C D : Nat → Nat → Prop} {P : Nat → Option Nat} {x : Nat}
    (hP : ∀ k ∈ List.range' (x + 1) n, ∀ q ∈ P k, x ≤ q ∧ q < k) :
    (∀ u y w, List.range' (x + 1) n = u ++ y :: w → ∀ l q l', x :: u = l ++ q :: l' → P y = some q →
      C y q ∧ ∀ z ∈ l', D z y) ↔
    ∀ k ∈ x :: List.range' (x + 1) n, k ≠ x → ∀ q ∈ P k, C k q ∧ ∀ z, q < z → z < k → D z k := by
  have hsorted : (x :: List.range' (x + 1) n).Pairwise (· < ·) := by
    rw [range_cons]
    exact List.pairwise_lt_range'
  constructor
  · intro hall k hk hne q hq
    have hkb : k ∈ List.range' (x + 1) n := (List.mem_cons.mp hk).resolve_left hne
    obtain ⟨hxq, hqk⟩ := hP k hkb q hq
    obtain ⟨u, w, hsplit⟩ := List.append_of_mem hkb
    have hlist : x :: List.range' (x + 1) n = (x :: u) ++ k :: w := by rw [hsplit, List.cons_append]
    have hsorted' := hsorted
    rw [hlist, List.pairwise_append] at hsorted'
    obtain ⟨hfirst, htail, -⟩ := hsorted'
    have hlast := (List.pairwise_cons.mp htail).1
    have hbelow : ∀ z, x ≤ z → z < k → z ∈ x :: u := by
      intro z hxz hzk
      have hz : z ∈ x :: List.range' (x + 1) n := by
        rw [range_cons, List.mem_range'_1]
        rw [List.mem_range'_1] at hkb
        omega
      rw [hlist] at hz
      refine (List.mem_append.mp hz).resolve_right fun hzw => ?_
      obtain rfl | hzw := List.mem_cons.mp hzw
      · omega
      · have := hlast z hzw
        omega
    obtain ⟨l, l', hu⟩ := List.append_of_mem (hbelow q hxq hqk)
    obtain ⟨hc, hd⟩ := hall u k w hsplit l q l' hu hq
    refine ⟨hc, fun z hqz hzk => hd z ?_⟩
    have hz := hbelow z (by omega) hzk
    rw [hu, List.pairwise_append] at hfirst
    rw [hu] at hz
    obtain hz | hz := List.mem_append.mp hz
    · have := hfirst.2.2 z hz q List.mem_cons_self
      omega
    · exact (List.mem_cons.mp hz).resolve_left (by omega)
  · intro hall u y w hsplit l q l' hu hq
    have hy : y ∈ List.range' (x + 1) n := by simp [hsplit]
    have hne : y ≠ x := by
      rw [List.mem_range'_1] at hy
      omega
    obtain ⟨hc, hd⟩ := hall y (List.mem_cons_of_mem x hy) hne q hq
    rw [hsplit, ← List.cons_append, hu, List.pairwise_append] at hsorted
    obtain ⟨hfirst, -, hlast⟩ := hsorted
    refine ⟨hc, fun z hz => hd z ?_ ?_⟩
    · exact (List.pairwise_cons.mp (List.pairwise_append.mp hfirst).2.1).1 z hz
    · exact hlast z (by simp [hz]) y List.mem_cons_self

section Under
variable (h : Under texts a t m s t' m' b mid g r)
include h

theorem Under.gap_rest : Gap (g ++ r) := h.outer.block.gap_rest

theorem Under.bodies : Outlines.bodies texts = Outlines.bodies a ++ (Outlines.bodies (t :: s) ++
    (Outlines.bodies (t' :: b) ++ (Outlines.bodies mid ++ Outlines.bodies r))) := by
  have hlines : texts = a ++ ((t :: s) ++ ((t' :: b) ++ (mid ++ (g ++ r)))) := by
    rw [h.outer.texts]
    simp
  have hitem : Gap ((t' :: b) ++ (mid ++ (g ++ r))) := gap_item h.re _
  have hparent : Gap ((t :: s) ++ ((t' :: b) ++ (mid ++ (g ++ r)))) := gap_item h.outer.re _
  rw [hlines, bodies_append hparent, bodies_append hitem, bodies_append (h.gap.append h.gap_rest),
    bodies_append h.gap_rest, bodies_empty h.outer.block.gap]

theorem Under.rows_outdent (d : Nat) :
    rows (a ++ t :: (s ++ (mid ++ (stripColumns t' d).1 :: (b.map (fun l => (stripColumns l d).1) ++ (g ++ r))))) =
      rows a ++ (rows (t :: s) ++ (rows mid ++
        ((Outlines.bodies (t' :: b)).map (fun e => (columns (stripColumns e.1 d).1, e.2)) ++ rows r))) := by
  have hstrip := reindents_stripColumns d
  obtain ⟨m'', hm''⟩ : ∃ m'', itemRe (stripColumns t' d).1 = some m'' := by
    rw [← Option.isSome_iff_exists, isSome_itemRe (hstrip.rest t'), h.re]
    rfl
  have hlines : a ++ t :: (s ++ (mid ++ (stripColumns t' d).1 :: (b.map (fun l => (stripColumns l d).1) ++ (g ++ r)))) =
      a ++ ((t :: s) ++ (mid ++ ((t' :: b).map (fun l => (stripColumns l d).1) ++ (g ++ r)))) := by simp
  have hblock : Gap ((t' :: b).map (fun l => (stripColumns l d).1) ++ (g ++ r)) := gap_item hm'' _
  have hparent : Gap ((t :: s) ++ (mid ++ ((t' :: b).map (fun l => (stripColumns l d).1) ++ (g ++ r)))) :=
    gap_item h.outer.re _
  have hmoved : rows ((t' :: b).map fun l => (stripColumns l d).1) =
      (Outlines.bodies (t' :: b)).map fun e => (columns (stripColumns e.1 d).1, e.2) := by
    rw [rows, hstrip.bodies, List.map_map]
    rfl
  rw [hlines, rows_append hparent, rows_append (h.gap.append hblock), rows_append hblock, rows_append h.gap_rest,
    rows_empty h.outer.block.gap, hmoved]

theorem Under.length_heads : (heads texts).length =
    (heads a).length + (1 + (heads s).length + (1 + (heads b).length + ((heads mid).length + (heads r).length))) := by
  have hlen := congrArg List.length h.bodies
  simp only [bodies_item h.outer.re, bodies_item h.re, List.length_append, List.length_cons, length_bodies] at hlen
  omega

theorem Under.names : (parseLines texts).names = List.range (heads a).length ++
    ((heads a).length :: List.range' ((heads a).length + 1) (heads s).length ++
      (((heads a).length + 1 + (heads s).length) ::
          List.range' ((heads a).length + 1 + (heads s).length + 1) (heads b).length ++
        (List.range' ((heads a).length + 1 + (heads s).length + 1 + (heads b).length) (heads mid).length ++
          List.range' ((heads a).length + 1 + (heads s).length + 1 + (heads b).length + (heads mid).length)
            (heads r).length))) := by
  rw [(parsed_parseLines texts).names_eq, h.length_heads, range_five]

theorem Under.bodies_parts {f : Nat → Units × List Units}
    (hf : f = fun k => ((parseLines texts).indentTextAt k, (parseLines texts).contentAt k)) :
    Outlines.bodies a = (List.range (heads a).length).map f ∧
    Outlines.bodies (t :: s) = ((heads a).length :: List.range' ((heads a).length + 1) (heads s).length).map f ∧
    Outlines.bodies (t' :: b) = (((heads a).length + 1 + (heads s).length) ::
      List.range' ((heads a).length + 1 + (heads s).length + 1) (heads b).length).map f ∧
    Outlines.bodies mid =
      (List.range' ((heads a).length + 1 + (heads s).length + 1 + (heads b).length) (heads mid).length).map f ∧
    Outlines.bodies r =
      (List.range' ((heads a).length + 1 + (heads s).length + 1 + (heads b).length + (heads mid).length)
        (heads r).length).map f := by
  have hall := h.bodies.symm.trans (bodies_eq_names texts)
  rw [← hf, h.names, List.map_append, List.map_append, List.map_append, List.map_append] at hall
  obtain ⟨ha, hall⟩ := List.append_inj hall (by simp [length_bodies])
  obtain ⟨hs, hall⟩ := List.append_inj hall (by simp [bodies_item h.outer.re, length_bodies])
  obtain ⟨hb, hall⟩ := List.append_inj hall (by simp [bodies_item h.re, length_bodies])
  obtain ⟨hm, hr⟩ := List.append_inj hall (by simp [length_bodies])
  exact ⟨ha, hs, hb, hm, hr⟩

theorem Under.subtrees : (parseLines texts).subtree (heads a).length =
      (heads a).length :: List.range' ((heads a).length + 1) (heads s).length ++
        (((heads a).length + 1 + (heads s).length) ::
          List.range' ((heads a).length + 1 + (heads s).length + 1) (heads b).length ++
        List.range' ((heads a).length + 1 + (heads s).length + 1 + (heads b).length) (heads mid).length) ∧
    (parseLines texts).subtree ((heads a).length + 1 + (heads s).length) =
      ((heads a).length + 1 + (heads s).length) ::
        List.range' ((heads a).length + 1 + (heads s).length + 1) (heads b).length := by
  constructor
  · rw [h.outer.subtree, range_three, heads_append, heads_cons h.re, heads_append, List.length_append, List.length_cons,
      List.length_append]
    congr 1
    omega
  · obtain ⟨g', r', hat⟩ := h.inner
    have hindex : (heads (a ++ t :: s)).length = (heads a).length + 1 + (heads s).length := by
      rw [heads_append, heads_cons h.outer.re, List.length_append, List.length_cons]
      omega
    have hsub := hat.subtree
    rw [hindex] at hsub
    rw [hsub, range_cons, Nat.add_comm 1 (heads b).length]

def outdented (o : Outline) (d x n k : Nat) : Nat :=
  if x ≤ k ∧ k < x + 1 + n then columns (stripColumns (o.indentTextAt k) d).1 else indentOf o.items k

variable {it p : OutlineItem}

theorem Under.order (hp : p.index = (heads a).length)
    (hit : it.index = (heads a).length + 1 + (heads s).length) : (parseLines texts).outdentOrder it p =
      List.range (heads a).length ++ ((heads a).length :: List.range' ((heads a).length + 1) (heads s).length ++
        (List.range' ((heads a).length + 1 + (heads s).length + 1 + (heads b).length) (heads mid).length ++
          (((heads a).length + 1 + (heads s).length) ::
              List.range' ((heads a).length + 1 + (heads s).length + 1) (heads b).length ++
            List.range' ((heads a).length + 1 + (heads s).length + 1 + (heads b).length + (heads mid).length)
              (heads r).length))) ∧
    (parseLines texts).names.drop (p.index + ((parseLines texts).subtree p.index).length) =
      List.range' ((heads a).length + 1 + (heads s).length + 1 + (heads b).length + (heads mid).length)
        (heads r).length := by
  obtain ⟨hsub, hsub'⟩ := h.subtrees
  have hrest : (parseLines texts).names.drop (p.index + ((parseLines texts).subtree p.index).length) =
      List.range' ((heads a).length + 1 + (heads s).length + 1 + (heads b).length + (heads mid).length)
        (heads r).length := by
    have hnames : (parseLines texts).names = (List.range (heads a).length ++
        (parseLines texts).subtree (heads a).length) ++
          List.range' ((heads a).length + 1 + (heads s).length + 1 + (heads b).length + (heads mid).length)
            (heads r).length := by
      rw [h.names, hsub]
      simp only [List.append_assoc]
    rw [hp, hnames]
    exact List.drop_left' (by rw [List.length_append, List.length_range])
  refine ⟨?_, hrest⟩
  have hkeep : ∀ l : List Nat, (∀ k ∈ l, k < (heads a).length + 1 + (heads s).length ∨
      (heads a).length + 1 + (heads s).length + 1 + (heads b).length ≤ k) →
      l.filter (fun k => !((parseLines texts).subtree it.index).contains k) = l := by
    intro l hl
    refine List.filter_eq_self.mpr fun k hk => ?_
    rw [hit, hsub', range_cons, Bool.not_eq_true', List.contains_eq_mem, decide_eq_false_iff_not, List.mem_range'_1]
    have := hl k hk
    omega
  have hbefore := hkeep ((heads a).length :: List.range' ((heads a).length + 1) (heads s).length) fun k hk => by
    rw [range_cons, List.mem_range'_1] at hk
    omega
  have hafter := hkeep (List.range' ((heads a).length + 1 + (heads s).length + 1 + (heads b).length)
    (heads mid).length) fun k hk => by
      rw [List.mem_range'_1] at hk
      omega
  have hdrop : (((heads a).length + 1 + (heads s).length) ::
      List.range' ((heads a).length + 1 + (heads s).length + 1) (heads b).length).filter
        (fun k => !((parseLines texts).subtree it.index).contains k) = [] := by
    refine List.filter_eq_nil_iff.mpr fun k hk => ?_
    rw [← hsub', ← hit] at hk
    simp [hk]
  rw [Outline.outdentOrder, hrest, hp, hsub, List.filter_append, List.filter_append, hbefore, hafter, hdrop, hit, hsub',
    List.nil_append, List.append_assoc]

theorem Under.rows_order (hp : p.index = (heads a).length)
    (hit : it.index = (heads a).length + 1 + (heads s).length) (d : Nat) :
    rows (a ++ t :: (s ++ (mid ++ (stripColumns t' d).1 :: (b.map (fun l => (stripColumns l d).1) ++ (g ++ r))))) =
      ((parseLines texts).outdentOrder it p).map fun k =>
        (outdented (parseLines texts) d ((heads a).length + 1 + (heads s).length) (heads b).length k,
          (parseLines texts).contentAt k) := by
  obtain ⟨ha, hs, hb, hm, hr⟩ := h.bodies_parts rfl
  have hother : ∀ {u : List Units} {l : List Nat},
      Outlines.bodies u = l.map (fun k => ((parseLines texts).indentTextAt k, (parseLines texts).contentAt k)) →
      (∀ k ∈ l, k < (heads a).length + 1 + (heads s).length ∨
        (heads a).length + 1 + (heads s).length + 1 + (heads b).length ≤ k) →
      rows u = l.map fun k =>
        (outdented (parseLines texts) d ((heads a).length + 1 + (heads s).length) (heads b).length k,
          (parseLines texts).contentAt k) := by
    intro u l hu hl
    rw [rows, hu, List.map_map]
    refine List.map_congr_left fun k hk => ?_
    have hout : ¬ ((heads a).length + 1 + (heads s).length ≤ k ∧
        k < (heads a).length + 1 + (heads s).length + 1 + (heads b).length) := by
      have := hl k hk
      omega
    rw [Function.comp, outdented, if_neg hout, indentOf_eq]
  have hmoved : (Outlines.bodies (t' :: b)).map (fun e => (columns (stripColumns e.1 d).1, e.2)) =
      (((heads a).length + 1 + (heads s).length) ::
        List.range' ((heads a).length + 1 + (heads s).length + 1) (heads b).length).map fun k =>
          (outdented (parseLines texts) d ((heads a).length + 1 + (heads s).length) (heads b).length k,
            (parseLines texts).contentAt k) := by
    rw [hb, List.map_map]
    refine List.map_congr_left fun k hk => ?_
    rw [range_cons, List.mem_range'_1] at hk
    have hin : (heads a).length + 1 + (heads s).length ≤ k ∧
        k < (heads a).length + 1 + (heads s).length + 1 + (heads b).length := by omega
    rw [Function.comp, outdented, if_pos hin]
  rw [h.rows_outdent, (h.order hp hit).1, hmoved, hother ha, hother hs, hother hm, hother hr]
  · simp only [List.map_append]
  · intro k hk
    rw [List.mem_range'_1] at hk
    omega
  · intro k hk
    rw [List.mem_range'_1] at hk
    omega
  · intro k hk
    rw [range_cons, List.mem_range'_1] at hk
    omega
  · intro k hk
    rw [List.mem_range] at hk
    omega

theorem Under.columns_parts : columns m.indentText = indentOf (parseLines texts).items (heads a).length ∧
    heads s = (List.range' ((heads a).length + 1) (heads s).length).map (indentOf (parseLines texts).items) ∧
    columns m'.indentText = indentOf (parseLines texts).items ((heads a).length + 1 + (heads s).length) ∧
    heads b = (List.range' ((heads a).length + 1 + (heads s).length + 1) (heads b).length).map
      (indentOf (parseLines texts).items) ∧
    heads mid = (List.range' ((heads a).length + 1 + (heads s).length + 1 + (heads b).length) (heads mid).length).map
      (indentOf (parseLines texts).items) ∧
    heads r = (List.range' ((heads a).length + 1 + (heads s).length + 1 + (heads b).length + (heads mid).length)
      (heads r).length).map (indentOf (parseLines texts).items) := by
  obtain ⟨-, hs, hb, hm, hr⟩ := h.bodies_parts rfl
  have hheads : ∀ {u : List Units} {l : List Nat},
      Outlines.bodies u = l.map (fun k => ((parseLines texts).indentTextAt k, (parseLines texts).contentAt k)) →
      heads u = l.map (indentOf (parseLines texts).items) := by
    intro u l hu
    rw [← map_columns_bodies, hu, List.map_map]
    exact List.map_congr_left fun k _ => (indentOf_eq texts k).symm
  have hs' := hheads hs
  have hb' := hheads hb
  rw [heads_cons h.outer.re] at hs'
  rw [heads_cons h.re] at hb'
  obtain ⟨hi, hs'⟩ := List.cons.inj hs'
  obtain ⟨hx, hb'⟩ := List.cons.inj hb'
  exact ⟨hi, hs', hx, hb', hheads hm, hheads hr⟩

theorem Under.outdented_iff (hp : p.index = (heads a).length)
    (hit : it.index = (heads a).length + 1 + (heads s).length) (hcol : p.indent = columns m.indentText)
    (hcol' : it.indent = columns m'.indentText) (hparent : p.parent = parentOf (parseLines texts).items p.index) :
    Outdented (parseLines texts) (parseLines (a ++ t :: (s ++ (mid ++ (stripColumns t' (it.indent - p.indent)).1 ::
      (b.map (fun l => (stripColumns l (it.indent - p.indent)).1) ++ (g ++ r)))))) it p ↔
      Aligned (parseLines texts) it p := by
  have ho := parsed_parseLines texts
  obtain ⟨hi, hs, hx, hb, hm, hr⟩ := h.columns_parts
  have hrows := h.rows_order hp hit (it.indent - p.indent)
  obtain ⟨horder, hdrop⟩ := h.order hp hit
  obtain ⟨-, hsub⟩ := h.subtrees
  have hold := parents_names texts
  have hnodup : (parseLines texts).names.Nodup := List.nodup_range
  rw [h.names] at hold hnodup
  have hunder : ∀ {u : List Units}, (∀ c ∈ heads u, c ∈ heads (s ++ t' :: (b ++ mid))) →
      ∀ c ∈ heads u, columns m.indentText < c := fun hu c hc => h.outer.block.inside c (hu c hc)
  have hheads : heads (s ++ t' :: (b ++ mid)) = heads s ++ columns m'.indentText :: (heads b ++ heads mid) := by
    rw [heads_append, heads_cons h.re, heads_append]
  have hxp : indentOf (parseLines texts).items (heads a).length <
      indentOf (parseLines texts).items ((heads a).length + 1 + (heads s).length) := by
    rw [← hi, ← hx]
    exact h.outer.block.inside _ (by simp [hheads])
  have hhead : ∀ {n : Nat} {l : List Nat} {u : List Units}, (∀ c ∈ (heads u).head?, c ≤ n) →
      heads u = l.map (indentOf (parseLines texts).items) →
      ∀ z ∈ l.head?, indentOf (parseLines texts).items z ≤ n := by
    intro n l u hall hu z hz
    refine hall _ ?_
    rw [hu, List.head?_map, Option.mem_def]
    exact Option.map_eq_some_iff.mpr ⟨z, hz, rfl⟩
  have hsame : ∀ z ∈ List.range (heads a).length ++ ((heads a).length ::
      List.range' ((heads a).length + 1) (heads s).length ++
        (List.range' ((heads a).length + 1 + (heads s).length + 1 + (heads b).length) (heads mid).length ++
          List.range' ((heads a).length + 1 + (heads s).length + 1 + (heads b).length + (heads mid).length)
            (heads r).length)), outdented (parseLines texts) (it.indent - p.indent)
              ((heads a).length + 1 + (heads s).length) (heads b).length z = indentOf (parseLines texts).items z := by
    intro z hz
    rw [range_cons] at hz
    simp only [List.mem_append, List.mem_range, List.mem_range'_1] at hz
    exact if_neg (by omega)
  have hcut : ∀ z ∈ ((heads a).length + 1 + (heads s).length) ::
      List.range' ((heads a).length + 1 + (heads s).length + 1) (heads b).length,
      outdented (parseLines texts) (it.indent - p.indent) ((heads a).length + 1 + (heads s).length) (heads b).length z +
        (indentOf (parseLines texts).items ((heads a).length + 1 + (heads s).length) -
          indentOf (parseLines texts).items (heads a).length) +
        (if (parseLines texts).splits (it.indent - p.indent) z then 1 else 0) =
      indentOf (parseLines texts).items z := by
    intro z hz
    have hle : indentOf (parseLines texts).items ((heads a).length + 1 + (heads s).length) ≤
        indentOf (parseLines texts).items z := by
      obtain rfl | hz := List.mem_cons.mp hz
      · exact le_rfl
      · exact (lt_indentOf (hx ▸ h.inside) hb z hz).le
    rw [range_cons, List.mem_range'_1] at hz
    have hstrip := columns_stripColumns (blank_indentTextAt texts z) (d := it.indent - p.indent)
    rw [← indentOf_eq, hcol, hcol', hi, hx] at hstrip
    rw [outdented, if_pos (by omega), Outline.splits, hcol, hcol', hi, hx]
    exact hstrip (by omega)
  have hV := parents_outdent_iff hnodup (lt_indentOf (hi ▸ hunder fun c hc => by simp [hheads, hc]) hs) hxp
    (lt_indentOf (hx ▸ h.inside) hb) (lt_indentOf (hi ▸ hunder fun c hc => by simp [hheads, hc]) hm) (hhead (hx ▸ h.head) hm)
    (hhead (hi ▸ h.outer.block.heads_head_le) hr) hsame hcut hold
  have hinner : ∀ k ∈ List.range' ((heads a).length + 1 + (heads s).length + 1) (heads b).length,
      ∀ q ∈ parentOf (parseLines texts).items k, (heads a).length + 1 + (heads s).length ≤ q ∧ q < k := by
    intro k hk q hq
    rw [List.mem_range'_1] at hk
    obtain ⟨g', r', hat⟩ := h.inner
    have hindex : (heads (a ++ t :: s)).length = (heads a).length + 1 + (heads s).length := by
      rw [heads_append, heads_cons h.outer.re, List.length_append, List.length_cons]
      omega
    obtain ⟨q', hq', hle⟩ := hat.parentOf_inside (k := k) (by omega) (by omega)
    have hitem : k < (parseLines texts).items.length := by
      rw [ho.count, h.length_heads]
      omega
    have hget := List.getElem?_eq_getElem hitem
    have hqk := ho.parent_lt hget ((parentOf_eq hget).symm.trans hq)
    rw [hq] at hq'
    obtain rfl := Option.some.inj hq'
    omega
  have hpi : p.indent = indentOf (parseLines texts).items (heads a).length := hcol.trans hi
  have hpairs : ∀ order : List Nat, (order.map fun k => Entry.mk k
      (if k = (heads a).length + 1 + (heads s).length then parentOf (parseLines texts).items (heads a).length
        else parentOf (parseLines texts).items k) ((parseLines texts).contentAt k)) =
      (order.map fun k => (k, if k = (heads a).length + 1 + (heads s).length then
        parentOf (parseLines texts).items (heads a).length else parentOf (parseLines texts).items k)).map
        fun e => Entry.mk e.1 e.2 ((parseLines texts).contentAt e.1) := fun order => by rw [List.map_map]; rfl
  have hmem : ∀ k ∈ (parseLines texts).outdentOrder it p, k < (parseLines texts).items.length := by
    intro k hk
    rw [ho.count, h.length_heads]
    rw [horder, range_cons, range_cons] at hk
    simp only [List.mem_append, List.mem_range, List.mem_range'_1] at hk
    omega
  have hentries : ((parseLines texts).entries ((parseLines texts).outdentOrder it p)).map
      (fun e => if e.name = it.index then { e with parent := p.parent } else e) =
      ((parseLines texts).outdentOrder it p).map fun k => Entry.mk k
        (if k = (heads a).length + 1 + (heads s).length then parentOf (parseLines texts).items (heads a).length
          else parentOf (parseLines texts).items k) ((parseLines texts).contentAt k) := by
    rw [entries_eq hmem, List.map_map]
    refine List.map_congr_left fun k _ => ?_
    rw [Function.comp, hit, hparent, hp]
    split <;> rfl
  refine Iff.trans ?_ ((hV.trans (and_congr_right fun _ => block_iff hinner)).trans ?_)
  · rw [horder] at hrows hentries
    constructor
    · intro hout
      have htree := hout.tree
      rw [horder, hentries, tree_of_rows hrows, hpairs] at htree
      exact entry_map_inj htree
    · intro hparents
      refine ⟨?_, ?_⟩
      · have hlen := congrArg List.length hrows
        rw [length_rows, ← (parsed_parseLines _).count, List.length_map] at hlen
        rw [hlen, ho.count, h.length_heads]
        simp only [List.length_append, List.length_cons, List.length_range, List.length_range']
        omega
      · rw [horder, hentries, tree_of_rows hrows, hpairs, hparents]
  · constructor
    · rintro ⟨htop, hbelow⟩
      refine ⟨fun hs => ?_, by rw [hit, hsub]; exact hbelow⟩
      obtain ⟨hgrand, hnext⟩ := htop (hit ▸ hs)
      rw [hparent, hp, ← hp, hdrop, hpi, hp]
      exact ⟨hgrand, hnext⟩
    · intro hal
      refine ⟨fun hs => ?_, by have hbelow := hal.below; rw [hit, hsub] at hbelow; exact hbelow⟩
      have htop := hal.top (hit ▸ hs)
      rw [hdrop, hpi, hparent, hp] at htop
      exact htop

end Under

/-- Outdenting an item: the new text has the tree with the item and its subtree behind that of its parent, all other
parents and all texts as before, exactly when no split tab puts two lines on one column or out of order. -/
theorem dedentItem_correct (text : Units) (pos : Nat) (hit : itemOwning (parseOutline text) pos = some it)
    (hp : parentItem (parseOutline text) it = some p) : ∃ e, dedentItem text pos = .edit e ∧
      (Outdented (parseOutline text) (parseOutline e.text) it p ↔ Aligned (parseOutline text) it p) := by
  have hlines := notMem_splitOn 10 text
  unfold dedentItem
  rw [parseOutline_eq] at hit hp ⊢
  generalize text.splitOn 10 = texts at hlines hit hp ⊢
  have ho := parsed_parseLines texts
  obtain ⟨_, t, m, _, hf, hli, hli'⟩ := ho.owning hit
  obtain ⟨a, t', m', s, b, mid, g, r, rfl, h, hf', hend, hend'⟩ := ho.under hf hp
  have hline := hf.isItem.line
  have htexts : texts = a ++ t' :: (s ++ t :: (b ++ (mid ++ (g ++ r)))) := by
    rw [h.outer.texts]
    simp
  have hbefore : slice texts 0 it.line = a ++ t' :: s := by
    have hsplit : texts = [] ++ ((a ++ t' :: s) ++ t :: (b ++ (mid ++ (g ++ r)))) := by rw [htexts]; simp
    rw [hsplit]
    exact slice_append [] _ _ rfl (by rw [hline]; simp)
  have hown : slice texts it.line (it.endLine + 1) = t :: b := by
    have hsplit : texts = (a ++ t' :: s) ++ ((t :: b) ++ (mid ++ (g ++ r))) := by rw [htexts]; simp
    rw [hsplit]
    exact slice_append _ _ _ hline (by rw [hend, List.length_cons, Nat.add_assoc])
  have hmiddle : slice texts (it.endLine + 1) (p.endLine + 1) = mid := by
    have hsplit : texts = (a ++ t' :: s ++ t :: b) ++ (mid ++ (g ++ r)) := by rw [htexts]; simp
    rw [hsplit]
    exact slice_append _ _ _ (by rw [hend]; simp; omega) (by rw [hend']; simp; omega)
  have hafter : texts.drop (p.endLine + 1) = g ++ r := by
    have hsplit : texts = (a ++ t' :: s ++ t :: b ++ mid) ++ (g ++ r) := by rw [htexts]; simp
    rw [hsplit]
    exact List.drop_left' (by rw [hend']; simp; omega)
  have hnew : a ++ t' :: s ++ mid ++ (t :: b).map (fun l => (stripColumns l (it.indent - p.indent)).1) ++ (g ++ r) =
      a ++ t' :: (s ++ (mid ++ (stripColumns t (it.indent - p.indent)).1 ::
        (b.map (fun l => (stripColumns l (it.indent - p.indent)).1) ++ (g ++ r)))) := by simp
  simp only [hit, hp, texts_parseLines, hbefore, hown, hmiddle, hafter, hnew, caret]
  have hlt : (if lineOf (parseLines texts) pos ≤ it.endLine then
      (a ++ t' :: s).length + mid.length + (lineOf (parseLines texts) pos - it.line)
      else lineOf (parseLines texts) pos) <
        (a ++ t' :: (s ++ (mid ++ (stripColumns t (it.indent - p.indent)).1 ::
          (b.map (fun l => (stripColumns l (it.indent - p.indent)).1) ++ (g ++ r))))).length := by
    have hlen := congrArg List.length htexts
    simp only [List.length_append, List.length_cons, List.length_map] at hlen hline hend ⊢
    split <;> omega
  have hlines' : ∀ l ∈ a ++ t' :: (s ++ (mid ++ (stripColumns t (it.indent - p.indent)).1 ::
      (b.map (fun l => (stripColumns l (it.indent - p.indent)).1) ++ (g ++ r)))), 10 ∉ l := by
    rw [htexts] at hlines
    simp only [List.forall_mem_append, List.forall_mem_cons, List.forall_mem_map] at hlines ⊢
    obtain ⟨ha, ht', hs, ht, hb, hmid, hg, hr⟩ := hlines
    exact ⟨ha, ht', hs, hmid, notMem_stripColumns _ ht, fun l hl => notMem_stripColumns _ (hb l hl), hg, hr⟩
  rw [if_pos hlt]
  refine ⟨_, rfl, ?_⟩
  have hindex : it.index = (heads a).length + 1 + (heads s).length := by
    rw [hf.isItem.index, heads_append, heads_cons h.outer.re, List.length_append, List.length_cons]
    omega
  have hparent : p.parent = parentOf (parseLines texts).items p.index := by
    rw [hf'.isItem.index, parentOf_eq hf'.get]
  rw [parseOutline_joinLines hlines' (by simp)]
  exact h.outdented_iff hf'.isItem.index hindex hf'.isItem.indent hf.isItem.indent hparent

theorem dedentItem_correct_two : ∃ it p e, itemOwning (parseOutline (ascii "- a\n  - b\n  - c")) 7 = some it ∧
    parentItem (parseOutline (ascii "- a\n  - b\n  - c")) it = some p ∧
    dedentItem (ascii "- a\n  - b\n  - c") 7 = .edit e ∧
    (Outdented (parseOutline (ascii "- a\n  - b\n  - c")) (parseOutline e.text) it p ↔
      Aligned (parseOutline (ascii "- a\n  - b\n  - c")) it p) := by
  obtain ⟨it, hit⟩ : ∃ it, itemOwning (parseOutline (ascii "- a\n  - b\n  - c")) 7 = some it := ⟨_, rfl⟩
  obtain ⟨p, hp⟩ : ∃ p, parentItem (parseOutline (ascii "- a\n  - b\n  - c")) it = some p := by
    obtain rfl := Option.some.inj hit
    exact ⟨_, rfl⟩
  obtain ⟨e, he, hiff⟩ := dedentItem_correct (ascii "- a\n  - b\n  - c") 7 hit hp
  exact ⟨it, p, e, hit, hp, he, hiff⟩

/-- The tab goes whole, and the item comes level with the parent of its parent. -/
theorem dedentItem_irregular :
    ∃ it p e, itemOwning (parseOutline (ascii "- g\n - p\n\t- x")) 10 = some it ∧
      parentItem (parseOutline (ascii "- g\n - p\n\t- x")) it = some p ∧
      dedentItem (ascii "- g\n - p\n\t- x") 10 = .edit e ∧
      ¬ Outdented (parseOutline (ascii "- g\n - p\n\t- x")) (parseOutline e.text) it p :=
  ⟨_, _, _, rfl, rfl, rfl, fun h => absurd h.tree (by decide +kernel)⟩

end Savoire.Outlines
