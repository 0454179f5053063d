import Savoire.Outline.Items
import Savoire.Library.Forest

/-! An outline as a list of its items with their parents and their texts, and the lines of one subtree in it. -/
namespace Savoire.Outlines
open NearestSmaller

/-- The text of an item: its line and those that follow it, without the indentation and without empty ones at the
end. -/
def content (t : Units) (w : List Units) : List Units :=
  t.dropWhile isBlank :: ((w.takeWhile fun x => (itemRe x).isNone).map (·.dropWhile isBlank)).rdropWhile isEmpty

def Outline.content (o : Outline) (it : OutlineItem) : List Units :=
  match (o.lines.map OutlineLine.text).drop it.line with
  | [] => []
  | t :: w => Outlines.content t w

structure Entry where
  name : Nat
  parent : Option Nat
  content : List Units
  deriving DecidableEq

/-- The items in their order, each with its parent and its text, under names given in the same order. -/
def Outline.tree (o : Outline) (names : List Nat) : List Entry :=
  List.zipWith (fun it name => ⟨name, it.parent.bind (names[·]?), o.content it⟩) o.items names

def Outline.names (o : Outline) : List Nat := List.range o.items.length

structure Node where
  name : Nat
  indent : Nat
  content : List Units

def bodies : List Units → List (Units × List Units)
  | [] => []
  | t :: w =>
    match itemRe t with
    | none => bodies w
    | some m => (m.indentText, content t w) :: bodies w

/-- The columns and texts of the items among some lines. -/
def rows (texts : List Units) : List (Nat × List Units) := (bodies texts).map fun r => (columns r.1, r.2)

def nodes (names : List Nat) (texts : List Units) : List Node :=
  List.zipWith (fun name r => ⟨name, r.1, r.2⟩) names (rows texts)

def entry (e : Node × Option Node) : Entry := ⟨e.1.name, e.2.map Node.name, e.1.content⟩

variable {texts u w a b g : List Units} {t : Units} {m : ItemMatch} {names names' : List Nat} {n k : Nat} {o : Outline}

theorem bodies_of_none (h : itemRe t = none) (w : List Units) : bodies (t :: w) = bodies w := by
  rw [bodies, h]

theorem bodies_item (h : itemRe t = some m) (w : List Units) :
    bodies (t :: w) = (m.indentText, content t w) :: bodies w := by
  rw [bodies, h]

theorem map_columns_bodies (texts : List Units) : (bodies texts).map (fun r => columns r.1) = heads texts := by
  induction texts with
  | nil => rfl
  | cons t w ih =>
    cases h : itemRe t with
    | none => rw [bodies_of_none h, ih, ← List.singleton_append, heads_append, heads_of_none h, List.nil_append]
    | some m => rw [bodies_item h, heads_cons h, List.map_cons, ih]

theorem map_fst_rows (texts : List Units) : (rows texts).map Prod.fst = heads texts := by
  rw [← map_columns_bodies, rows, List.map_map]
  rfl

theorem length_rows (texts : List Units) : (rows texts).length = (heads texts).length := by
  rw [← map_fst_rows, List.length_map]

theorem rows_item (h : itemRe t = some m) (w : List Units) :
    rows (t :: w) = (columns m.indentText, content t w) :: rows w := by
  rw [rows, bodies_item h, List.map_cons]
  rfl

theorem getElem?_bodies (h : itemRe t = some m) (a b : List Units) :
    (bodies (a ++ t :: b))[(heads a).length]? = some (m.indentText, content t b) := by
  induction a with
  | nil =>
    rw [List.nil_append, bodies_item h]
    rfl
  | cons x a ih =>
    rw [List.cons_append]
    cases hx : itemRe x with
    | none =>
      have hheads : heads (x :: a) = heads a := by
        rw [← List.singleton_append, heads_append, heads_of_none hx, List.nil_append]
      rwa [bodies_of_none hx, hheads]
    | some m' => rwa [bodies_item hx, heads_cons hx, List.length_cons, List.getElem?_cons_succ]

theorem getElem?_rows (h : itemRe t = some m) (a b : List Units) :
    (rows (a ++ t :: b))[(heads a).length]? = some (columns m.indentText, content t b) := by
  rw [rows, List.getElem?_map, getElem?_bodies h]
  rfl

theorem map_indent_nodes (h : names.length = (heads texts).length) :
    (nodes names texts).map Node.indent = heads texts := by
  have hlen : (rows texts).length ≤ names.length := by rw [length_rows, h]
  calc (nodes names texts).map Node.indent = ((names.zip (rows texts)).map Prod.snd).map Prod.fst := by
        simp only [nodes, List.zip, List.map_zipWith]
    _ = heads texts := by rw [List.map_snd_zip hlen, map_fst_rows]

theorem tree_parseLines (h : names.length = (heads texts).length) :
    (parseLines texts).tree names = (parents Node.indent [] (nodes names texts)).map entry := by
  have hp := parsed_parseLines texts
  have hrows := length_rows texts
  have hnodes : (nodes names texts).length = (heads texts).length := by
    rw [nodes, List.length_zipWith]
    omega
  refine List.ext_getElem? fun k => ?_
  by_cases hk : k < (heads texts).length
  · obtain ⟨a, t, b, m, htexts, hm, hlen, -⟩ := heads_split (List.getElem?_eq_getElem hk)
    obtain ⟨it, hit, hitem⟩ := hp.item a t b m htexts hm
    rw [hlen] at hit
    have hname : names[k]? = some names[k] := List.getElem?_eq_getElem (h ▸ hk)
    have hrow : (rows texts)[k]? = some (columns m.indentText, content t b) := by
      rw [htexts, ← hlen]
      exact getElem?_rows hm a b
    have hnode : (nodes names texts)[k]? = some ⟨names[k], columns m.indentText, content t b⟩ := by
      rw [nodes, List.getElem?_zipWith, hname, hrow]
    have hcontent : (parseLines texts).content it = content t b := by
      have htext : (parseLines texts).lines.map OutlineLine.text = texts := by
        refine List.ext_getElem? fun i => ?_
        rw [hp.lines, List.getElem?_map]
        exact text_outlineLines 0 texts i
      rw [Outline.content, htext, hitem.line, htexts, List.drop_left]
    have hmarks : marks a = (((nodes names texts).take k).map Node.indent).zipIdx.reverse := by
      rw [List.map_take, map_indent_nodes h, htexts, heads_append, ← hlen, List.take_left]
      rfl
    have hparent : it.parent.bind (names[·]?) =
        (parent Node.indent ((nodes names texts).take k).reverse (columns m.indentText)).map Node.name := by
      rw [← parent_zipIdx, hitem.parent, hitem.indent, hmarks]
      cases hq : parent Prod.fst (((nodes names texts).take k).map Node.indent).zipIdx.reverse
          (columns m.indentText) with
      | none => rfl
      | some q =>
        have hmem := List.mem_zipIdx_iff_getElem?.mp (List.mem_reverse.mp (List.mem_of_find?_eq_some hq))
        rw [List.getElem?_map] at hmem
        obtain ⟨x, hx, -⟩ := Option.map_eq_some_iff.mp hmem
        have hx' : (nodes names texts)[q.2]? = some x := by
          have hlt := (List.getElem?_eq_some_iff.mp hx).1
          rw [List.length_take] at hlt
          rwa [List.getElem?_take_of_lt (by omega)] at hx
        simp only [Option.map_some, Option.bind_some, hx]
        rw [nodes, List.getElem?_zipWith_eq_some] at hx'
        obtain ⟨name, r, hname, -, rfl⟩ := hx'
        exact hname
    rw [Outline.tree, List.getElem?_zipWith, hit, hname, List.getElem?_map, getElem?_parents, hnode]
    simp only [Option.map_some, entry, List.append_nil, hparent, hcontent]
  · rw [List.getElem?_eq_none, List.getElem?_eq_none]
    · rw [List.length_map, length_parents]
      omega
    · rw [Outline.tree, List.length_zipWith, hp.count]
      omega

/-- After empty lines comes an item, or the end. -/
def Gap (w : List Units) : Prop := ∀ x ∈ (w.dropWhile isEmpty).head?, (itemRe x).isSome = true

theorem itemRe_isEmpty (h : isEmpty t = true) : itemRe t = none := by
  unfold itemRe
  cases hdrop : t.dropWhile isBlank with
  | nil => rfl
  | cons c rest =>
    have hc : isSpace c = true := by
      refine List.all_eq_true.mp h c ((List.dropWhile_sublist isBlank).subset ?_)
      rw [hdrop]
      exact List.mem_cons_self
    have hbullet : ¬ (c = 45 ∨ c = 42 ∨ c = 43) := by
      rintro (rfl | rfl | rfl) <;> exact absurd hc (by decide)
    simp only [if_neg hbullet]

theorem isEmpty_dropWhile (h : isEmpty t = true) : isEmpty (t.dropWhile isBlank) = true :=
  List.all_eq_true.mpr fun c hc => List.all_eq_true.mp h c ((List.dropWhile_sublist _).subset hc)

theorem gap_item (h : itemRe t = some m) (w : List Units) : Gap (t :: w) := by
  have hne : ¬ isEmpty t = true := fun he => by
    rw [itemRe_isEmpty he] at h
    cases h
  intro x hx
  rw [List.dropWhile_cons_of_neg hne, List.head?_cons, Option.mem_some_iff] at hx
  rw [← hx, h]
  rfl

theorem gap_nil : Gap [] := by simp [Gap]

section
variable (hg : ∀ x ∈ g, isEmpty x = true)
include hg

theorem gap_append (h : Gap w) : Gap (g ++ w) := by
  rwa [Gap, List.dropWhile_append_of_pos hg]

theorem bodies_empty (w : List Units) : bodies (g ++ w) = bodies w := by
  induction g with
  | nil => rfl
  | cons x g ih =>
    rw [List.forall_mem_cons] at hg
    rw [List.cons_append, bodies_of_none (itemRe_isEmpty hg.1), ih hg.2]

theorem rows_empty (w : List Units) : rows (g ++ w) = rows w := by
  rw [rows, bodies_empty hg, rows]

theorem heads_empty (w : List Units) : heads (g ++ w) = heads w := by
  rw [← map_fst_rows, rows_empty hg, map_fst_rows]

end

theorem content_append (h : Gap w) (t : Units) (u : List Units) : content t (u ++ w) = content t u := by
  unfold content
  by_cases hu : u.all (fun x => (itemRe x).isNone) = true
  · have hu' := List.all_eq_true.mp hu
    have hself : u.takeWhile (fun x => (itemRe x).isNone) = u := List.takeWhile_eq_self_iff.mpr hu'
    have hempty : ∀ x ∈ (w.takeWhile fun x => (itemRe x).isNone).map (·.dropWhile isBlank), isEmpty x = true := by
      intro x hx
      obtain ⟨y, hy, rfl⟩ := List.mem_map.mp hx
      refine isEmpty_dropWhile ?_
      have hsplit := List.takeWhile_append_dropWhile (p := isEmpty) (l := w)
      have htake : w.takeWhile (fun x => (itemRe x).isNone) = w.takeWhile isEmpty := by
        rw [← hsplit, List.takeWhile_append_of_pos fun z hz => by rw [itemRe_isEmpty (List.mem_takeWhile_imp hz)]; rfl]
        rw [List.takeWhile_append_of_pos fun z hz => List.mem_takeWhile_imp hz]
        cases hdrop : w.dropWhile isEmpty with
        | nil => rfl
        | cons z rest =>
          have hz : (itemRe z).isSome = true := h z (by rw [hdrop]; rfl)
          have hne : ¬ isEmpty z = true := fun he => by
            rw [itemRe_isEmpty he] at hz
            cases hz
          have hitem : ¬ (itemRe z).isNone = true := by
            rw [Option.isNone_iff_eq_none, ← ne_eq, Option.ne_none_iff_isSome]
            exact hz
          rw [List.takeWhile_cons_of_neg hne, List.takeWhile_cons, if_neg hitem]
      rw [htake] at hy
      exact List.mem_takeWhile_imp hy
    rw [List.takeWhile_append_of_pos hu', List.map_append, hself, List.rdropWhile, List.rdropWhile,
      List.reverse_append, List.dropWhile_append_of_pos fun x hx => hempty x (List.mem_reverse.mp hx)]
  · have hstop : (u ++ w).takeWhile (fun x => (itemRe x).isNone) = u.takeWhile fun x => (itemRe x).isNone := by
      rw [List.takeWhile_append, if_neg]
      intro hlen
      refine hu (List.all_eq_true.mpr ?_)
      exact List.takeWhile_eq_self_iff.mp ((List.takeWhile_prefix _).eq_of_length hlen)
    rw [hstop]

theorem bodies_append (h : Gap w) (u : List Units) : bodies (u ++ w) = bodies u ++ bodies w := by
  induction u with
  | nil => rfl
  | cons t u ih =>
    rw [List.cons_append]
    cases ht : itemRe t with
    | none => rw [bodies_of_none ht, bodies_of_none ht, ih]
    | some m => rw [bodies_item ht, bodies_item ht, ih, content_append h, List.cons_append]

theorem rows_append (h : Gap w) (u : List Units) : rows (u ++ w) = rows u ++ rows w := by
  rw [rows, bodies_append h, List.map_append]
  rfl

theorem nodes_append (h : Gap w) (hlen : names.length = (heads u).length) :
    nodes (names ++ names') (u ++ w) = nodes names u ++ nodes names' w := by
  rw [nodes, rows_append h, List.zipWith_append (by rw [hlen, length_rows])]
  rfl

theorem nodes_item (h : itemRe t = some m) (name : Nat) (w : List Units) :
    nodes (name :: names) (t :: w) = ⟨name, columns m.indentText, content t w⟩ :: nodes names w := by
  rw [nodes, rows_item h]
  rfl

theorem blockRest_spec (n : Nat) (w : List Units) : ∃ g r, w = blockRest n w ++ (g ++ r) ∧
    (∀ x ∈ g, isEmpty x = true) ∧ (∀ x ∈ r.head?, ∃ m, itemRe x = some m ∧ columns m.indentText ≤ n) ∧
    ∀ c ∈ heads (blockRest n w), n < c := by
  refine ⟨(w.takeWhile (inside n)).rtakeWhile isEmpty, w.dropWhile (inside n), ?_, ?_, ?_, ?_⟩
  · rw [blockRest, ← List.append_assoc, List.rdropWhile_append_rtakeWhile, List.takeWhile_append_dropWhile]
  · exact fun x hx => List.mem_rtakeWhile_imp hx
  · intro x hx
    have hnot : inside n x = false := by
      cases hdrop : w.dropWhile (inside n) with
      | nil =>
        rw [hdrop] at hx
        cases hx
      | cons y rest =>
        have hhead := List.head_dropWhile_not (inside n) (l := w) (by simp [hdrop])
        rw [hdrop, List.head?_cons, Option.mem_some_iff] at hx
        simpa [hdrop, ← hx] using hhead
    unfold inside at hnot
    cases hre : itemRe x with
    | none =>
      rw [hre] at hnot
      cases hnot
    | some m =>
      rw [hre] at hnot
      exact ⟨m, rfl, by simpa using hnot⟩
  · refine all_inside.mp (List.all_eq_true.mpr fun x hx => ?_)
    have hmem := (List.rdropWhile_prefix isEmpty (l := w.takeWhile (inside n))).subset hx
    exact List.mem_takeWhile_imp hmem

end Savoire.Outlines
