import Savoire.Outline.Subtrees

/-! The tree of an outline over the numbers of its items, and outlines whose items come in another order. -/
namespace Savoire.Outlines
open NearestSmaller

def Outline.contentAt (o : Outline) (k : Nat) : List Units := (o.items[k]?.map o.content).getD []

def Outline.indentTextAt (o : Outline) (k : Nat) : Units := (o.items[k]?.map OutlineItem.indentText).getD []

variable {texts a b g r w : List Units} {t : Units} {m : ItemMatch} {o : Outline} {it : OutlineItem}
  {order : List Nat} {v : Nat → Nat} {c : Nat → List Units} {n j k : Nat}

theorem tree_of_rows (h : rows texts = order.map fun k => (v k, c k)) :
    (parseLines texts).tree order = (parents v [] order).map fun e => ⟨e.1, e.2, c e.1⟩ := by
  have hlen : order.length = (heads texts).length := by rw [← length_rows, h, List.length_map]
  have hnodes : nodes order texts = order.map fun k => ⟨k, v k, c k⟩ := by
    rw [nodes, h, List.zipWith_map_right, List.zipWith_self]
  have hparents := @parents_map _ v _ Node.indent (fun k => Node.mk k (v k) (c k)) (fun _ _ => Iff.rfl) [] order
  rw [tree_parseLines hlen, hnodes]
  rw [List.map_nil] at hparents
  rw [hparents, List.map_map]
  refine List.map_congr_left fun e _ => ?_
  obtain ⟨k, _ | q⟩ := e <;> rfl

theorem bodies_eq_names (texts : List Units) : bodies texts = (parseLines texts).names.map fun k =>
    ((parseLines texts).indentTextAt k, (parseLines texts).contentAt k) := by
  have h := parsed_parseLines texts
  refine List.ext_getElem? fun k => ?_
  rw [List.getElem?_map, Outline.names]
  by_cases hk : k < (parseLines texts).items.length
  · have hit := List.getElem?_eq_getElem hk
    generalize (parseLines texts).items[k] = it at hit
    obtain ⟨a, t, m, w, hf, rfl⟩ := h.found hit
    have hcontent : (parseLines texts).content it = content t w := by
      have htexts := texts_parseLines texts
      rw [Outline.texts] at htexts
      rw [Outline.content, htexts, hf.isItem.line, hf.texts, List.drop_left]
    rw [List.getElem?_range hk, Option.map_some, Outline.indentTextAt, Outline.contentAt, hit, Option.map_some,
      Option.map_some, Option.getD_some, Option.getD_some, hf.isItem.indentText, hcontent]
    conv_lhs => rw [hf.texts]
    exact getElem?_bodies hf.re a w
  · rw [h.count] at hk
    rw [List.getElem?_eq_none (by rw [length_bodies]; omega), List.getElem?_eq_none (by simpa [h.count] using hk)]
    rfl

theorem indentOf_eq (texts : List Units) (k : Nat) :
    indentOf (parseLines texts).items k = columns ((parseLines texts).indentTextAt k) := by
  rw [indentOf, Outline.indentTextAt]
  cases hit : (parseLines texts).items[k]? with
  | none => rfl
  | some it =>
    obtain ⟨a, t, m, w, hf, -⟩ := (parsed_parseLines texts).found hit
    rw [Option.map_some, Option.map_some, Option.getD_some, Option.getD_some, hf.isItem.indent, hf.isItem.indentText]

theorem blank_indentTextAt (texts : List Units) (k : Nat) :
    ∀ c ∈ (parseLines texts).indentTextAt k, isBlank c = true := by
  intro c hc
  rw [Outline.indentTextAt] at hc
  cases hit : (parseLines texts).items[k]? with
  | none =>
    rw [hit] at hc
    cases hc
  | some it =>
    obtain ⟨a, t, m, w, hf, -⟩ := (parsed_parseLines texts).found hit
    rw [hit, Option.map_some, Option.getD_some, hf.isItem.indentText, indentText_itemRe hf.re] at hc
    exact List.mem_takeWhile_imp hc

theorem rows_eq_names (texts : List Units) : rows texts = (parseLines texts).names.map fun k =>
    (indentOf (parseLines texts).items k, (parseLines texts).contentAt k) := by
  rw [rows, bodies_eq_names, List.map_map]
  refine List.map_congr_left fun k _ => ?_
  rw [Function.comp, indentOf_eq]

theorem length_names (texts : List Units) : (parseLines texts).names.length = (heads texts).length := by
  rw [(parsed_parseLines texts).names_eq, List.length_range]

theorem parents_names (texts : List Units) : parents (indentOf (parseLines texts).items) [] (parseLines texts).names =
    (parseLines texts).names.map fun k => (k, parentOf (parseLines texts).items k) := by
  have h := parsed_parseLines texts
  have htree := tree_of_rows (rows_eq_names texts)
  refine List.ext_getElem? fun k => ?_
  rw [List.getElem?_map]
  by_cases hk : k < (heads texts).length
  · have hname : (parseLines texts).names[k]? = some k := by
      rw [h.names_eq]
      exact List.getElem?_range hk
    have hentry := h.tree_eq (List.getElem?_eq_getElem (h.count ▸ hk : k < (parseLines texts).items.length))
    rw [htree, List.getElem?_map] at hentry
    obtain ⟨e, he, heq⟩ := Option.map_eq_some_iff.mp hentry
    rw [he, hname, Option.map_some, parentOf_eq (List.getElem?_eq_getElem (h.count ▸ hk))]
    obtain ⟨hk', hp, -⟩ := Entry.mk.inj heq
    exact congrArg some (Prod.ext hk' hp)
  · have hle : (parseLines texts).names.length ≤ k := by
      rw [length_names]
      omega
    rw [List.getElem?_eq_none_iff.mpr hle, List.getElem?_eq_none_iff.mpr (by rwa [length_parents])]
    rfl

theorem lt_indentOf {l : List Nat} {u : List Units} {d : Nat} {items : List OutlineItem} (h : ∀ c ∈ heads u, d < c)
    (hu : heads u = l.map (indentOf items)) (z : Nat) (hz : z ∈ l) : d < indentOf items z := by
  refine h _ ?_
  rw [hu]
  exact List.mem_map_of_mem hz

theorem entries_eq (h : ∀ k ∈ order, k < (parseLines texts).items.length) : (parseLines texts).entries order =
    order.map fun k => ⟨k, parentOf (parseLines texts).items k, (parseLines texts).contentAt k⟩ := by
  rw [Outline.entries, ← List.filterMap_eq_map]
  refine List.filterMap_congr fun k hk => ?_
  have hit := List.getElem?_eq_getElem (h k hk)
  rw [(parsed_parseLines texts).tree_eq hit, Function.comp, parentOf_eq hit, Outline.contentAt, hit]
  rfl

theorem entry_map_inj {l l' : List (Nat × Option Nat)} (h : l.map (fun e => Entry.mk e.1 e.2 (c e.1)) =
    l'.map fun e => Entry.mk e.1 e.2 (c e.1)) : l = l' := by
  refine List.map_injective_iff.mpr (fun e e' he => ?_) h
  obtain ⟨h1, h2, -⟩ := Entry.mk.inj he
  exact Prod.ext h1 h2

end Savoire.Outlines
