import Savoire.Outline.Siblings
import Savoire.Text

/-! Lines that change in their indentation only, and outlines read again from changed lines. -/
namespace Savoire.Outlines
open NearestSmaller

variable {texts lines u w a b c : List Units} {t t' : Units} {m : ItemMatch} {f : Units → Units} {g : Units → Units}
  {names : List Nat} {n k : Nat}

theorem parseOutline_eq (text : Units) : parseOutline text = parseLines (text.splitOn 10) := by
  have hset : ∀ o : Outline, o.text = text → { o with text := text } = o := by
    rintro o rfl
    rfl
  exact hset _ (List.intercalate_splitOn 10)

theorem parseOutline_joinLines (h : ∀ l ∈ lines, 10 ∉ l) (hne : lines ≠ []) :
    parseOutline (joinLines lines) = parseLines lines := by
  rw [parseOutline_eq, joinLines, List.splitOn_intercalate 10 h hne]

theorem texts_parseLines (texts : List Units) : (parseLines texts).texts = texts := by
  refine List.ext_getElem? fun i => ?_
  rw [Outline.texts, (parsed_parseLines texts).lines, List.getElem?_map]
  exact text_outlineLines 0 texts i

theorem slice_append (a c d : List Units) {i j : Nat} (hi : i = a.length) (hj : j = a.length + c.length) :
    slice (a ++ (c ++ d)) i j = c := by
  subst hi hj
  rw [slice, ← List.append_assoc, List.take_left' (by simp), List.drop_left]

theorem indentText_itemRe (h : itemRe t = some m) : m.indentText = t.takeWhile isBlank := by
  unfold itemRe at h
  split at h
  · cases h
  · split at h
    · split at h
      · rw [← Option.some.inj h]
      · rw [← Option.some.inj h]
      · cases h
    · cases h

theorem columns_cons (x : Nat) (ws : Units) : columns (x :: ws) = (if x = 9 then indentUnit else 1) + columns ws := by
  have hadd : ∀ (l : Units) (k : Nat), l.foldl (fun n c => n + if c = 9 then indentUnit else 1) k = k + columns l := by
    intro l
    induction l with
    | nil => exact fun _ => rfl
    | cons y l ih =>
      intro k
      rw [columns, List.foldl_cons, List.foldl_cons, ih, ih, Nat.zero_add, Nat.add_assoc]
  rw [columns, List.foldl_cons, hadd, Nat.zero_add]

theorem isSome_itemRe (h : t.dropWhile isBlank = t'.dropWhile isBlank) : (itemRe t).isSome = (itemRe t').isSome := by
  unfold itemRe
  rw [h]
  split
  · rfl
  · split
    · split <;> rfl
    · rfl

theorem isEmpty_eq (t : Units) : isEmpty t = isEmpty (t.dropWhile isBlank) := by
  conv_lhs => rw [← List.takeWhile_append_dropWhile (p := isBlank) (l := t), isEmpty, List.all_append]
  have hblank : (t.takeWhile isBlank).all isSpace = true := by
    refine List.all_eq_true.mpr fun c hc => ?_
    have hc := List.mem_takeWhile_imp hc
    simp only [isBlank, Bool.or_eq_true, beq_iff_eq] at hc
    obtain rfl | rfl := hc <;> rfl
  rw [hblank, Bool.true_and]
  rfl

/-- Lines are changed in their indentation only, that of items as `g` says. -/
structure Reindents (f g : Units → Units) : Prop where
  rest : ∀ t, (f t).dropWhile isBlank = t.dropWhile isBlank
  indent : ∀ t, isEmpty t = false → (f t).takeWhile isBlank = g (t.takeWhile isBlank)

theorem Reindents.isEmpty_eq (h : Reindents f g) (t : Units) : isEmpty (f t) = isEmpty t := by
  rw [Outlines.isEmpty_eq, h.rest, ← Outlines.isEmpty_eq]

theorem Reindents.full (h : Reindents f g) (hb : b.rdropWhile isEmpty = b) :
    (b.map f).rdropWhile isEmpty = b.map f := by
  have hcomp : isEmpty ∘ f = isEmpty := funext h.isEmpty_eq
  conv_rhs => rw [← hb]
  rw [List.rdropWhile, List.rdropWhile, ← List.map_reverse, List.dropWhile_map, hcomp, List.map_reverse]

theorem Reindents.content (h : Reindents f g) (t : Units) (w : List Units) :
    Outlines.content (f t) (w.map f) = Outlines.content t w := by
  have hitem : (fun x => (itemRe x).isNone) ∘ f = fun x => (itemRe x).isNone := by
    funext x
    rw [Function.comp, ← Option.not_isSome, ← Option.not_isSome, isSome_itemRe (h.rest x)]
  have hrest : ((fun x : Units => x.dropWhile isBlank) ∘ f) = fun x => x.dropWhile isBlank := funext h.rest
  rw [Outlines.content, Outlines.content, h.rest, List.takeWhile_map, hitem, List.map_map, hrest]

theorem Reindents.bodies (h : Reindents f g) (u : List Units) :
    Outlines.bodies (u.map f) = (Outlines.bodies u).map fun r => (g r.1, r.2) := by
  induction u with
  | nil => rfl
  | cons t u ih =>
    rw [List.map_cons, Outlines.bodies, Outlines.bodies]
    have hsome := isSome_itemRe (h.rest t)
    cases ht : itemRe t with
    | none =>
      rw [ht, Option.isSome_none, Option.isSome_eq_false_iff, Option.isNone_iff_eq_none] at hsome
      rw [hsome]
      exact ih
    | some m =>
      rw [ht, Option.isSome_some] at hsome
      obtain ⟨m', hm'⟩ := Option.isSome_iff_exists.mp hsome
      have hne : isEmpty t = false := by
        by_contra he
        rw [itemRe_isEmpty (by simpa using he)] at ht
        cases ht
      rw [hm']
      simp only
      rw [ih, h.content, List.map_cons, indentText_itemRe hm', indentText_itemRe ht, h.indent t hne]

theorem Reindents.nodes (h : Reindents f g) (names : List Nat) (u : List Units) : Outlines.nodes names (u.map f) =
    List.zipWith (fun name r => ⟨name, columns (g r.1), r.2⟩) names (Outlines.bodies u) := by
  rw [Outlines.nodes, rows, h.bodies, List.map_map, List.zipWith_map_right]
  rfl

theorem nodes_eq (names : List Nat) (u : List Units) :
    nodes names u = List.zipWith (fun name r => ⟨name, columns r.1, r.2⟩) names (bodies u) := by
  rw [nodes, rows, List.zipWith_map_right]

theorem length_bodies (u : List Units) : (bodies u).length = (heads u).length := by
  rw [← length_rows, rows, List.length_map]

end Savoire.Outlines
