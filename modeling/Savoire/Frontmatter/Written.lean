import Savoire.Frontmatter.Readings

/-! An entry as it is written is read back: its key, its value, and nothing else. -/
namespace Savoire.Frontmatter
open VaultIndex

variable {t : Text}

theorem afterMark?_some {v : Text} (h : afterMark? t = some (some v)) : ∀ c ∈ v, isTerminator c = false := by
  unfold afterMark? at h
  split at h
  · cases h
  · simp only at h
    split at h
    · rename_i hall
      obtain rfl := Option.some.inj (Option.some.inj h)
      intro c hc
      have hc' := List.all_eq_true.mp (Bool.and_eq_true_iff.mp hall).2 c hc
      simpa using hc'
    · cases h

theorem afterMark?_space {v : Text} (hhead : ∀ c, v.head? = some c → isJsSpace c = false)
    (hline : ∀ c ∈ v, isTerminator c = false) : afterMark? (' ' :: v) = some (some v) := by
  have hdrop : (' ' :: v).dropWhile isJsSpace = v := by
    rw [List.dropWhile_cons, if_pos (by decide)]
    cases v with
    | nil => rfl
    | cons c v => rw [List.dropWhile_cons, if_neg (by simp [hhead c rfl])]
  have hall : (v.all fun c => !isTerminator c) = true := List.all_eq_true.mpr fun c hc => by simp [hline c hc]
  have hspace : isJsSpace ' ' = true := by decide
  simp only [afterMark?, hdrop, hall, hspace, Bool.and_self, if_true]

theorem afterMark?_none (h : afterMark? t = none) (more : Text) : afterMark? (t ++ more) = none := by
  cases t with
  | nil => cases h
  | cons c t =>
    simp only [afterMark?] at h
    split at h
    · cases h
    · rename_i hnot
      simp only [List.cons_append, afterMark?]
      rw [if_neg]
      intro hall
      obtain ⟨hspace, hlines⟩ := Bool.and_eq_true_iff.mp hall
      refine hnot ?_
      rw [hspace, Bool.true_and, List.all_eq_true]
      intro d hd
      have hne : (c :: t).dropWhile isJsSpace ≠ [] := by
        intro hnil
        rw [hnil] at hd
        cases hd
      refine List.all_eq_true.mp hlines d ?_
      rw [← List.cons_append, List.dropWhile_append, if_neg (by simpa using hne)]
      exact List.mem_append_left _ hd

variable {u : Text} {c : Char}

theorem takeWhile_append_mark {p : Char → Bool} (hu : ∀ d ∈ u, p d = true) (hc : p c = false)
    (more : Text) : (u ++ c :: more).takeWhile p = u ∧ (u ++ c :: more).dropWhile p = c :: more := by
  constructor
  · rw [List.takeWhile_append_of_pos hu, List.takeWhile_cons, if_neg (by simp [hc]), List.append_nil]
  · rw [List.dropWhile_append_of_pos hu, List.dropWhile_cons, if_neg (by simp [hc])]

theorem bareKey?_colon (hu : ':' ∉ u) (t : Text) : bareKey? (c :: (u ++ ':' :: t)) =
    if isJsSpace c || c == ':' || c == '#' || c == '-' then none
    else (afterMark? t).map fun v => (c :: u, v) := by
  obtain ⟨htake, hdrop⟩ := takeWhile_append_mark (p := (· ≠ ':')) (u := u) (c := ':')
    (fun d hd => decide_eq_true fun heq => hu (heq ▸ hd)) (by simp) t
  simp only [bareKey?, htake, hdrop]

theorem quotedKey?_quote {q : Char} (hu : q ∉ u) (hne : u ≠ []) (t : Text) :
    quotedKey? q (q :: (u ++ q :: ':' :: t)) = (afterMark? t).map fun v => (q :: (u ++ [q]), v) := by
  obtain ⟨htake, hdrop⟩ := takeWhile_append_mark (p := (· ≠ q)) (u := u) (c := q)
    (fun d hd => decide_eq_true fun heq => hu (heq ▸ hd)) (by simp) (':' :: t)
  simp only [quotedKey?, htake, hdrop]
  rw [if_pos ⟨trivial, hne⟩]

variable {token : Text}

theorem bareKey?_none (hne : token ≠ []) (h : bareKey? (token ++ [':']) = none) (t : Text) :
    bareKey? (token ++ ':' :: t) = none := by
  obtain ⟨c, token, rfl⟩ := List.exists_cons_of_ne_nil hne
  obtain ⟨u, rest, hsplit, hu⟩ := List.eq_append_cons_of_mem (by simp : ':' ∈ token ++ [':'])
  have hmore : c :: token ++ ':' :: t = c :: (u ++ ':' :: (rest ++ t)) := by
    rw [← @List.cons_append Char ':' rest t, ← List.append_assoc, ← hsplit]
    simp
  have hone : c :: token ++ [':'] = c :: (u ++ ':' :: rest) := by rw [List.cons_append, hsplit]
  rw [hone, bareKey?_colon hu] at h
  rw [hmore, bareKey?_colon hu]
  split
  · rfl
  · rename_i hmark
    rw [if_neg hmark] at h
    rw [afterMark?_none (Option.map_eq_none_iff.mp h) t]
    rfl

theorem quotedKey?_of_ne {q : Char} (h : c ≠ q) (t : Text) : quotedKey? q (c :: t) = none := by
  simp [quotedKey?, h]

theorem keyLine_token (h : keyLine (token ++ [':']) = some (token, none)) {inline : Option Text}
    (ht : afterMark? t = some inline) : keyLine (token ++ ':' :: t) = some (token, inline) := by
  have hne : token ≠ [] := by
    rintro rfl
    cases h
  unfold keyLine at h ⊢
  obtain h | ⟨hbare, h⟩ := Option.or_eq_some_iff.1 h
  · obtain ⟨c, rest, t', -, rfl, hcolon, hspace, hc, hhash, hdash, -⟩ := bareKey?_some h
    rw [List.cons_append, bareKey?_colon hcolon, if_neg (by simp [hspace, hc, hhash, hdash]), ht]
    rfl
  · rw [bareKey?_none hne hbare t]
    obtain h | ⟨hdouble, h⟩ := Option.or_eq_some_iff.1 h
    · obtain ⟨inner, t', -, rfl, hq, hinner, -⟩ := quotedKey?_some h
      have hline : '"' :: (inner ++ ['"']) ++ ':' :: t = '"' :: (inner ++ '"' :: ':' :: t) := by simp
      rw [hline, quotedKey?_quote hq hinner, ht]
      rfl
    · obtain ⟨inner, t', -, rfl, hq, hinner, -⟩ := quotedKey?_some h
      have hline : '\'' :: (inner ++ ['\'']) ++ ':' :: t = '\'' :: (inner ++ '\'' :: ':' :: t) := by simp
      rw [hline, quotedKey?_of_ne (by decide), quotedKey?_quote hq hinner, ht]
      rfl

variable {ν : Type} {numbers : Numbers ν} [DecidableEq ν]

variable (numbers) in
/-- A value that can be written there: in place of the entry `previous`, or new. -/
def Writable (previous : Option Entry) (key : Text) : FrontmatterValue ν → Prop
  | .scalar (.text s) => OneLine s ∧ (needsQuotes numbers s false = true → commentOf previous = [])
  | .scalar (.number n) => numbers.isFinite n = true
  | .scalar (.bool _) => True
  | .scalar .null => commentOf previous = []
  | .list [] => True
  | .list items => (∀ s ∈ items, ReadsBack numbers s) ∧
    if wasInline previous then Apart (items.map (formatListItem numbers · true))
    else key ≠ [] ∧ (startAfter false (itemPrefixOf previous) = true → ∀ s ∈ items, isFence s = false)

variable (numbers) in
/-- What stands after the colon, and the lines below. -/
def writtenParts (previous : Option Entry) : FrontmatterValue ν → Text × List Text
  | .list [] => (" []".toList, [])
  | .list items =>
    if wasInline previous then
      (" [".toList ++ ", ".toList.intercalate (items.map (formatListItem numbers · true)) ++ [']'], [])
    else ([], items.map fun v => itemPrefixOf previous ++ formatListItem numbers v false)
  | .scalar v =>
    let scalar := formatYamlScalar numbers v
    ((if scalar = [] then [] else ' ' :: scalar) ++ commentOf previous, [])

theorem formatEntry_eq (token : Text) (value : FrontmatterValue ν) (eol : Text) (previous : Option Entry) :
    formatEntry numbers token value eol previous = eol.intercalate
      ((token ++ ':' :: (writtenParts numbers previous value).1) :: (writtenParts numbers previous value).2) := by
  cases value with
  | list items =>
    cases items with
    | nil => simp [formatEntry, writtenParts]
    | cons item items =>
      simp only [formatEntry, writtenParts]
      split
      · simp
      · rfl
  | scalar v =>
    simp only [formatEntry, writtenParts, List.intercalate_singleton]
    split <;> simp

theorem searchComment_some {s : Text} {i : Nat} (h : searchComment s = some i) :
    ∃ c rest, s.drop i = c :: '#' :: rest ∧ isJsSpace c = true := by
  induction s generalizing i with
  | nil => cases h
  | cons c s ih =>
    unfold searchComment at h
    split at h
    · rename_i hhere
      obtain rfl := Option.some.inj h
      obtain ⟨hspace, hhash⟩ := Bool.and_eq_true_iff.mp hhere
      cases s with
      | nil => cases hhash
      | cons d s =>
        obtain rfl : d = '#' := by simpa using hhash
        exact ⟨c, s, rfl, hspace⟩
    · obtain ⟨j, hj, rfl⟩ := Option.map_eq_some_iff.1 h
      exact ih hj

theorem isComment_trailing {inline : Text} (h : ∀ c ∈ inline, isTerminator c = false) :
    IsComment (trailingComment inline) := by
  unfold trailingComment
  split
  · exact ⟨.inl rfl, by simp⟩
  · split
    · exact ⟨.inl rfl, by simp⟩
    · rename_i i hi
      obtain ⟨c, rest, hdrop, hspace⟩ := searchComment_some hi
      obtain ⟨more, hmore⟩ : ∃ more, jsTrim (inline.drop i) = '#' :: more := by
        have htrim : jsTrim (inline.drop i) = ('#' :: rest).rdropWhile isJsSpace := by
          rw [jsTrim, hdrop, List.dropWhile_cons, if_pos hspace, List.dropWhile_cons, if_neg (by decide)]
        obtain ⟨tail, htail⟩ := List.rdropWhile_prefix isJsSpace ('#' :: rest)
        rw [htrim]
        cases hcut : ('#' :: rest).rdropWhile isJsSpace with
        | nil =>
          have hall := List.rdropWhile_eq_nil_iff.mp hcut '#' List.mem_cons_self
          exact absurd hall (by decide)
        | cons d more =>
          rw [hcut] at htail
          exact ⟨more, by rw [(List.cons.inj htail).1]⟩
      have hagain := jsTrim_jsTrim (inline.drop i)
      rw [hmore] at hagain
      refine ⟨.inr ⟨more, by rw [hmore], hagain⟩, ?_⟩
      intro d hd
      obtain rfl | hd := List.mem_cons.1 hd
      · decide
      · exact h d (List.mem_of_mem_drop (mem_of_mem_jsTrim hd))

/-- An entry that the scanner found, or none. -/
def IsPrevious (previous : Option Entry) : Prop := ∀ e, previous = some e →
  (∀ c ∈ e.inline, isTerminator c = false) ∧ ∀ mark, e.itemPrefix = some mark → IsItemMark mark ∧ '\n' ∉ mark

theorem isPrevious_none : IsPrevious none := by
  rintro e ⟨⟩

variable {previous : Option Entry}

theorem IsPrevious.comment (h : IsPrevious previous) : IsComment (commentOf previous) := by
  cases previous with
  | none => exact ⟨.inl rfl, by simp [commentOf]⟩
  | some e =>
    unfold commentOf
    simp only
    split
    · exact isComment_trailing (h e rfl).1
    · exact ⟨.inl rfl, by simp⟩

theorem IsPrevious.mark (h : IsPrevious previous) :
    IsItemMark (itemPrefixOf previous) ∧ '\n' ∉ itemPrefixOf previous := by
  have hdefault : IsItemMark "  - ".toList ∧ '\n' ∉ "  - ".toList :=
    ⟨⟨"  ".toList, " ".toList, rfl, forall_mem_of_all (by decide), forall_mem_of_all (by decide), by decide⟩, by decide⟩
  cases previous with
  | none => exact hdefault
  | some e =>
    cases hmark : e.itemPrefix with
    | none => simpa [itemPrefixOf, hmark] using hdefault
    | some mark => simpa [itemPrefixOf, hmark] using (h e rfl).2 mark hmark

theorem isPlain_bool (b : Bool) : IsPlain (if b then "true".toList else "false".toList) := by
  cases b with
  | true => exact ⟨by decide, by decide, by simp, by decide, forall_mem_of_all (by decide)⟩
  | false => exact ⟨by decide, by decide, by simp, by decide, forall_mem_of_all (by decide)⟩

omit [DecidableEq ν] in
theorem parseScalar_bool (b : Bool) :
    parseScalar numbers (if b then "true".toList else "false".toList) = .bool b := by
  cases b <;> rfl

theorem mem_of_mem_intercalate {sep : Text} {ls : List Text} (h : c ∈ sep.intercalate ls) :
    c ∈ sep ∨ ∃ l ∈ ls, c ∈ l := by
  induction ls with
  | nil => simp at h
  | cons l ls ih =>
    by_cases hls : ls = []
    · subst hls
      rw [List.intercalate_singleton] at h
      exact .inr ⟨l, List.mem_cons_self, h⟩
    · rw [List.intercalate_cons_of_ne_nil hls, List.mem_append, List.mem_append] at h
      obtain (h | h) | h := h
      · exact .inr ⟨l, List.mem_cons_self, h⟩
      · exact .inl h
      · obtain h | ⟨l', hl', h⟩ := ih h
        · exact .inl h
        · exact .inr ⟨l', List.mem_cons_of_mem l hl', h⟩

variable {key : Text}

/-- What is written stands on the line of the key, or is nothing there, or is a list below. -/
theorem written_cases (hprevious : IsPrevious previous)
    {value : FrontmatterValue ν} (hlaw : Lawful numbers) (h : Writable numbers previous key value) :
    (∃ v, writtenParts numbers previous value = (' ' :: v, []) ∧ jsTrim v = v ∧ v ≠ [] ∧
      (∀ c ∈ v, isTerminator c = false) ∧ readValue numbers v = some value) ∨
    (writtenParts numbers previous value = ([], []) ∧ value = .scalar .null) ∨
    ∃ items, value = .list items ∧ items ≠ [] ∧ key ≠ [] ∧ (∀ s ∈ items, ReadsBack numbers s) ∧
      writtenParts numbers previous value =
        ([], items.map fun v => itemPrefixOf previous ++ formatListItem numbers v false) ∧
      (startAfter false (itemPrefixOf previous) = true → ∀ s ∈ items, isFence s = false) := by
  have hcomment := hprevious.comment
  have hplain : ∀ v : Scalar ν, ∀ s, formatYamlScalar numbers v = s → IsPlain s → parseScalar numbers s = v →
      ∃ w, writtenParts numbers previous (.scalar v) = (' ' :: w, []) ∧ jsTrim w = w ∧ w ≠ [] ∧
        (∀ c ∈ w, isTerminator c = false) ∧ readValue numbers w = some (.scalar v) := by
    rintro v s hs hplain hparse
    refine ⟨s ++ commentOf previous, ?_, jsTrim_plain hplain hcomment, by simp [hplain.nonempty], ?_, ?_⟩
    · simp [writtenParts, hs, hplain.nonempty]
    · intro c hc
      obtain hc | hc := List.mem_append.1 hc
      · exact hplain.oneLine c hc
      · exact hcomment.2 c hc
    · rw [readValue_plain hplain hcomment, hparse]
  cases value with
  | scalar v =>
    cases v with
    | text s =>
      obtain ⟨hline, hquotes⟩ := h
      left
      cases hneeds : needsQuotes numbers s false with
      | true =>
        refine ⟨quote s, ?_, jsTrim_quote s, by simp [quote], not_terminator_quote hline, readValue_quote s⟩
        simp [writtenParts, formatYamlScalar, hneeds, hquotes hneeds, quote]
      | false =>
        refine hplain _ s (by simp [formatYamlScalar, hneeds]) (isPlain_of_needsQuotes hneeds hline) ?_
        simp only [needsQuotes, Bool.or_eq_false_iff] at hneeds
        simpa using hneeds.2
    | number n =>
      obtain ⟨hnumeric, hread⟩ := hlaw n h
      have hfinite : numbers.isFinite n = true := h
      left
      refine hplain _ (numbers.print n) (by simp [formatYamlScalar, hfinite]) (isPlain_of_isNumeric hnumeric) ?_
      rw [parseScalar_number hnumeric, hread]
    | bool b =>
      left
      exact hplain _ _ rfl (isPlain_bool b) (parseScalar_bool b)
    | null =>
      have hnone : commentOf previous = [] := h
      right
      left
      exact ⟨by simp [writtenParts, formatYamlScalar, hnone], rfl⟩
  | list items =>
    cases items with
    | nil => exact .inl ⟨"[]".toList, rfl, by decide, by decide, forall_mem_of_all (by decide), rfl⟩
    | cons item items =>
      obtain ⟨hitems, hstyle⟩ := h
      split at hstyle
      · rename_i hinline
        left
        refine ⟨'[' :: (", ".toList.intercalate ((item :: items).map (formatListItem numbers · true)) ++ [']']), ?_, ?_,
          by simp, ?_, readValue_inline (by simp) hitems hstyle⟩
        · simp only [writtenParts, hinline, if_true]
          rfl
        · refine jsTrim_eq ?_ ?_
          · intro c hc
            obtain rfl : '[' = c := by simpa using hc
            decide
          · intro c hc
            rw [← List.cons_append, List.getLast?_concat] at hc
            obtain rfl := Option.some.inj hc
            decide
        · intro c hc
          obtain rfl | hc := List.mem_cons.1 hc
          · decide
          · obtain hc | hc := List.mem_append.1 hc
            · obtain hc | ⟨w, hw, hc⟩ := mem_of_mem_intercalate hc
              · have hsep : ∀ d ∈ ", ".toList, isTerminator d = false := forall_mem_of_all (by decide)
                exact hsep c hc
              · obtain ⟨s, hs, rfl⟩ := List.mem_map.1 hw
                exact (formatListItem_trimmed (hitems s hs) true).2.2 c hc
            · obtain rfl := List.mem_singleton.1 hc
              decide
      · rename_i hinline
        right
        right
        refine ⟨item :: items, rfl, by simp, hstyle.1, hitems, ?_, hstyle.2⟩
        simp only [writtenParts, hinline, if_false, Bool.false_eq_true]

section
omit [DecidableEq ν]

variable {line : Text}

theorem readLine_written {inline : Option Text} {v : FrontmatterValue ν}
    (hline : keyLine line = some (token, inline)) (hkey : parseKey token = key)
    (hvalue : readValue numbers (jsTrim (inline.getD [])) = some v) (r : Reading ν) :
    readLine numbers r line =
      ⟨assign r.props key v, if jsTrim (inline.getD []) = [] then some key else none⟩ := by
  rw [readLine_keyLine hline, readKeyLine, hline]
  simp only [hkey, hvalue]

theorem isSkipped_of_dropWhile {rest : Text} (h : line.dropWhile isJsSpace = c :: rest)
    (hhash : c ≠ '#') : isSkipped line = false := by
  have hspace : isJsSpace c = false := by
    have hhead := List.head?_dropWhile_not isJsSpace line
    rw [h] at hhead
    simpa using hhead
  have htrim : jsTrim line ≠ [] := by
    intro hnil
    rw [jsTrim, h] at hnil
    have hall := List.rdropWhile_eq_nil_iff.mp hnil c List.mem_cons_self
    rw [hspace] at hall
    cases hall
  simp [isSkipped, htrim, h, hhash]

structure IsItemLine (line item : Text) : Prop where
  skipped : isSkipped line = false
  item : item? line = some item
  noKey : keyLine line = none

theorem isItemLine {mark item : Text} (hmark : IsItemMark mark) (htrim : jsTrim item = item)
    (hline : ∀ c ∈ item, isTerminator c = false) : IsItemLine (mark ++ item) item := by
  obtain ⟨u, v, rfl, hu, hv, hne⟩ := hmark
  have hdrop : (u ++ '-' :: v ++ item).dropWhile isJsSpace = '-' :: (v ++ item) := by
    rw [List.append_assoc, List.cons_append]
    exact (takeWhile_append_mark hu (by decide) _).2
  have hrest : (v ++ item).dropWhile isJsSpace = item := by
    rw [List.dropWhile_append_of_pos hv]
    cases item with
    | nil => rfl
    | cons c item => rw [List.dropWhile_cons, if_neg (by simp [head_of_jsTrim_eq htrim rfl])]
  refine ⟨isSkipped_of_dropWhile hdrop (by decide), ?_, ?_⟩
  · obtain ⟨c, v, rfl⟩ := List.exists_cons_of_ne_nil hne
    have hspace : isJsSpace c = true := hv c List.mem_cons_self
    have hall : (item.all fun c => !isTerminator c) = true := List.all_eq_true.mpr fun c hc => by simp [hline c hc]
    unfold item?
    rw [hdrop]
    simp only [List.cons_append, afterMark?]
    rw [← List.cons_append, hrest]
    simp [hspace, hall]
  · cases hkey : keyLine (u ++ '-' :: v ++ item) with
    | none => rfl
    | some kv =>
      obtain ⟨c, rest, heq, hspace, -, hdash⟩ := keyLine_head hkey
      cases u with
      | nil => exact absurd (List.cons.inj heq).1.symm hdash
      | cons d u =>
        have hd := hu d List.mem_cons_self
        rw [(List.cons.inj heq).1, hspace] at hd
        cases hd

theorem readLine_item {item : Text} (h : IsItemLine line item) {r : Reading ν} (hlist : r.listKey = some key)
    (hkey : key ≠ []) : readLine numbers r line = { r with props := addItem numbers r.props key item } := by
  have hfilter : r.listKey.filter (· ≠ []) = some key := by
    rw [hlist, Option.filter_some, if_pos (decide_eq_true hkey)]
  rw [readLine, if_neg (by simp [h.skipped]), hfilter, h.item]

/-- The items so far, null standing for none. -/
def itemsOf : Option (FrontmatterValue ν) → List Text
  | some (.list items) => items
  | _ => []

theorem foldl_items (hkey : key ≠ []) (hproto : key ≠ "__proto__".toList) {mark : Text}
    (hmark : IsItemMark mark) {items : List Text} {write : Text → Text}
    (hwrite : ∀ s ∈ items, jsTrim (write s) = write s ∧ (∀ c ∈ write s, isTerminator c = false) ∧
      listItem numbers (write s) = some s) (hne : items ≠ []) {r : Reading ν} (hlist : r.listKey = some key) :
    ((items.map fun s => mark ++ write s).foldl (readLine numbers) r).props.get key =
      some (.list (itemsOf (r.props.get key) ++ items)) := by
  induction items generalizing r with
  | nil => exact absurd rfl hne
  | cons s items ih =>
    obtain ⟨htrim, hterm, hread⟩ := hwrite s List.mem_cons_self
    have hget : (addItem numbers r.props key (write s)).get key = some (.list (itemsOf (r.props.get key) ++ [s])) := by
      rw [addItem, get_assign, if_pos ⟨rfl, hproto⟩, hread]
      cases hold : r.props.get key with
      | none => rfl
      | some value => cases value <;> rfl
    rw [List.map_cons, List.foldl_cons, readLine_item (isItemLine hmark htrim hterm) hlist hkey]
    by_cases hlast : items = []
    · subst hlast
      exact hget
    · have hrest := ih (r := ⟨addItem numbers r.props key (write s), r.listKey⟩)
        (fun x hx => hwrite x (List.mem_cons_of_mem s hx)) hlast hlist
      rw [hget] at hrest
      simpa [itemsOf] using hrest

end

theorem read_written (hprevious : IsPrevious previous)
    {value : FrontmatterValue ν} (hlaw : Lawful numbers) (hwrite : Writable numbers previous key value)
    (htoken : keyLine (token ++ [':']) = some (token, none)) (hkey : parseKey token = key)
    (hproto : key ≠ "__proto__".toList) (r : Reading ν) :
    (((token ++ ':' :: (writtenParts numbers previous value).1) :: (writtenParts numbers previous value).2).foldl
        (readLine numbers) r).props.get key = some value ∧
      SameBut key (((token ++ ':' :: (writtenParts numbers previous value).1) ::
        (writtenParts numbers previous value).2).foldl (readLine numbers) r).props r.props := by
  obtain ⟨v, hparts, htrim, hne, hline, hread⟩ | ⟨hparts, rfl⟩ | ⟨items, rfl, hne, hkeyne, hitems, hparts, -⟩ :=
    written_cases hprevious hlaw hwrite
  · have hfirst := keyLine_token htoken (afterMark?_space (fun c => head_of_jsTrim_eq htrim) hline)
    rw [hparts]
    refine ⟨?_, foldl_entry hfirst hkey (by simp) r⟩
    have hvalue : readValue numbers (jsTrim ((some v).getD [])) = some value := by
      rw [Option.getD_some, htrim, hread]
    rw [List.foldl_cons, List.foldl_nil, readLine_written hfirst hkey hvalue, get_assign, if_pos ⟨rfl, hproto⟩]
  · have hfirst := keyLine_token htoken (t := []) rfl
    rw [hparts]
    refine ⟨?_, foldl_entry hfirst hkey (by simp) r⟩
    rw [List.foldl_cons, List.foldl_nil, readLine_written hfirst hkey rfl, get_assign, if_pos ⟨rfl, hproto⟩]
  · have hfirst := keyLine_token htoken (t := []) rfl
    obtain ⟨hmark, -⟩ := hprevious.mark
    have hwritten : ∀ s ∈ items, jsTrim (formatListItem numbers s false) = formatListItem numbers s false ∧
        (∀ c ∈ formatListItem numbers s false, isTerminator c = false) ∧
        listItem numbers (formatListItem numbers s false) = some s := by
      intro s hs
      obtain ⟨htrim, -, hline⟩ := formatListItem_trimmed (hitems s hs) false
      exact ⟨htrim, hline, (formatListItem_cases (hitems s hs) false).2⟩
    rw [hparts]
    refine ⟨?_, foldl_entry hfirst hkey ?_ r⟩
    · rw [List.foldl_cons, readLine_written hfirst hkey rfl, foldl_items hkeyne hproto hmark hwritten hne rfl, get_assign,
        if_pos ⟨rfl, hproto⟩]
      rfl
    · intro l hl
      obtain ⟨s, hs, rfl⟩ := List.mem_map.1 hl
      obtain ⟨htrim, hline, -⟩ := hwritten s hs
      exact (isItemLine hmark htrim hline).noKey

end Savoire.Frontmatter
