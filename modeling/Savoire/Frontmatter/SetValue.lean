import Savoire.Frontmatter.Sites

/-! Setting a property: the note then gives this value for this key, and all else is as before. -/
namespace Savoire.Frontmatter
open VaultIndex

/-- The key of a new entry reads back as it is written, on a line of its own that closes no frontmatter. -/
structure KeyWritten (key : Text) : Prop where
  token : keyLine (formatYamlKey key ++ [':']) = some (formatYamlKey key, none)
  key_eq : parseKey (formatYamlKey key) = key
  noNewline : '\n' ∉ formatYamlKey key
  open_ : findClose true (formatYamlKey key ++ [':']) = none

structure ReadAlike (markdown key : Text) (s : Scan) (e : Entry) : Prop where
  token : keyLine ((markdown.take e.keyEnd).drop e.keyStart ++ [':']) =
    some ((markdown.take e.keyEnd).drop e.keyStart, none)
  key_eq : parseKey ((markdown.take e.keyEnd).drop e.keyStart) = key
  newline : (newline? (markdown.drop e.stop)).isSome = true
  last (line : Text) : line ∈ splitLines ((markdown.take s.yamlEnd).drop e.stop) → lineKey line ≠ some key

variable {ν : Type} (numbers : Numbers ν) [DecidableEq ν]

def SettableAt (markdown key : Text) (value : FrontmatterValue ν) (s : Scan) : Option Entry → Prop
  | none => KeyWritten key ∧ Writable numbers none key value ∧
    (s.yamlEnd ≠ s.yamlStart → (newline? (markdown.drop s.yamlEnd)).isSome = true)
  | some e => ReadAlike markdown key s e ∧ Writable numbers (some e) key value

def SettableIn (markdown key : Text) (value : FrontmatterValue ν) : Option Scan → Prop
  | none => KeyWritten key ∧ Writable numbers none key value
  | some s => SettableAt numbers markdown key value s (findEntry s key)

/-- When the value can be set so that it reads back. -/
def Settable (markdown key : Text) (value : FrontmatterValue ν) : Prop :=
  key ≠ "__proto__".toList ∧ SettableIn numbers markdown key value (scan numbers markdown)

variable {numbers}

variable {eol : Text}

omit [DecidableEq ν] in
theorem getLast_intercalate (heol : IsEol eol) {lines : List Text} (h : ∀ l ∈ lines, l.getLast? ≠ some '\r') :
    (eol.intercalate lines).getLast? ≠ some '\r' := by
  induction lines with
  | nil => simp
  | cons l lines ih =>
    by_cases hls : lines = []
    · subst hls
      rw [List.intercalate_singleton]
      exact h l List.mem_cons_self
    · rw [List.intercalate_cons_of_ne_nil hls]
      by_cases hrest : eol.intercalate lines = []
      · rw [hrest, List.append_nil]
        obtain rfl | rfl := heol <;> simp [lf, crlf]
      · rw [List.getLast?_append_of_ne_nil _ hrest]
        exact ih fun x hx => h x (List.mem_cons_of_mem l hx)

variable {key : Text} {value : FrontmatterValue ν}

theorem written_text {previous : Option Entry} (hprevious : IsPrevious previous) {token : Text}
    (hlaw : Lawful numbers) (hwrite : Writable numbers previous key value)
    (hlf : '\n' ∉ token) (hquiet : Quiet true (token ++ [':']) []) (heol : IsEol eol) :
    splitLines (formatEntry numbers token value eol previous) =
        (token ++ ':' :: (writtenParts numbers previous value).1) :: (writtenParts numbers previous value).2 ∧
      (formatEntry numbers token value eol previous).getLast? ≠ some '\r' ∧
      ∀ v, v.head?.all isTerminator = true → Quiet true (formatEntry numbers token value eol previous) v := by
  have hlines := written_lines hprevious hlaw hwrite hlf hquiet
  rw [formatEntry_eq]
  generalize hl : (token ++ ':' :: (writtenParts numbers previous value).1) ::
    (writtenParts numbers previous value).2 = lines at hlines ⊢
  have hne : lines ≠ [] := by
    rw [← hl]
    exact List.cons_ne_nil _ _
  exact ⟨splitLines_intercalate heol.newline? hne (fun l hl => (hlines l hl).1) fun l hl => (hlines l hl).2.1,
    getLast_intercalate heol fun l hl => (hlines l hl).2.1,
    fun v hv => quiet_intercalate heol (fun l hl => (hlines l hl).2.2) hv⟩

variable {t : Text}

theorem newline?_terminator {rest : Text} (h : newline? t = some rest) : t.head?.all isTerminator = true := by
  obtain rfl | rfl := newline?_cases h <;> rfl

/-- The note that an edit of one key leaves: the key as wanted, the other keys and the body as before. -/
abbrev Leaves (numbers : Numbers ν) (key : Text) (value : Option (FrontmatterValue ν)) (markdown note : Text) : Prop :=
  (parseFrontmatter numbers note).get key = value ∧
    SameBut key (parseFrontmatter numbers note) (parseFrontmatter numbers markdown) ∧
    stripFrontmatter note = stripFrontmatter markdown

variable {markdown : Text} {s : Scan}

theorem set_present (hlaw : Lawful numbers) {e : Entry}
    (hscan : scan numbers markdown = some s) (hfind : findEntry s key = some e) (hproto : key ≠ "__proto__".toList)
    (hread : ReadAlike markdown key s e) (hwrite : Writable numbers (some e) key value) :
    Leaves numbers key (some value) markdown (setFrontmatterValue numbers markdown key value) := by
  obtain ⟨site⟩ := exists_site hscan hfind
  obtain ⟨htoken, hkey, hnewline, hlast⟩ := hread
  rw [site.token_eq] at htoken hkey
  rw [site.drop_stop] at hnewline
  obtain ⟨more, hnl⟩ := Option.isSome_iff_exists.mp hnewline
  have heol : IsEol s.eol := site.eol ▸ isEol_eolOf markdown
  obtain ⟨hlines, hcr, hquiet⟩ := written_text site.isPrevious hlaw hwrite site.noNewline_token site.quiet_token heol
  obtain ⟨hget, hsame⟩ := read_written site.isPrevious hlaw hwrite htoken hkey hproto
    ((site.before.map stripCr).foldl (readLine numbers) ⟨.empty, none⟩)
  -- the note with the new text
  have hset : setFrontmatterValue numbers markdown key value = site.opening ++ (ended site.before ++
      formatEntry numbers site.token value s.eol (some e) ++ site.rest) ++ site.fence := by
    unfold setFrontmatterValue
    rw [hscan]
    simp only [hfind, site.token_eq, site.take_lineStart, site.drop_stop]
    simp
  generalize formatEntry numbers site.token value s.eol (some e) = text at hlines hcr hquiet hset
  have hblock := site.block.replace hnl (hquiet _ (newline?_terminator hnl))
  have hchop : chop (ended site.before ++ text ++ site.rest) = ended site.before ++ text ++ site.tail := by
    rw [site.rest_tail, ← List.append_assoc]
    exact (site.chopped_replaced hnl hcr).chop
  have hnew : parseFrontmatter numbers (setFrontmatterValue numbers markdown key value) =
      ((cutLines site.after).foldl (readLine numbers) ((splitLines text).foldl (readLine numbers)
        ((site.before.map stripCr).foldl (readLine numbers) ⟨.empty, none⟩))).props := by
    rw [hset, hblock.parse, hchop, parseFrontmatterYaml,
      site.splitLines_replaced hnl fun hend => absurd hend hcr, List.foldl_append, List.foldl_append]
  have hold := site.parse hnl
  have hresets := site.fresh.resets
  have hkeys : ∀ line ∈ cutLines site.after, lineKey line ≠ some key :=
    fun line hline => hlast line (site.cutLines_subset hnl hline)
  have hentry := site.foldl_conts hkey ((site.before.map stripCr).foldl (readLine numbers) ⟨.empty, none⟩)
  rw [hlines] at hnew
  refine ⟨?_, ?_, ?_⟩
  · rw [hnew, foldl_get_resets hresets hkeys, hget]
  · rw [hnew, hold]
    exact (hsame.trans hentry.symm).foldl_resets hresets
  · rw [hset, hblock.strip]
    exact (congrArg stripFrontmatter site.markdown_eq).trans site.block.strip |>.symm

theorem KeyWritten.quiet (h : KeyWritten key) : Quiet true (formatYamlKey key ++ [':']) [] := by
  have hopen := h.open_
  rw [findClose_eq, Option.map_eq_none_iff] at hopen
  exact findFence_none.mp hopen

theorem Chopped.quiet {ending : Text} (h : Chopped t ending) (b : Bool) (v : Text) : Quiet b ending v := by
  obtain rfl | ⟨rfl, -⟩ | ⟨rfl, -⟩ := h
  · exact IsEol.quiet (.inr rfl) b v
  · exact IsEol.quiet (.inl rfl) b v
  · trivial

theorem IsEol.getLast (h : IsEol eol) (t : Text) : (t ++ eol).getLast? ≠ some '\r' := by
  obtain rfl | rfl := h <;> simp [lf, crlf]

omit [DecidableEq ν] in
theorem foldl_chop {text ending : Text} (heol : IsEol eol) (hending : Chopped [] ending)
    (hcr : text.getLast? ≠ some '\r') (r : Reading ν) :
    (splitLines (chop (text ++ eol ++ ending))).foldl (readLine numbers) r =
      (splitLines text).foldl (readLine numbers) r := by
  have hline : Chopped text eol := by
    obtain rfl | rfl := heol
    · exact .inr (.inl ⟨rfl, hcr⟩)
    · exact .inl rfl
  have hmore : (splitLines (text ++ eol)).foldl (readLine numbers) r = (splitLines text).foldl (readLine numbers) r := by
    have hnl : newline? eol = some [] := by
      simpa using heol.newline? []
    rw [splitLines_newline hnl fun h => absurd h hcr, List.foldl_append]
    exact @readLine_skipped ν numbers [] (by decide) _
  obtain rfl | ⟨rfl, -⟩ | ⟨rfl, -⟩ := hending
  · rw [Chopped.chop (.inl rfl), hmore]
  · rw [Chopped.chop (.inr (.inl ⟨rfl, heol.getLast text⟩)), hmore]
  · rw [List.append_nil, hline.chop]

theorem set_first (hlaw : Lawful numbers)
    (hscan : scan numbers markdown = some s) (hfind : findEntry s key = none) (hempty : s.yamlEnd = s.yamlStart)
    (hproto : key ≠ "__proto__".toList) (hkey : KeyWritten key) (hwrite : Writable numbers none key value) :
    Leaves numbers key (some value) markdown (setFrontmatterValue numbers markdown key value) := by
  obtain ⟨opening, yaml, ending, fence, body, hmd, hblock, hchopped, hs⟩ := scan_some hscan
  have hstart : s.yamlStart = opening.length := by rw [hs]
  have hyaml : yaml = [] := by
    rw [hs] at hempty
    simpa using hempty
  subst hyaml
  rw [List.nil_append] at hmd hblock
  have heol : IsEol s.eol := by
    rw [hs]
    exact isEol_eolOf markdown
  obtain ⟨hlines, hcr, hquiet⟩ := written_text isPrevious_none hlaw hwrite hkey.noNewline hkey.quiet heol
  obtain ⟨hget, hsame⟩ := read_written isPrevious_none hlaw hwrite hkey.token hkey.key_eq hproto ⟨.empty, none⟩
  -- the note with the new text
  have hset : setFrontmatterValue numbers markdown key value = opening ++
      (formatEntry numbers (formatYamlKey key) value s.eol none ++ s.eol ++ ending) ++ fence := by
    unfold setFrontmatterValue
    rw [hscan]
    simp only [hfind]
    rw [if_pos hempty, hstart, hmd, List.append_assoc opening, List.take_left, List.drop_left]
    simp
  generalize formatEntry numbers (formatYamlKey key) value s.eol none = text at hlines hcr hquiet hset
  have hnew : IsBlock opening (text ++ s.eol ++ ending) fence body := by
    refine ⟨hblock.opens, ?_, ?_, hblock.closes⟩
    · rw [quiet_append, quiet_append]
      exact ⟨⟨hquiet _ (heol.terminator _), heol.quiet _ _⟩, hchopped.quiet _ _⟩
    · rw [startAfter_append, startAfter_append, heol.starts]
      exact hblock.starts
  have hparse : parseFrontmatter numbers (setFrontmatterValue numbers markdown key value) =
      ((splitLines text).foldl (readLine numbers) ⟨.empty, none⟩).props := by
    rw [hset, hnew.parse, parseFrontmatterYaml, foldl_chop heol hchopped hcr]
  have hold : parseFrontmatter numbers markdown = .empty := by
    have hchop : chop ending = [] := hchopped.chop
    rw [hmd, hblock.parse, hchop]
    rfl
  rw [hlines] at hparse
  refine ⟨?_, ?_, ?_⟩
  · rw [hparse, hget]
  · rw [hparse, hold]
    exact hsame
  · rw [hset, hnew.strip, hmd, hblock.strip]

theorem getLast_behind_eol {text : Text} (heol : IsEol eol) (hcr : text.getLast? ≠ some '\r') :
    (t ++ eol ++ text).getLast? ≠ some '\r' := by
  by_cases htext : text = []
  · rw [htext, List.append_nil]
    exact heol.getLast t
  · rw [List.getLast?_append_of_ne_nil _ htext]
    exact hcr

/-- A new entry behind the others. -/
theorem set_last (hlaw : Lawful numbers)
    (hscan : scan numbers markdown = some s) (hfind : findEntry s key = none) (hfull : s.yamlEnd ≠ s.yamlStart)
    (hnewline : (newline? (markdown.drop s.yamlEnd)).isSome = true)
    (hproto : key ≠ "__proto__".toList) (hkey : KeyWritten key) (hwrite : Writable numbers none key value) :
    Leaves numbers key (some value) markdown (setFrontmatterValue numbers markdown key value) := by
  obtain ⟨opening, yaml, ending, fence, body, hmd, hblock, hchopped, hs⟩ := scan_some hscan
  have hend : s.yamlEnd = (opening ++ yaml).length := by
    rw [hs, List.length_append]
  have hsplit : markdown = opening ++ yaml ++ (ending ++ fence) := by
    rw [hmd]
    simp
  have hdrop : markdown.drop s.yamlEnd = ending ++ fence := by
    rw [hend, hsplit, List.drop_left]
  have heol : IsEol s.eol := by
    rw [hs]
    exact isEol_eolOf markdown
  obtain ⟨hlines, hcr, hquiet⟩ := written_text isPrevious_none hlaw hwrite hkey.noNewline hkey.quiet heol
  obtain ⟨hget, hsame⟩ := read_written isPrevious_none hlaw hwrite hkey.token hkey.key_eq hproto
    ((splitLines yaml).foldl (readLine numbers) ⟨.empty, none⟩)
  have hset : setFrontmatterValue numbers markdown key value = opening ++
      (yaml ++ s.eol ++ formatEntry numbers (formatYamlKey key) value s.eol none ++ ending) ++ fence := by
    unfold setFrontmatterValue
    rw [hscan]
    simp only [hfind]
    rw [if_neg hfull, hdrop, hend, hsplit, List.take_left]
    simp
  generalize formatEntry numbers (formatYamlKey key) value s.eol none = text at hlines hcr hquiet hset
  rw [hdrop] at hnewline
  obtain ⟨more, hnl⟩ := Option.isSome_iff_exists.mp hnewline
  have hterm := newline?_terminator hnl
  have hending : ending ≠ [] := by
    rintro rfl
    rw [List.nil_append, newline?_fence hblock.closes] at hnl
    cases hnl
  have hnew : IsBlock opening (yaml ++ s.eol ++ text ++ ending) fence body := by
    have hyaml := (quiet_append.mp hblock.quiet).1
    refine ⟨hblock.opens, ?_, ?_, hblock.closes⟩
    · rw [quiet_append, quiet_append, quiet_append]
      exact ⟨⟨⟨hyaml.of_terminator hterm (heol.terminator _), heol.quiet _ _⟩, by
        rw [startAfter_append, heol.starts]
        exact hquiet _ hterm⟩, hchopped.quiet _ _⟩
    · have hstarts := hblock.starts
      obtain ⟨c, rest, rfl⟩ := List.exists_cons_of_ne_nil hending
      rw [startAfter_append, startAfter_cons] at hstarts ⊢
      exact hstarts
  have hparse : parseFrontmatter numbers (setFrontmatterValue numbers markdown key value) =
      ((splitLines text).foldl (readLine numbers)
        ((splitLines yaml).foldl (readLine numbers) ⟨.empty, none⟩)).props := by
    have hchop : Chopped (yaml ++ s.eol ++ text) ending := by
      obtain hcrlf | ⟨hlf, -⟩ | ⟨hnil, -⟩ := hchopped
      · exact .inl hcrlf
      · exact .inr (.inl ⟨hlf, getLast_behind_eol heol hcr⟩)
      · exact absurd hnil hending
    have hyaml : yaml.getLast? = some '\r' → (s.eol ++ text).head? ≠ some '\n' := by
      intro hlast
      obtain rfl | ⟨-, hlf⟩ | ⟨hnil, -⟩ := hchopped
      · have hcrlf : crlf <:+: markdown := ⟨opening ++ yaml, fence, by rw [hmd]; simp⟩
        have hs' : s.eol = crlf := by
          rw [hs]
          exact if_pos hcrlf
        rw [hs']
        simp [crlf]
      · exact absurd hlast hlf
      · exact absurd hnil hending
    rw [hset, hnew.parse, hchop.chop, parseFrontmatterYaml, List.append_assoc,
      splitLines_newline (heol.newline? text) hyaml, List.foldl_append]
  have hold : parseFrontmatter numbers markdown =
      ((splitLines yaml).foldl (readLine numbers) ⟨.empty, none⟩).props := by
    rw [hmd, hblock.parse, hchopped.chop, parseFrontmatterYaml]
  rw [hlines] at hparse
  refine ⟨?_, ?_, ?_⟩
  · rw [hparse, hget]
  · rw [hparse, hold]
    exact hsame
  · rw [hset, hnew.strip, hmd, hblock.strip]

omit [DecidableEq ν] in
theorem findFrontmatter_of_scan (h : scan numbers markdown = none) :
    findFrontmatter markdown = none := by
  cases hfind : findFrontmatter markdown with
  | none => rfl
  | some block =>
    obtain ⟨opening, lines, fence, body, hmd, hblock⟩ := findFrontmatter_some hfind
    have hopen : (afterOpen? markdown).isSome = true := by
      rw [hmd, List.append_assoc, hblock.opens]
      rfl
    unfold scan at h
    rw [hfind, Option.bind_some, Option.map_eq_none_iff] at h
    rw [h] at hopen
    cases hopen

theorem set_new (hlaw : Lawful numbers) (hscan : scan numbers markdown = none)
    (hproto : key ≠ "__proto__".toList) (hkey : KeyWritten key) (hwrite : Writable numbers none key value) :
    Leaves numbers key (some value) markdown (setFrontmatterValue numbers markdown key value) := by
  have hfind := findFrontmatter_of_scan hscan
  have heol := isEol_eolOf markdown
  obtain ⟨hlines, hcr, hquiet⟩ := written_text isPrevious_none hlaw hwrite hkey.noNewline hkey.quiet heol
  obtain ⟨hget, hsame⟩ := read_written isPrevious_none hlaw hwrite hkey.token hkey.key_eq hproto ⟨.empty, none⟩
  have hset : setFrontmatterValue numbers markdown key value = ("---".toList ++ eolOf markdown) ++
      (formatEntry numbers (formatYamlKey key) value (eolOf markdown) none ++ eolOf markdown ++ []) ++
        ("---".toList ++ eolOf markdown ++ markdown) := by
    unfold setFrontmatterValue
    rw [hscan]
    simp
  generalize formatEntry numbers (formatYamlKey key) value (eolOf markdown) none = text at hlines hcr hquiet hset
  generalize eolOf markdown = eol at heol hset hquiet
  have hnew : IsBlock ("---".toList ++ eol) (text ++ eol ++ []) ("---".toList ++ eol ++ markdown) markdown := by
    refine ⟨?_, ?_, ?_, ?_⟩
    · intro rest
      obtain rfl | rfl := heol <;> rfl
    · rw [List.append_nil, quiet_append]
      exact ⟨hquiet _ (heol.terminator _), heol.quiet _ _⟩
    · rw [List.append_nil, startAfter_append, heol.starts]
    · obtain rfl | rfl := heol <;> rfl
  have hparse : parseFrontmatter numbers (setFrontmatterValue numbers markdown key value) =
      ((splitLines text).foldl (readLine numbers) ⟨.empty, none⟩).props := by
    rw [hset, hnew.parse, parseFrontmatterYaml, foldl_chop heol (.inr (.inr ⟨rfl, by simp⟩)) hcr]
  have hold : parseFrontmatter numbers markdown = .empty := by
    unfold parseFrontmatter
    rw [hfind]
  have hstrip : stripFrontmatter markdown = markdown := by
    unfold stripFrontmatter
    rw [hfind]
  rw [hlines] at hparse
  refine ⟨?_, ?_, ?_⟩
  · rw [hparse, hget]
  · rw [hparse, hold]
    exact hsame
  · rw [hset, hnew.strip, hstrip]

/-- A value that can be set so reads back; the other keys and the body of the note are as before. -/
theorem setFrontmatterValue_correct (hlaw : Lawful numbers) {markdown key : Text} {value : FrontmatterValue ν}
    (h : Settable numbers markdown key value) :
    (parseFrontmatter numbers (setFrontmatterValue numbers markdown key value)).get key = some value ∧
      (∀ other, other ≠ key →
        (parseFrontmatter numbers (setFrontmatterValue numbers markdown key value)).get other =
          (parseFrontmatter numbers markdown).get other) ∧
      stripFrontmatter (setFrontmatterValue numbers markdown key value) = stripFrontmatter markdown := by
  obtain ⟨hproto, h⟩ := h
  cases hscan : scan numbers markdown with
  | none =>
    rw [hscan] at h
    exact set_new hlaw hscan hproto h.1 h.2
  | some s =>
    rw [hscan, SettableIn] at h
    cases hfind : findEntry s key with
    | some e =>
      rw [hfind] at h
      exact set_present hlaw hscan hfind hproto h.1 h.2
    | none =>
      rw [hfind] at h
      obtain ⟨hkey, hwrite, hnewline⟩ := h
      by_cases hempty : s.yamlEnd = s.yamlStart
      · exact set_first hlaw hscan hfind hempty hproto hkey hwrite
      · exact set_last hlaw hscan hfind hempty (hnewline hempty) hproto hkey hwrite

instance (key : Text) : Decidable (KeyWritten key) :=
  decidable_of_iff (keyLine (formatYamlKey key ++ [':']) = some (formatYamlKey key, none) ∧
      parseKey (formatYamlKey key) = key ∧ '\n' ∉ formatYamlKey key ∧ findClose true (formatYamlKey key ++ [':']) = none)
    ⟨fun ⟨htoken, hkey, hlf, hopen⟩ => ⟨htoken, hkey, hlf, hopen⟩,
      fun ⟨htoken, hkey, hlf, hopen⟩ => ⟨htoken, hkey, hlf, hopen⟩⟩

instance (markdown key : Text) (s : Scan) (e : Entry) : Decidable (ReadAlike markdown key s e) :=
  decidable_of_iff (keyLine ((markdown.take e.keyEnd).drop e.keyStart ++ [':']) =
        some ((markdown.take e.keyEnd).drop e.keyStart, none) ∧
      parseKey ((markdown.take e.keyEnd).drop e.keyStart) = key ∧ (newline? (markdown.drop e.stop)).isSome = true ∧
      ∀ line ∈ splitLines ((markdown.take s.yamlEnd).drop e.stop), lineKey line ≠ some key)
    ⟨fun ⟨htoken, hkey, hnewline, hlast⟩ => ⟨htoken, hkey, hnewline, hlast⟩,
      fun ⟨htoken, hkey, hnewline, hlast⟩ => ⟨htoken, hkey, hnewline, hlast⟩⟩

instance (s : Text) : Decidable (OneLine s) :=
  decidable_of_iff ((s.all fun c => decide (isTerminator c = true → c = '\n')) = true)
    (by simp only [OneLine, List.all_eq_true, decide_eq_true_eq])

instance (s : Text) : Decidable (ReadsBack numbers s) :=
  inferInstanceAs (Decidable (OneLine s ∧ (needsQuotes numbers s true = false → listItem numbers s = some s)))

instance decidableApart : (items : List Text) → Decidable (Apart items)
  | [] => isTrue trivial
  | [last] => inferInstanceAs (Decidable (quoteEnd none last ≠ none))
  | item :: next :: rest =>
    have := decidableApart (next :: rest)
    inferInstanceAs (Decidable (quoteEnd none item = some none ∧ Apart (next :: rest)))

instance (previous : Option Entry) (key : Text) : (value : FrontmatterValue ν) → Decidable (Writable numbers previous key value)
  | .scalar (.text s) =>
    inferInstanceAs (Decidable (OneLine s ∧ (needsQuotes numbers s false = true → commentOf previous = [])))
  | .scalar (.number n) => inferInstanceAs (Decidable (numbers.isFinite n = true))
  | .scalar (.bool _) => isTrue trivial
  | .scalar .null => inferInstanceAs (Decidable (commentOf previous = []))
  | .list [] => isTrue trivial
  | .list (item :: items) => inferInstanceAs (Decidable ((∀ s ∈ item :: items, ReadsBack numbers s) ∧
      if wasInline previous then Apart ((item :: items).map (formatListItem numbers · true))
      else key ≠ [] ∧ (startAfter false (itemPrefixOf previous) = true → ∀ s ∈ item :: items, isFence s = false)))

instance (markdown key : Text) (value : FrontmatterValue ν) (s : Scan) :
    (found : Option Entry) → Decidable (SettableAt numbers markdown key value s found)
  | none => inferInstanceAs (Decidable (KeyWritten key ∧ Writable numbers none key value ∧
      (s.yamlEnd ≠ s.yamlStart → (newline? (markdown.drop s.yamlEnd)).isSome = true)))
  | some e => inferInstanceAs (Decidable (ReadAlike markdown key s e ∧ Writable numbers (some e) key value))

instance (markdown key : Text) (value : FrontmatterValue ν) :
    (scanned : Option Scan) → Decidable (SettableIn numbers markdown key value scanned)
  | none => inferInstanceAs (Decidable (KeyWritten key ∧ Writable numbers none key value))
  | some s => inferInstanceAs (Decidable (SettableAt numbers markdown key value s (findEntry s key)))

instance (markdown key : Text) (value : FrontmatterValue ν) : Decidable (Settable numbers markdown key value) :=
  inferInstanceAs (Decidable (key ≠ "__proto__".toList ∧ SettableIn numbers markdown key value (scan numbers markdown)))

def digits : Numbers (Option (Fin 10)) where
  read s := (List.finRange 10).find? fun d => s = [Char.ofNat (48 + d)]
  print n := (n.map fun d => [Char.ofNat (48 + d)]).getD "NaN".toList
  isFinite n := n.isSome

theorem digits_lawful : Lawful digits := by
  intro n hfinite
  cases n with
  | none => cases hfinite
  | some d =>
    revert d
    decide

def sampleNote : Text := "---\r\ntitle: A # draft\r\ntags: [x]\r\n---\r\nbody".toList

theorem setFrontmatterValue_sample :
    Settable digits sampleNote "tags".toList (.list ["b, c".toList, "2".toList]) ∧
      stripFrontmatter (setFrontmatterValue digits sampleNote "tags".toList (.list ["b, c".toList, "2".toList])) =
        stripFrontmatter sampleNote :=
  ⟨by decide +kernel, (setFrontmatterValue_correct digits_lawful (by decide +kernel)).2.2⟩

/-- An item that stands for nothing is not quoted in a list. -/
theorem set_null_item : (parseFrontmatter digits (setFrontmatterValue digits [] "tags".toList
    (.list ["null".toList]))).get "tags".toList ≠ some (.list ["null".toList]) := by
  decide +kernel

end Savoire.Frontmatter
