import Savoire.Frontmatter.Written

/-! Entries in the block of a note: where one stands, and what the block is with another text in its place. -/
namespace Savoire.Frontmatter
open VaultIndex

def IsEol (eol : Text) : Prop := eol = lf ∨ eol = crlf

theorem isEol_eolOf (text : Text) : IsEol (eolOf text) := by
  unfold eolOf
  split
  · exact .inr rfl
  · exact .inl rfl

variable {eol : Text}

theorem IsEol.newline? (h : IsEol eol) (rest : Text) : newline? (eol ++ rest) = some rest := by
  obtain rfl | rfl := h <;> rfl

theorem IsEol.starts (h : IsEol eol) (b : Bool) : startAfter b eol = true := by
  obtain rfl | rfl := h <;> decide +revert

theorem IsEol.quiet (h : IsEol eol) (b : Bool) (v : Text) : Quiet b eol v := by
  obtain rfl | rfl := h
  · exact ⟨fun _ => fence?_newline _ (by decide), trivial⟩
  · exact ⟨fun _ => fence?_newline _ (by decide), fun _ => fence?_newline _ (by decide), trivial⟩

theorem IsEol.terminator (h : IsEol eol) (rest : Text) : (eol ++ rest).head?.all isTerminator = true := by
  obtain rfl | rfl := h <;> rfl

theorem fence?_space {c : Char} (hc : isJsSpace c = true) (t : Text) : fence? (c :: t) = none := by
  have hdash : c ≠ '-' := by
    rintro rfl
    exact absurd hc (by decide)
  have hdot : c ≠ '.' := by
    rintro rfl
    exact absurd hc (by decide)
  unfold fence?
  rw [if_neg]
  rintro (h | h)
  · exact hdash (List.cons.inj h).1
  · exact hdot (List.cons.inj h).1

theorem fence?_dash {c : Char} (hc : isJsSpace c = true) (t : Text) : fence? ('-' :: c :: t) = none := by
  have hdash : c ≠ '-' := by
    rintro rfl
    exact absurd hc (by decide)
  unfold fence?
  rw [if_neg]
  rintro (h | h)
  · exact hdash (List.cons.inj (List.cons.inj h).2).1
  · exact absurd (List.cons.inj h).1 (by decide)

theorem quiet_spaces {u : Text} (hu : ∀ c ∈ u, isJsSpace c = true) (b : Bool) (v : Text) : Quiet b u v := by
  induction u generalizing b with
  | nil => trivial
  | cons c u ih =>
    exact ⟨fun _ => fence?_space (hu c List.mem_cons_self) _, ih (fun d hd => hu d (List.mem_cons_of_mem c hd)) _⟩

theorem IsItemMark.quiet {mark : Text} (h : IsItemMark mark) (b : Bool) (v : Text) : Quiet b mark v := by
  obtain ⟨u, w, rfl, hu, hw, hne⟩ := h
  obtain ⟨c, w, rfl⟩ := List.exists_cons_of_ne_nil hne
  refine quiet_append.mpr ⟨quiet_spaces hu b _, fun _ => fence?_dash (hw c List.mem_cons_self) _, ?_⟩
  exact quiet_spaces hw _ v

theorem IsItemMark.starts {mark : Text} (h : IsItemMark mark) (b : Bool) : startAfter b mark = startAfter false mark := by
  obtain ⟨u, w, rfl, -⟩ := h
  rw [startAfter_append, startAfter_append, startAfter_cons, startAfter_cons]

theorem quiet_intercalate (heol : IsEol eol) {lines : List Text} {v : Text}
    (hlines : ∀ l ∈ lines, ∀ w, w.head?.all isTerminator = true → Quiet true l w)
    (hv : v.head?.all isTerminator = true) : Quiet true (eol.intercalate lines) v := by
  induction lines with
  | nil => trivial
  | cons l lines ih =>
    by_cases hls : lines = []
    · subst hls
      rw [List.intercalate_singleton]
      exact hlines l List.mem_cons_self v hv
    · rw [List.intercalate_cons_of_ne_nil hls, quiet_append, quiet_append]
      refine ⟨⟨hlines l List.mem_cons_self _ (heol.terminator _), heol.quiet _ _⟩, ?_⟩
      · rw [startAfter_append, heol.starts]
        exact ih fun x hx => hlines x (List.mem_cons_of_mem l hx)

theorem isFence_quote (s : Text) : isFence (quote s) = false := by
  cases hfence : isFence (quote s) with
  | false => rfl
  | true =>
    have hchar := isFenceChar_of_isFence hfence (c := '"') (by simp [quote])
    exact absurd hchar (by decide)

variable {ν : Type} {numbers : Numbers ν} [DecidableEq ν]

/-- The lines of a written entry: none is a fence, and none holds the end of a line. -/
theorem written_lines {previous : Option Entry} (hprevious : IsPrevious previous) {token key : Text}
    {value : FrontmatterValue ν} (hlaw : Lawful numbers) (hwrite : Writable numbers previous key value)
    (hlf : '\n' ∉ token) (hquiet : Quiet true (token ++ [':']) []) :
    ∀ l ∈ (token ++ ':' :: (writtenParts numbers previous value).1) :: (writtenParts numbers previous value).2,
      '\n' ∉ l ∧ l.getLast? ≠ some '\r' ∧ ∀ w, w.head?.all isTerminator = true → Quiet true l w := by
  have hcolon : isFenceChar ':' = false := by decide
  have hfirst : ∀ part : Text, (∀ c ∈ part, isTerminator c = false) → '\n' ∉ token ++ ':' :: part ∧
      (token ++ ':' :: part).getLast? ≠ some '\r' ∧
      ∀ w, w.head?.all isTerminator = true → Quiet true (token ++ ':' :: part) w := by
    intro part hpart
    refine ⟨?_, ?_, ?_⟩
    · intro hmem
      obtain hmem | hmem := List.mem_append.1 hmem
      · exact hlf hmem
      · obtain heq | hmem := List.mem_cons.1 hmem
        · exact absurd heq (by decide)
        · exact absurd (hpart _ hmem) (by decide)
    · intro hlast
      rw [List.getLast?_append_of_ne_nil _ (by simp)] at hlast
      obtain heq | hmem := List.mem_cons.1 (List.mem_of_getLast? hlast)
      · exact absurd heq (by decide)
      · exact absurd (hpart _ hmem) (by decide)
    · intro w _
      have hsplit : token ++ ':' :: part = (token ++ [':']) ++ part := by simp
      rw [hsplit, quiet_append, startAfter_concat]
      exact ⟨hquiet.congr hcolon _, quiet_false hpart w⟩
  obtain ⟨v, hparts, -, -, hline, -⟩ | ⟨hparts, -⟩ | ⟨items, rfl, hne, -, hitems, hparts, hfence⟩ :=
    written_cases hprevious hlaw hwrite
  · rw [hparts]
    intro l hl
    obtain rfl := List.mem_singleton.1 hl
    refine hfirst (' ' :: v) ?_
    intro c hc
    obtain rfl | hc := List.mem_cons.1 hc
    · decide
    · exact hline c hc
  · rw [hparts]
    intro l hl
    obtain rfl := List.mem_singleton.1 hl
    exact hfirst [] (by simp)
  · rw [hparts]
    intro l hl
    obtain rfl | hl := List.mem_cons.1 hl
    · exact hfirst [] (by simp)
    · obtain ⟨s, hs, rfl⟩ := List.mem_map.1 hl
      obtain ⟨hmark, hmarklf⟩ := hprevious.mark
      obtain ⟨-, hnonempty, hline⟩ := formatListItem_trimmed (hitems s hs) false
      refine ⟨?_, ?_, ?_⟩
      · intro hmem
        obtain hmem | hmem := List.mem_append.1 hmem
        · exact hmarklf hmem
        · exact absurd (hline _ hmem) (by decide)
      · intro hlast
        rw [List.getLast?_append_of_ne_nil _ hnonempty] at hlast
        exact absurd (hline _ (List.mem_of_getLast? hlast)) (by decide)
      · intro w hw
        refine quiet_append.mpr ⟨hmark.quiet true _, ?_⟩
        rw [hmark.starts]
        cases hstart : startAfter false (itemPrefixOf previous) with
        | false => exact quiet_false hline w
        | true =>
          refine quiet_line hline ?_
          have hnot : isFence (formatListItem numbers s false) = false := by
            obtain ⟨hquote | ⟨hself, -⟩, -⟩ := formatListItem_cases (hitems s hs) false
            · rw [hquote]
              exact isFence_quote s
            · rw [hself]
              exact hfence hstart s hs
          have hsome := fence?_line hline hw
          rw [hnot] at hsome
          exact Option.isNone_iff_eq_none.mp (Option.isSome_eq_false_iff.mp hsome)

/-- `t` is what is left of `t ++ ending` without its last end of line. -/
def Chopped (t ending : Text) : Prop :=
  ending = crlf ∨ (ending = lf ∧ t.getLast? ≠ some '\r') ∨ (ending = [] ∧ t.getLast? ≠ some '\n')

theorem Chopped.chop {t ending : Text} (h : Chopped t ending) : chop (t ++ ending) = t := by
  obtain rfl | ⟨rfl, hcr⟩ | ⟨rfl, hlf⟩ := h
  · have hsplit : t ++ crlf = t ++ ['\r'] ++ ['\n'] := by simp [crlf]
    rw [hsplit, chop_lf, stripCr_cr]
  · rw [lf, chop_lf, stripCr_of_ne hcr]
  · rw [List.append_nil, Frontmatter.chop, if_neg hlf]

theorem exists_chopped (lines : Text) : ∃ ending, lines = chop lines ++ ending ∧ Chopped (chop lines) ending := by
  unfold chop
  split
  · rename_i hlast
    have hne : lines ≠ [] := by
      rintro rfl
      cases hlast
    have hlines : lines = lines.dropLast ++ ['\n'] := by
      rw [List.getLast?_eq_some_getLast hne, Option.some.injEq] at hlast
      rw [← hlast, List.dropLast_append_getLast]
    unfold stripCr
    split
    · rename_i hcr
      have hne' : lines.dropLast ≠ [] := by
        intro hnil
        rw [hnil] at hcr
        cases hcr
      rw [List.getLast?_eq_some_getLast hne', Option.some.injEq] at hcr
      refine ⟨crlf, ?_, .inl rfl⟩
      have hdrop : lines.dropLast = lines.dropLast.dropLast ++ ['\r'] := by
        rw [← hcr, List.dropLast_append_getLast]
      have hjoin : lines.dropLast.dropLast ++ crlf = lines.dropLast.dropLast ++ ['\r'] ++ ['\n'] := by simp [crlf]
      rw [hjoin, ← hdrop]
      exact hlines
    · rename_i hcr
      exact ⟨lf, hlines, .inr (.inl ⟨rfl, hcr⟩)⟩
  · rename_i hlast
    exact ⟨[], by simp, .inr (.inr ⟨rfl, hlast⟩)⟩

theorem newline?_fence {fence body : Text} (h : fence? fence = some body) : newline? fence = none := by
  cases hnl : newline? fence with
  | none => rfl
  | some rest =>
    have hnone : fence? fence = none := by
      obtain rfl | rfl := newline?_cases hnl
      · exact fence?_newline _ (by decide)
      · exact fence?_newline _ (by decide)
    rw [hnone] at h
    cases h

theorem quiet_ended {before : List Text} {v v' : Text} (h : Quiet true (ended before) v) :
    Quiet true (ended before) v' ∧ startAfter true (ended before) = true := by
  obtain hnil | ⟨u, hu⟩ := ended_last before
  · rw [hnil]
    exact ⟨trivial, rfl⟩
  · rw [hu] at h ⊢
    exact ⟨h.congr (by decide) v', by rw [startAfter_concat]; decide⟩

theorem IsBlock.replace {opening old rest fence body text : Text} {before : List Text}
    (h : IsBlock opening (ended before ++ old ++ rest) fence body) {more : Text}
    (hnl : newline? (rest ++ fence) = some more) (htext : Quiet true text (rest ++ fence)) :
    IsBlock opening (ended before ++ text ++ rest) fence body := by
  have hquiet := h.quiet
  rw [quiet_append, quiet_append] at hquiet
  obtain ⟨⟨hbefore, -⟩, hrest⟩ := hquiet
  obtain ⟨hbefore', hstart⟩ := @quiet_ended before _ (text ++ (rest ++ fence)) hbefore
  have hne : rest ≠ [] := by
    rintro rfl
    rw [List.nil_append, newline?_fence h.closes] at hnl
    cases hnl
  refine ⟨h.opens, ?_, ?_, h.closes⟩
  · rw [quiet_append, quiet_append, hstart]
    exact ⟨⟨hbefore', htext⟩, quiet_newline hrest hnl⟩
  · have hstarts := h.starts
    rw [startAfter_append] at hstarts ⊢
    obtain ⟨c, rest, rfl⟩ := List.exists_cons_of_ne_nil hne
    exact hstarts

/-- The `\r` at the end of a line. -/
def crOf (raw : Text) : Text := if raw.getLast? = some '\r' then ['\r'] else []

theorem stripCr_crOf (raw : Text) : stripCr raw ++ crOf raw = raw := by
  unfold stripCr crOf
  split
  · rename_i hlast
    have hne : raw ≠ [] := by
      rintro rfl
      cases hlast
    rw [List.getLast?_eq_some_getLast hne, Option.some.injEq] at hlast
    rw [← hlast, List.dropLast_append_getLast]
  · exact List.append_nil raw

/-- What stands behind an entry, up to the end of the yaml. -/
def behind (last : Text) (after : List Text) : Text := crOf last ++ after.flatMap fun raw => '\n' :: raw

theorem intercalate_entry (before : List Text) (init : List Text) (last : Text) (after : List Text) :
    ['\n'].intercalate (before ++ (init ++ [last]) ++ after) =
      ended before ++ entryText (init ++ [last]) ++ behind last after := by
  have hafter : ∀ (ls : List Text) (l : Text), ['\n'].intercalate (l :: ls) = l ++ ls.flatMap fun raw => '\n' :: raw := by
    intro ls
    induction ls with
    | nil => simp
    | cons m ls ih =>
      intro l
      rw [List.intercalate_cons_of_ne_nil (by simp), ih]
      simp
  have hbefore : ∀ (ls : List Text) (l : Text) (rest : List Text), ['\n'].intercalate (ls ++ l :: rest) =
      ended ls ++ ['\n'].intercalate (l :: rest) := by
    intro ls l rest
    induction ls with
    | nil => rfl
    | cons m ls ih =>
      rw [List.cons_append, List.intercalate_cons_of_ne_nil (by simp), ih, ended_cons]
      simp
  have hlist : before ++ (init ++ [last]) ++ after = (before ++ init) ++ last :: after := by simp
  rw [hlist, hbefore, hafter, entryText_concat, behind, ended_append]
  conv_lhs => rw [← stripCr_crOf last]
  simp

structure Site (numbers : Numbers ν) (markdown key : Text) (s : Scan) (e : Entry) where
  opening : Text
  before : List Text
  raw : Text
  conts : List Text
  after : List Text
  ending : Text
  fence : Text
  body : Text
  token : Text
  inline : Option Text
  /-- The lines of the entry, and what stands behind it. -/
  rest : Text
  markdown_eq : markdown = opening ++ (ended before ++ entryText (raw :: conts) ++ rest) ++ fence
  block : IsBlock opening (ended before ++ entryText (raw :: conts) ++ rest) fence body
  rest_eq : rest = behind ((raw :: conts).getLast (List.cons_ne_nil _ _)) after ++ ending
  chopped : Chopped (ended before ++ entryText (raw :: conts) ++
    behind ((raw :: conts).getLast (List.cons_ne_nil _ _)) after) ending
  noNewline : ∀ l ∈ before ++ (raw :: conts) ++ after, '\n' ∉ l
  fresh : Fresh after
  entry : IsEntry numbers opening.length e before raw token inline conts
  key_eq : e.key = key
  yamlStart : s.yamlStart = opening.length
  yamlEnd : s.yamlEnd = opening.length + (ended before ++ entryText (raw :: conts) ++
    behind ((raw :: conts).getLast (List.cons_ne_nil _ _)) after).length
  eol : s.eol = eolOf markdown

omit [DecidableEq ν]

theorem Idle.isFresh {raws : List Text} (h : Idle raws) : Fresh raws := by
  induction raws with
  | nil => trivial
  | cons raw raws ih =>
    rw [Fresh, if_pos (h raw List.mem_cons_self).2]
    exact ih fun l hl => h l (List.mem_cons_of_mem _ hl)

theorem scan_some {markdown : Text} {s : Scan} (h : scan numbers markdown = some s) :
    ∃ opening yaml ending fence body, markdown = opening ++ (yaml ++ ending) ++ fence ∧
      IsBlock opening (yaml ++ ending) fence body ∧ Chopped yaml ending ∧
      s = ⟨opening.length, opening.length + yaml.length, markdown.length - body.length, eolOf markdown,
        (scanLines numbers opening.length (yaml.splitOn '\n') ([], false)).1.reverse⟩ := by
  obtain ⟨block, hblock, hscan⟩ := Option.bind_eq_some_iff.1 h
  obtain ⟨inside, hopen, rfl⟩ := Option.map_eq_some_iff.1 hscan
  obtain ⟨opening, lines, fence, body, rfl, hbody⟩ := findFrontmatter_some hblock
  rw [hbody.findFrontmatter] at hblock
  obtain rfl := Option.some.inj hblock
  rw [List.append_assoc, hbody.opens] at hopen
  obtain rfl := Option.some.inj hopen
  obtain ⟨ending, hlines, hchopped⟩ := exists_chopped lines
  have hstart : (opening ++ lines ++ fence).length - (lines ++ fence).length = opening.length := by
    simp only [List.length_append]
    omega
  refine ⟨opening, chop lines, ending, fence, body, by rw [← hlines], by rw [← hlines]; exact hbody, hchopped, ?_⟩
  rw [hstart]

theorem exists_site {markdown key : Text} {s : Scan} {e : Entry} (hscan : scan numbers markdown = some s)
    (hfind : findEntry s key = some e) : Nonempty (Site numbers markdown key s e) := by
  obtain ⟨opening, yaml, ending, fence, body, hmarkdown, hblock, hchopped, rfl⟩ := scan_some hscan
  unfold findEntry at hfind
  rw [List.reverse_reverse] at hfind
  have hkey := List.find?_some hfind
  obtain ⟨current, before, raw, token, inline, conts, after, hraws, hentry, hafter⟩ :=
    foundIn_of_scanLines (List.mem_of_find?_eq_some hfind)
  have hyaml : yaml = ended before ++ entryText (raw :: conts) ++
      behind ((raw :: conts).getLast (List.cons_ne_nil _ _)) after := by
    have hjoin : ['\n'].intercalate (yaml.splitOn '\n') = yaml := List.intercalate_splitOn _
    rw [← hjoin, hraws]
    conv_lhs => rw [← List.dropLast_append_getLast (List.cons_ne_nil raw conts)]
    rw [intercalate_entry, List.dropLast_append_getLast]
  have hfresh : Fresh after := by
    cases current with
    | true => exact Idle.isFresh hafter
    | false => exact hafter.1
  have hlines : ∀ l ∈ before ++ (raw :: conts) ++ after, '\n' ∉ l := by
    rw [← hraws]
    exact notMem_splitOn '\n' yaml
  rw [hyaml] at hmarkdown hblock hchopped
  have hjoin : ended before ++ entryText (raw :: conts) ++ behind ((raw :: conts).getLast (List.cons_ne_nil _ _)) after ++
      ending = ended before ++ entryText (raw :: conts) ++
        (behind ((raw :: conts).getLast (List.cons_ne_nil _ _)) after ++ ending) := by simp
  rw [hjoin] at hmarkdown hblock
  exact ⟨⟨opening, before, raw, conts, after, ending, fence, body, token, inline, _, hmarkdown, hblock, rfl, hchopped,
    hlines, hfresh, hentry, by simpa using hkey, rfl, by rw [← hyaml], rfl⟩⟩

theorem isSkipped_eq (line : Text) :
    isSkipped line = match line.dropWhile isJsSpace with
      | [] => true
      | c :: _ => c == '#' := by
  cases hdrop : line.dropWhile isJsSpace with
  | nil => simp [isSkipped, jsTrim, hdrop]
  | cons c rest =>
    by_cases hhash : c = '#'
    · simp [isSkipped, hdrop, hhash]
    · rw [isSkipped_of_dropWhile hdrop hhash]
      simp [hhash]

theorem isSkipped_crOf (line : Text) : isSkipped line = isSkipped (stripCr line) := by
  conv_lhs => rw [← stripCr_crOf line]
  rw [isSkipped_eq, isSkipped_eq, List.dropWhile_append]
  have hcr : (crOf line).dropWhile isJsSpace = [] := by
    unfold crOf
    split <;> decide
  cases (stripCr line).dropWhile isJsSpace with
  | nil => simp [hcr]
  | cons c rest => simp

theorem resets_line {line : Text} (hskip : isSkipped line = false) (hcont : isContinuation line = false) (more : Text) :
    item? (line ++ more) = none ∧ (line ++ more).head?.any isJsSpace = false := by
  rw [isSkipped_eq] at hskip
  have htrim : (jsTrim line != []) = true := by
    cases hdrop : line.dropWhile isJsSpace with
    | nil => simp [hdrop] at hskip
    | cons c rest =>
      have hhash : c ≠ '#' := by simpa [hdrop] using hskip
      have hnot := isSkipped_of_dropWhile hdrop hhash
      simp only [isSkipped, Bool.or_eq_false_iff] at hnot
      simpa using hnot.1
  cases line with
  | nil => simp at hskip
  | cons c rest =>
    have hhash : c ≠ '#' := by
      rintro rfl
      rw [List.dropWhile_cons, if_neg (by decide)] at hskip
      exact absurd hskip (by simp)
    simp only [isContinuation, htrim, Bool.true_and, List.head?_cons, Option.any_some, Bool.and_eq_false_iff,
      Bool.or_eq_false_iff] at hcont
    obtain hcont | ⟨hspace, hdash⟩ := hcont
    · exact absurd hcont (by simp [hhash])
    · refine ⟨?_, by simpa using hspace⟩
      by_cases hc : c = '-'
      · subst hc
        cases rest with
        | nil => cases hdash
        | cons d rest =>
          have hd : isJsSpace d = false := by simpa [isDash] using hdash
          unfold item?
          rw [List.cons_append, List.dropWhile_cons, if_neg (by simp [hspace])]
          simp [afterMark?, hd]
      · exact item?_of_head hspace hc

theorem Fresh.resets {raws : List Text} (h : Fresh raws) : Resets (cutLines raws) := by
  induction raws with
  | nil => trivial
  | cons raw raws ih =>
    rw [Fresh] at h
    cases raws with
    | nil =>
      rw [cutLines, Resets, isSkipped_crOf]
      split
      · trivial
      · rename_i hskip
        rw [if_neg hskip] at h
        conv =>
          rw [← stripCr_crOf raw]
        exact resets_line (by simpa using hskip) h (crOf raw)
    | cons next raws =>
      rw [cutLines, Resets]
      · split
        · rename_i hskip
          rw [if_pos hskip] at h
          exact ih h
        · rename_i hskip
          rw [if_neg hskip] at h
          have hline := resets_line (by simpa using hskip) h []
          simpa using hline
      · simp

end Savoire.Frontmatter
