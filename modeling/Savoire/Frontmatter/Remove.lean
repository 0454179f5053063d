import Savoire.Frontmatter.SetValue

/-! Taking a property out of a note: the key is gone, and all else is as before. -/
namespace Savoire.Frontmatter
open VaultIndex

structure OnlyEntry (markdown key : Text) (s : Scan) (e : Entry) : Prop where
  key_eq : parseKey ((markdown.take e.keyEnd).drop e.keyStart) = key
  newline : (newline? (markdown.drop e.stop)).isSome = true
  before (line : Text) : line ∈ splitLines ((markdown.take e.lineStart).drop s.yamlStart) → lineKey line ≠ some key
  behind (line : Text) : line ∈ splitLines ((markdown.take s.yamlEnd).drop e.stop) → lineKey line ≠ some key

/-- The entry can be taken out: the line before it keeps its end, and no other block appears at the top of the
note when nothing is left in this one. -/
structure Removable (markdown key : Text) (s : Scan) (e : Entry) : Prop where
  only : OnlyEntry markdown key s e
  ends : (markdown.take (removedRange markdown s e).1).getLast? = some '\r' → crlf <+: markdown.drop e.stop
  body : jsTrim ((markdown.take e.lineStart).drop s.yamlStart ++ (markdown.take s.yamlEnd).drop e.stop) = [] →
    findFrontmatter (stripFrontmatter markdown) = none

theorem newline?_append {t rest : Text} (h : newline? t = some rest) (more : Text) :
    newline? (t ++ more) = some (rest ++ more) := by
  obtain rfl | rfl := newline?_cases h <;> rfl

theorem drop_afterNewline {text rest : Text} {start : Nat} (h : newline? (text.drop start) = some rest) :
    text.drop (afterNewline text start) = rest := by
  obtain heq | heq := newline?_cases h
  · have hafter : afterNewline text start = start + 1 := by
      unfold afterNewline
      rw [heq, if_pos List.mem_cons_self, List.idxOf_cons_self]
    rw [hafter, ← List.drop_drop, heq]
    rfl
  · have hafter : afterNewline text start = start + 2 := by
      unfold afterNewline
      rw [heq, if_pos (by simp)]
      simp
    rw [hafter, ← List.drop_drop, heq]
    rfl

theorem stripCr_append {u v : Text} (h : v = [] → u.getLast? ≠ some '\r') : stripCr (u ++ v) = u ++ stripCr v := by
  by_cases hv : v = []
  · subst hv
    rw [List.append_nil, stripCr_of_ne (h rfl)]
    exact (List.append_nil u).symm
  · unfold stripCr
    rw [List.getLast?_append_of_ne_nil _ hv, List.dropLast_append_of_ne_nil hv]
    split <;> rfl

theorem take_beforeNewline {text u : Text} {stop : Nat} (h : text.take stop = u ++ ['\n']) (hne : u ≠ []) :
    text.take (if 0 < beforeNewline text stop ∧ (text.take (beforeNewline text stop)).getLast? = some '\r' then
      beforeNewline text stop - 1 else beforeNewline text stop) = stripCr u := by
  have hbefore : beforeNewline text stop = u.length := by
    unfold beforeNewline
    rw [h, List.rtakeWhile_concat_neg _ _ _ (by simp)]
    simp
  have hsplit : text = u ++ ('\n' :: text.drop stop) := by
    conv_lhs => rw [← List.take_append_drop stop text, h]
    simp
  have htake (n : Nat) (hn : n ≤ u.length) : text.take n = u.take n := by
    rw [hsplit]
    exact List.take_append_of_le_length hn
  rw [hbefore, htake u.length le_rfl, List.take_length]
  unfold stripCr
  have hpos : 0 < u.length := List.length_pos_iff.mpr hne
  split
  · rename_i hcr
    rw [if_pos hcr.2, htake _ (Nat.sub_le _ _), List.dropLast_eq_take]
  · rename_i hcr
    rw [if_neg fun hlast => hcr ⟨hpos, hlast⟩, htake _ le_rfl, List.take_length]

theorem IsBlock.opening_last {opening lines fence body : Text} (h : IsBlock opening lines fence body) :
    opening.getLast? = some '\n' := by
  have hopen := h.opens []
  rw [List.append_nil, afterOpen?] at hopen
  split at hopen
  · have hsuffix : (opening.drop 3).dropWhile isBlank <:+ opening :=
      (List.dropWhile_suffix _).trans (List.drop_suffix _ _)
    obtain heq | heq := newline?_cases hopen
    · obtain ⟨u, hu⟩ := hsuffix
      rw [← hu, heq, List.getLast?_concat]
    · obtain ⟨u, hu⟩ := hsuffix
      rw [← hu, heq]
      simp
  · cases hopen

variable {ν : Type} {numbers : Numbers ν} {markdown key : Text} {s : Scan} {e : Entry}

/-- A note whose block has the lines around an entry. -/
structure Without (site : Site numbers markdown key s e) (next yaml : Text) : Prop where
  next_eq : next = site.opening ++ (yaml ++ site.ending) ++ site.fence
  block : IsBlock site.opening (yaml ++ site.ending) site.fence site.body
  chopped : Chopped yaml site.ending
  reads (r : Reading ν) : (splitLines yaml).foldl (readLine numbers) r =
    (cutLines site.after).foldl (readLine numbers) ((site.before.map stripCr).foldl (readLine numbers) r)
  blank : (∀ c ∈ yaml, isJsSpace c = true) → ∀ c ∈ ended site.before ++ site.tail, isJsSpace c = true

def cutEntry (markdown : Text) (s : Scan) (e : Entry) : Text :=
  markdown.take (removedRange markdown s e).1 ++ markdown.drop (removedRange markdown s e).2

theorem newline?_space {t rest : Text} (h : newline? t = some rest) (hrest : ∀ c ∈ rest, isJsSpace c = true) :
    ∀ c ∈ t, isJsSpace c = true := by
  intro c hc
  obtain rfl | rfl := newline?_cases h
  · obtain rfl | hc := List.mem_cons.mp hc
    · decide
    · exact hrest c hc
  · obtain rfl | hc := List.mem_cons.mp hc
    · decide
    obtain rfl | hc := List.mem_cons.mp hc
    · decide
    · exact hrest c hc

theorem newline?_length {t rest : Text} (h : newline? t = some rest) : ∃ u, t = u ++ rest ∧ IsEol u := by
  obtain rfl | rfl := newline?_cases h
  · exact ⟨lf, rfl, .inl rfl⟩
  · exact ⟨crlf, rfl, .inr rfl⟩

namespace Site
variable (site : Site numbers markdown key s e)

theorem noNewline_before : ∀ raw ∈ site.before, '\n' ∉ raw := fun raw hraw => site.noNewline raw (by simp [hraw])

theorem quiet_before (v : Text) : Quiet true (ended site.before) v ∧ startAfter true (ended site.before) = true := by
  have hquiet := site.block.quiet
  rw [quiet_append, quiet_append] at hquiet
  exact quiet_ended hquiet.1.1

theorem before_subset :
    site.before.map stripCr ⊆ splitLines ((markdown.take e.lineStart).drop s.yamlStart) := by
  have hlines := splitLines_append site.noNewline_before []
  rw [List.append_nil] at hlines
  rw [site.slice_before, hlines]
  exact List.subset_append_left _ _

theorem without_inner {r : Text} (hr : newline? site.tail = some r) (hlines : splitLines r = cutLines site.after) :
    Without site (cutEntry markdown s e) (ended site.before ++ r) := by
  obtain ⟨u, htail, heol⟩ := newline?_length hr
  have hrest : site.rest = u ++ (r ++ site.ending) := by
    rw [site.rest_tail, htail, List.append_assoc]
  have hdrop : markdown.drop (afterNewline markdown e.stop) = r ++ (site.ending ++ site.fence) := by
    apply drop_afterNewline
    rw [site.drop_stop, site.rest_tail, List.append_assoc]
    exact newline?_append hr _
  have hstop : e.stop < s.yamlEnd := by
    have hpos : 0 < site.tail.length := List.length_pos_iff.mpr fun hnil => by
      rw [hnil] at hr
      cases hr
    rw [site.yamlEnd_eq, site.stop_eq]
    simp only [List.length_append]
    omega
  refine ⟨?_, ⟨site.block.opens, ?_, ?_, site.block.closes⟩, ?_, ?_, ?_⟩
  · unfold cutEntry removedRange
    rw [if_pos hstop, hdrop, site.take_lineStart]
    simp
  · have hquiet := (quiet_append.mp site.block.quiet).2
    rw [hrest, quiet_append, heol.starts] at hquiet
    rw [List.append_assoc, quiet_append, (site.quiet_before []).2]
    exact ⟨(site.quiet_before _).1, hquiet.2⟩
  · have hstarts := site.block.starts
    rw [hrest, startAfter_append, startAfter_append, heol.starts] at hstarts
    rw [List.append_assoc, startAfter_append, (site.quiet_before []).2]
    exact hstarts
  · have hchopped : Chopped (ended site.before ++ entryText (site.raw :: site.conts) ++ site.tail) site.ending :=
      site.chopped
    rw [htail, ← List.append_assoc] at hchopped
    by_cases hr : r = []
    · rw [hr, List.append_nil] at hchopped ⊢
      obtain hending | ⟨hending, -⟩ | ⟨-, hlast⟩ := hchopped
      · exact .inl hending
      · refine .inr (.inl ⟨hending, ?_⟩)
        obtain hnil | ⟨w, hw⟩ := ended_last site.before
        · rw [hnil]
          simp
        · rw [hw, List.getLast?_concat]
          decide
      · refine absurd ?_ hlast
        obtain rfl | rfl := heol <;> simp [lf, crlf]
    · unfold Chopped at hchopped ⊢
      rw [List.getLast?_append_of_ne_nil _ hr] at hchopped ⊢
      exact hchopped
  · intro r'
    rw [splitLines_append site.noNewline_before, List.foldl_append, hlines]
  · intro hblank c hc
    obtain hc | hc := List.mem_append.mp hc
    · exact hblank c (List.mem_append_left _ hc)
    · exact newline?_space hr (fun d hd => hblank d (List.mem_append_right _ hd)) c hc

/-- The entry is the last one of several lines. -/
theorem without_last (htail : site.tail = []) (hafter : site.after = []) (hending : site.ending ≠ [])
    (hbefore : site.before ≠ []) {more : Text} (hnl : newline? (site.rest ++ site.fence) = some more)
    (hends : (markdown.take (removedRange markdown s e).1).getLast? = some '\r' → crlf <+: markdown.drop e.stop) :
    Without site (cutEntry markdown s e) (chop (ended site.before)) := by
  obtain ⟨init, last, hlast⟩ : ∃ init last, site.before = init ++ [last] :=
    ⟨_, _, (List.dropLast_append_getLast hbefore).symm⟩
  have hended : ended site.before = ended init ++ last ++ ['\n'] := by
    rw [hlast]
    simp [ended]
  have hchop : chop (ended site.before) = ended init ++ stripCr last := by
    rw [hended, chop_lf, stripCr_append]
    intro _
    obtain hnil | ⟨w, hw⟩ := ended_last init
    · rw [hnil]
      simp
    · rw [hw, List.getLast?_concat]
      decide
  have hstop : ¬ e.stop < s.yamlEnd := by
    rw [site.yamlEnd_eq, site.stop_eq, htail, List.append_nil]
    exact lt_irrefl _
  have hstart : s.yamlStart < e.lineStart := by
    rw [site.yamlStart, site.entry.lineStart, hended]
    simp only [List.length_append, List.length_cons]
    omega
  have htake : markdown.take (removedRange markdown s e).1 = site.opening ++ chop (ended site.before) := by
    have hline : markdown.take e.lineStart = site.opening ++ (ended init ++ last) ++ ['\n'] := by
      rw [site.take_lineStart, hended]
      simp
    have hopening : site.opening ≠ [] := by
      intro hnil
      have hlast := site.block.opening_last
      rw [hnil] at hlast
      cases hlast
    unfold removedRange
    rw [if_neg hstop, if_pos hstart]
    refine (take_beforeNewline hline (by simp [hopening])).trans ?_
    rw [stripCr_append, hended, chop_lf]
    intro _
    rw [site.block.opening_last]
    decide
  have hrest : site.rest = site.ending := by
    rw [site.rest_tail, htail]
    rfl
  rw [hrest] at hnl
  have hsplit : ended site.before = chop (ended site.before) ++ (crOf last ++ ['\n']) := by
    rw [hchop, hended]
    conv_lhs => rw [← stripCr_crOf last]
    simp
  refine ⟨?_, ⟨site.block.opens, ?_, ?_, site.block.closes⟩, ?_, ?_, ?_⟩
  · have hsnd : (removedRange markdown s e).2 = e.stop := by
      unfold removedRange
      rw [if_neg hstop, if_pos hstart]
    rw [cutEntry, htake, hsnd, site.drop_stop, hrest]
    simp
  · have hquiet := (site.quiet_before []).1
    rw [hsplit, quiet_append] at hquiet
    rw [quiet_append]
    refine ⟨hquiet.1.of_terminator ?_ (newline?_terminator hnl), Chopped.quiet site.chopped _ _⟩
    unfold crOf
    split <;> rfl
  · have hstarts := site.block.starts
    rw [hrest] at hstarts
    obtain ⟨c, rest, heq⟩ := List.exists_cons_of_ne_nil hending
    rw [heq, startAfter_append, startAfter_cons] at hstarts ⊢
    exact hstarts
  · obtain hcrlf | ⟨hlf, -⟩ | ⟨hnil, -⟩ := site.chopped
    · exact .inl hcrlf
    · refine .inr (.inl ⟨hlf, ?_⟩)
      intro hcr
      have hne : chop (ended site.before) ≠ [] := by
        intro hnil
        rw [hnil] at hcr
        cases hcr
      rw [htake, List.getLast?_append_of_ne_nil _ hne, site.drop_stop, hrest, hlf] at hends
      obtain ⟨more, hmore⟩ := hends hcr
      cases hmore
    · exact absurd hnil hending
  · intro r
    have hinit : ∀ raw ∈ init ++ [last], '\n' ∉ raw := by
      rw [← hlast]
      exact site.noNewline_before
    have hlines : splitLines (ended init ++ stripCr last) = init.map stripCr ++ [stripCr last] := by
      apply splitLines_ended
      intro raw hraw
      obtain hraw | hraw := List.mem_append.mp hraw
      · exact hinit raw (List.mem_append_left _ hraw)
      · rw [List.mem_singleton.mp hraw]
        exact fun hmem => hinit last (by simp) (stripCr_subset last hmem)
    rw [hchop, hlines, hafter, hlast, List.map_append]
    rfl
  · intro hblank c hc
    rw [htail, List.append_nil, hsplit] at hc
    obtain hc | hc := List.mem_append.mp hc
    · exact hblank c hc
    · unfold crOf at hc
      split at hc
      · obtain rfl | hc := List.mem_cons.mp hc
        · decide
        · rw [List.mem_singleton.mp hc]
          decide
      · rw [List.mem_singleton.mp hc]
        decide

theorem without_only (htail : site.tail = []) (hafter : site.after = []) (hending : site.ending ≠ [])
    (hbefore : site.before = []) : Without site (cutEntry markdown s e) [] := by
  have hstop : ¬ e.stop < s.yamlEnd := by
    rw [site.yamlEnd_eq, site.stop_eq, htail, List.append_nil]
    exact lt_irrefl _
  have hstart : ¬ s.yamlStart < e.lineStart := by
    rw [site.yamlStart, site.entry.lineStart, hbefore]
    exact lt_irrefl _
  have hrest : site.rest = site.ending := by
    rw [site.rest_tail, htail]
    rfl
  refine ⟨?_, ⟨site.block.opens, ?_, ?_, site.block.closes⟩, ?_, ?_, ?_⟩
  · unfold cutEntry removedRange
    rw [if_neg hstop, if_neg hstart, site.take_lineStart, site.drop_stop, hrest, hbefore]
    simp [ended]
  · exact Chopped.quiet site.chopped _ _
  · have hstarts := site.block.starts
    rw [hrest] at hstarts
    obtain ⟨c, rest, heq⟩ := List.exists_cons_of_ne_nil hending
    rw [heq, startAfter_append, startAfter_cons] at hstarts
    rw [heq, List.nil_append, startAfter_cons]
    exact hstarts
  · obtain hcrlf | ⟨hlf, -⟩ | ⟨hnil, -⟩ := site.chopped
    · exact .inl hcrlf
    · exact .inr (.inl ⟨hlf, by simp⟩)
    · exact absurd hnil hending
  · intro r
    rw [hafter, hbefore]
    exact @readLine_skipped ν numbers [] (by decide) r
  · intro _ c hc
    rw [hbefore, htail] at hc
    cases hc

theorem exists_without {more : Text} (hnl : newline? (site.rest ++ site.fence) = some more)
    (hends : (markdown.take (removedRange markdown s e).1).getLast? = some '\r' → crlf <+: markdown.drop e.stop) :
    ∃ yaml, Without site (cutEntry markdown s e) yaml := by
  obtain ⟨htail, hafter, hending⟩ | ⟨r, hr, hlines⟩ := site.tail_cases hnl
  · by_cases hbefore : site.before = []
    · exact ⟨_, site.without_only htail hafter hending hbefore⟩
    · exact ⟨_, site.without_last htail hafter hending hbefore hnl hends⟩
  · exact ⟨_, site.without_inner hr hlines⟩

end Site

theorem jsTrim_eq_nil {t : Text} : jsTrim t = [] ↔ ∀ c ∈ t, isJsSpace c = true := by
  rw [jsTrim, List.rdropWhile_eq_nil_iff]
  constructor
  · intro h c hc
    rw [← List.takeWhile_append_dropWhile (p := isJsSpace) (l := t)] at hc
    obtain hc | hc := List.mem_append.mp hc
    · exact List.mem_takeWhile_imp hc
    · exact h c hc
  · intro h c hc
    exact h c ((List.dropWhile_suffix _).subset hc)

theorem splitLines_mem {t line : Text} (h : line ∈ splitLines t) : line ⊆ t := by
  obtain ⟨init, last, rfl, hlf⟩ := exists_lines t
  rw [splitLines_ended hlf] at h
  intro c hc
  obtain h | h := List.mem_append.mp h
  · obtain ⟨raw, hraw, rfl⟩ := List.mem_map.mp h
    refine List.mem_append_left _ (List.mem_flatMap.mpr ⟨raw, hraw, ?_⟩)
    exact List.mem_append_left _ (stripCr_subset raw hc)
  · rw [List.mem_singleton.mp h] at hc
    exact List.mem_append_right _ hc

theorem foldl_blank {yaml : Text} (h : ∀ c ∈ yaml, isJsSpace c = true) (r : Reading ν) :
    (splitLines yaml).foldl (readLine numbers) r = r := by
  have hskip : ∀ line ∈ splitLines yaml, isSkipped line = true := by
    intro line hline
    have htrim := jsTrim_eq_nil.mpr fun c hc => h c (splitLines_mem hline hc)
    simp [isSkipped, htrim]
  generalize splitLines yaml = lines at hskip ⊢
  induction lines with
  | nil => rfl
  | cons line lines ih =>
    rw [List.foldl_cons, readLine_skipped (hskip line List.mem_cons_self)]
    exact ih fun l hl => hskip l (List.mem_cons_of_mem line hl)

theorem IsBlock.scan {opening lines fence body : Text} (h : IsBlock opening lines fence body) :
    ∃ s, scan numbers (opening ++ lines ++ fence) = some s ∧ s.yamlStart = opening.length ∧
      s.yamlEnd = opening.length + (chop lines).length ∧ (opening ++ lines ++ fence).drop s.blockEnd = body := by
  have hopen : afterOpen? (opening ++ lines ++ fence) = some (lines ++ fence) := by
    rw [List.append_assoc, h.opens]
  have hstart : (opening ++ lines ++ fence).length - (lines ++ fence).length = opening.length := by
    simp only [List.length_append]
    omega
  have hstrip := h.strip
  unfold stripFrontmatter at hstrip
  rw [h.findFrontmatter] at hstrip
  unfold Frontmatter.scan
  rw [h.findFrontmatter, Option.bind_some, hopen, Option.map_some]
  exact ⟨_, rfl, hstart, by rw [hstart], hstrip⟩

/-- The note without the entry, or its body alone when nothing is left in the block. -/
theorem remove_entry (hscan : scan numbers markdown = some s) (hfind : findEntry s key = some e)
    (h : Removable markdown key s e) :
    Leaves numbers key none markdown (removeFrontmatterKey numbers markdown key) := by
  obtain ⟨site⟩ := exists_site hscan hfind
  obtain ⟨⟨hkey, hnewline, hkeysBefore, hkeysAfter⟩, hends, hbody⟩ := h
  rw [site.token_eq] at hkey
  rw [site.drop_stop] at hnewline
  obtain ⟨more, hnl⟩ := Option.isSome_iff_exists.mp hnewline
  obtain ⟨yaml, hwithout⟩ := site.exists_without hnl hends
  have hstrip : stripFrontmatter markdown = site.body :=
    (congrArg stripFrontmatter site.markdown_eq).trans site.block.strip
  -- the lines that are left
  have hparse : parseFrontmatter numbers (cutEntry markdown s e) = ((splitLines yaml).foldl (readLine numbers)
      ⟨.empty, none⟩).props := by
    rw [hwithout.next_eq, hwithout.block.parse, hwithout.chopped.chop, parseFrontmatterYaml]
  have hbefore : ∀ line ∈ site.before.map stripCr, lineKey line ≠ some key :=
    fun line hline => hkeysBefore line (site.before_subset hline)
  have hafter : ∀ line ∈ cutLines site.after, lineKey line ≠ some key :=
    fun line hline => hkeysAfter line (site.cutLines_subset hnl hline)
  have hentry := site.foldl_conts hkey ((site.before.map stripCr).foldl (readLine numbers) ⟨.empty, none⟩)
  have hget : (parseFrontmatter numbers (cutEntry markdown s e)).get key = none := by
    rw [hparse, hwithout.reads, foldl_get_resets site.fresh.resets hafter, foldl_get (by simp) hbefore]
    rfl
  have hsame : SameBut key (parseFrontmatter numbers (cutEntry markdown s e)) (parseFrontmatter numbers markdown) := by
    rw [hparse, hwithout.reads, site.parse hnl]
    exact hentry.symm.foldl_resets site.fresh.resets
  -- the block that is left, or none
  obtain ⟨s', hscan', hstart, hend, hblockEnd⟩ := @IsBlock.scan ν numbers _ _ _ _ hwithout.block
  rw [← hwithout.next_eq] at hscan' hblockEnd
  have hslice : ((cutEntry markdown s e).take s'.yamlEnd).drop s'.yamlStart = yaml := by
    rw [hend, hstart, hwithout.chopped.chop, ← List.length_append, hwithout.next_eq, ← List.append_assoc,
      List.append_assoc (site.opening ++ yaml), List.take_left, List.drop_left]
  have hremove : removeFrontmatterKey numbers markdown key =
      if jsTrim yaml = [] then site.body else cutEntry markdown s e := by
    unfold removeFrontmatterKey
    rw [hscan]
    simp only [hfind]
    rw [← cutEntry, hscan']
    simp only [hslice, hblockEnd]
  rw [hremove]
  split
  · rename_i hblank
    have hspace := jsTrim_eq_nil.mp hblank
    have hnone : findFrontmatter site.body = none := by
      rw [← hstrip]
      apply hbody
      rw [site.slice_before, site.slice_behind, jsTrim_eq_nil]
      exact hwithout.blank hspace
    have hempty : parseFrontmatter numbers (cutEntry markdown s e) = .empty := by
      rw [hparse, foldl_blank hspace]
    have hparseBody : parseFrontmatter numbers site.body = .empty := by
      unfold parseFrontmatter
      rw [hnone]
    refine ⟨?_, ?_, ?_⟩
    · rw [hparseBody, KeyedMap.get_empty]
    · rw [hparseBody, ← hempty]
      exact hsame
    · rw [hstrip]
      unfold stripFrontmatter
      rw [hnone]
  · refine ⟨hget, hsame, ?_⟩
    rw [hwithout.next_eq, hwithout.block.strip, hstrip]

def RemovableAt (markdown key : Text) (s : Scan) : Option Entry → Prop
  | none => ∀ line ∈ splitLines ((markdown.take s.yamlEnd).drop s.yamlStart), lineKey line ≠ some key
  | some e => Removable markdown key s e

def RemovableIn (markdown key : Text) : Option Scan → Prop
  | none => True
  | some s => RemovableAt markdown key s (findEntry s key)

/-- When the key can be taken out of the note: an entry alone has it, or no line has it. -/
def CanRemove (numbers : Numbers ν) (markdown key : Text) : Prop :=
  RemovableIn markdown key (scan numbers markdown)

theorem get_of_noLine (hscan : scan numbers markdown = some s)
    (h : ∀ line ∈ splitLines ((markdown.take s.yamlEnd).drop s.yamlStart), lineKey line ≠ some key) :
    (parseFrontmatter numbers markdown).get key = none := by
  obtain ⟨opening, yaml, ending, fence, body, hmd, hblock, hchopped, hs⟩ := scan_some hscan
  have hslice : (markdown.take s.yamlEnd).drop s.yamlStart = yaml := by
    rw [hs, hmd]
    simp only [← List.length_append]
    rw [← List.append_assoc, List.append_assoc (opening ++ yaml), List.take_left, List.drop_left]
  rw [hslice] at h
  rw [hmd, hblock.parse, hchopped.chop, parseFrontmatterYaml, foldl_get (by simp) h, KeyedMap.get_empty]

theorem remove_correct (h : CanRemove numbers markdown key) :
    Leaves numbers key none markdown (removeFrontmatterKey numbers markdown key) := by
  unfold CanRemove at h
  cases hscan : scan numbers markdown with
  | none =>
    have hsame : removeFrontmatterKey numbers markdown key = markdown := by
      unfold removeFrontmatterKey
      rw [hscan]
    rw [hsame]
    refine ⟨?_, SameBut.refl key _, rfl⟩
    unfold parseFrontmatter
    rw [findFrontmatter_of_scan hscan]
    rfl
  | some s =>
    rw [hscan, RemovableIn] at h
    cases hfind : findEntry s key with
    | none =>
      rw [hfind] at h
      have hsame : removeFrontmatterKey numbers markdown key = markdown := by
        unfold removeFrontmatterKey
        rw [hscan]
        simp only [hfind]
      rw [hsame]
      exact ⟨get_of_noLine hscan h, SameBut.refl key _, rfl⟩
    | some e =>
      rw [hfind] at h
      exact remove_entry hscan hfind h

end Savoire.Frontmatter
