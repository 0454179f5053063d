import Savoire.Frontmatter.Remove

/-! Renaming a property of a note: its value and all else are as before. -/
namespace Savoire.Frontmatter
open VaultIndex

/-- One key by another name. -/
def renamed (old new key : Text) : Text := if key = old then new else key

theorem renamed_self (old new : Text) : renamed old new old = new := if_pos rfl

theorem renamed_of_ne {old new key : Text} (h : key ≠ old) : renamed old new key = key := if_neg h

theorem renamed_inj {old new a b : Text} (ha : a ≠ new) (hb : b ≠ new) (h : renamed old new a = renamed old new b) :
    a = b := by
  unfold renamed at h
  split at h
  · split at h
    · rename_i ha' hb'
      rw [ha', hb']
    · exact absurd h.symm hb
  · split at h
    · exact absurd h ha
    · exact h

variable {ν : Type} {numbers : Numbers ν}

/-- The same properties in the same order, one key by a new name. -/
structure Renames (old new : Text) (p p' : Props ν) : Prop where
  fresh : p.get new = none
  entries : p'.entries = p.entries.map fun e => (renamed old new e.1, e.2)

theorem Renames.ne {old new : Text} {p p' : Props ν} (h : Renames old new p p') {e : Text × FrontmatterValue ν}
    (he : e ∈ p.entries) : e.1 ≠ new := by
  intro heq
  exact KeyedMap.mem_keys.mp (List.mem_map.mpr ⟨e, he, heq⟩) h.fresh

theorem Renames.get {old new : Text} {p p' : Props ν} (h : Renames old new p p') {key : Text} (hkey : key ≠ new) :
    p'.get (renamed old new key) = p.get key :=
  KeyedMap.get_of_map h.entries fun _ he heq => renamed_inj (h.ne he) hkey heq

theorem Renames.get_old {old new : Text} {p p' : Props ν} (h : Renames old new p p') (hne : old ≠ new) :
    p'.get old = none := by
  by_contra hsome
  have hmem := KeyedMap.mem_keys.mpr hsome
  rw [h.entries, List.map_map] at hmem
  obtain ⟨e, -, heq⟩ := List.mem_map.mp hmem
  simp only [Function.comp_apply, renamed] at heq
  split at heq
  · exact hne heq.symm
  · contradiction

theorem renames_of_none {old new : Text} {p : Props ν} (hold : p.get old = none) (hnew : p.get new = none) :
    Renames old new p p := by
  refine ⟨hnew, ?_⟩
  conv_lhs => rw [← List.map_id p.entries]
  apply List.map_congr_left
  intro e he
  have hkey : e.1 ≠ old := by
    intro heq
    exact KeyedMap.mem_keys.mp (List.mem_map.mpr ⟨e, he, heq⟩) hold
  rw [renamed_of_ne hkey]
  rfl

/-- Two names that the reader treats alike. -/
structure Alike (old new : Text) : Prop where
  ne : old ≠ new
  old_ne_nil : old ≠ []
  new_ne_nil : new ≠ []
  old_ne_proto : old ≠ "__proto__".toList
  new_ne_proto : new ≠ "__proto__".toList

theorem Alike.proto {old new : Text} (h : Alike old new) (key : Text) :
    renamed old new key = "__proto__".toList ↔ key = "__proto__".toList := by
  unfold renamed
  split
  · rename_i heq
    rw [heq]
    exact ⟨fun hp => absurd hp h.new_ne_proto, fun hp => absurd hp h.old_ne_proto⟩
  · rfl

theorem Alike.nil {old new : Text} (h : Alike old new) (key : Text) : renamed old new key = [] ↔ key = [] := by
  unfold renamed
  split
  · rename_i heq
    rw [heq]
    exact ⟨fun hp => absurd hp h.new_ne_nil, fun hp => absurd hp h.old_ne_nil⟩
  · rfl

theorem Renames.assign {old new : Text} (hnames : Alike old new) {p p' : Props ν} (h : Renames old new p p')
    {key : Text} (hkey : key ≠ new) (value : FrontmatterValue ν) :
    Renames old new (Frontmatter.assign p key value) (Frontmatter.assign p' (renamed old new key) value) := by
  unfold Frontmatter.assign
  by_cases hp : key = "__proto__".toList
  · rw [if_pos hp, if_pos ((hnames.proto key).mpr hp)]
    exact h
  · rw [if_neg hp, if_neg (mt (hnames.proto key).mp hp)]
    constructor
    · rw [KeyedMap.get_set_ne (Ne.symm hkey)]
      exact h.fresh
    · exact KeyedMap.entries_set_of_map h.entries fun _ he heq => renamed_inj (h.ne he) hkey heq

theorem Renames.addItem {old new : Text} (hnames : Alike old new) {p p' : Props ν} (h : Renames old new p p')
    {key : Text} (hkey : key ≠ new) (raw : Text) :
    Renames old new (Frontmatter.addItem numbers p key raw)
      (Frontmatter.addItem numbers p' (renamed old new key) raw) := by
  unfold Frontmatter.addItem
  rw [h.get hkey]
  exact h.assign hnames hkey _

structure Follows (old new : Text) (r r' : Reading ν) : Prop where
  props : Renames old new r.props r'.props
  fresh : r.listKey ≠ some new
  listKey : r'.listKey = r.listKey.map (renamed old new)

theorem Follows.readKeyLine {old new : Text} (hnames : Alike old new) {p p' : Props ν} (h : Renames old new p p')
    {line : Text} (hold : lineKey line ≠ some old) (hnew : lineKey line ≠ some new) :
    Follows old new (Frontmatter.readKeyLine numbers p line) (Frontmatter.readKeyLine numbers p' line) := by
  unfold Frontmatter.readKeyLine
  unfold lineKey at hold hnew
  cases hline : keyLine line with
  | none => exact ⟨h, by simp, rfl⟩
  | some kv =>
    obtain ⟨token, inline⟩ := kv
    rw [hline] at hold hnew
    have hkey : parseKey token ≠ old := fun heq => hold (congrArg some heq)
    have hkey' : parseKey token ≠ new := fun heq => hnew (congrArg some heq)
    have hself : renamed old new (parseKey token) = parseKey token := renamed_of_ne hkey
    simp only
    cases readValue numbers (jsTrim (inline.getD [])) with
    | none => exact ⟨h, by simp, rfl⟩
    | some v =>
      have hassign := h.assign hnames hkey' v
      rw [hself] at hassign
      refine ⟨hassign, ?_, ?_⟩
      · simp only
        split
        · exact fun heq => hkey' (Option.some.inj heq)
        · simp
      · simp only
        split
        · rw [Option.map_some, hself]
        · rfl

theorem Follows.readLine {old new : Text} (hnames : Alike old new) {r r' : Reading ν} (h : Follows old new r r')
    {line : Text} (hold : lineKey line ≠ some old) (hnew : lineKey line ≠ some new) :
    Follows old new (Frontmatter.readLine numbers r line) (Frontmatter.readLine numbers r' line) := by
  have hfilter : r'.listKey.filter (· ≠ []) = (r.listKey.filter (· ≠ [])).map (renamed old new) := by
    rw [h.listKey]
    cases r.listKey with
    | none => rfl
    | some key =>
      by_cases hkey : key = []
      · subst hkey
        have hnil := (hnames.nil []).mpr rfl
        rw [Option.map_some, hnil]
        rfl
      · have hnil := mt (hnames.nil key).mp hkey
        rw [Option.map_some, Option.filter_some, Option.filter_some, if_pos (by simpa using hnil),
          if_pos (by simpa using hkey)]
        rfl
  have hkey := @readKeyLine ν numbers old new hnames _ _ h.props line hold hnew
  unfold Frontmatter.readLine
  rw [hfilter]
  split
  · exact h
  · cases hlist : r.listKey.filter (· ≠ []) with
    | none =>
      simp only [Option.map_none]
      split
      · exact h
      · exact hkey
    | some key =>
      cases item? line with
      | none =>
        simp only [Option.map_some]
        split
        · exact h
        · exact hkey
      | some raw =>
        have hsome := (Option.filter_eq_some_iff.mp hlist).1
        have hne : key ≠ new := fun heq => h.fresh (heq ▸ hsome)
        exact ⟨h.props.addItem hnames hne raw, h.fresh, h.listKey⟩

theorem Follows.foldl {old new : Text} (hnames : Alike old new) {r r' : Reading ν} (h : Follows old new r r')
    {lines : List Text} (hold : ∀ line ∈ lines, lineKey line ≠ some old)
    (hnew : ∀ line ∈ lines, lineKey line ≠ some new) :
    Follows old new (lines.foldl (Frontmatter.readLine numbers) r) (lines.foldl (Frontmatter.readLine numbers) r') := by
  induction lines generalizing r r' with
  | nil => exact h
  | cons line lines ih =>
    have hnext := @Follows.readLine ν numbers old new hnames r r' h line (hold line List.mem_cons_self)
      (hnew line List.mem_cons_self)
    exact ih hnext (fun l hl => hold l (List.mem_cons_of_mem line hl)) fun l hl => hnew l (List.mem_cons_of_mem line hl)

theorem follows_entry {old new : Text} (hnames : Alike old new) {p : Props ν} (hold : p.get old = none)
    (hnew : p.get new = none) {line line' token token' : Text} {inline : Option Text}
    (hline : keyLine line = some (token, inline)) (hkey : parseKey token = old)
    (hline' : keyLine line' = some (token', inline)) (hkey' : parseKey token' = new) :
    Follows old new (readKeyLine numbers p line) (readKeyLine numbers p line') := by
  have hprops := renames_of_none hold hnew
  unfold readKeyLine
  rw [hline, hline']
  simp only [hkey, hkey']
  cases readValue numbers (jsTrim (inline.getD [])) with
  | none => exact ⟨hprops, by simp, rfl⟩
  | some v =>
    have hassign := hprops.assign hnames hnames.ne v
    rw [renamed_self] at hassign
    refine ⟨hassign, ?_, ?_⟩
    · simp only
      split
      · exact fun heq => hnames.ne (Option.some.inj heq)
      · simp
    · simp only
      split
      · rw [Option.map_some, renamed_self]
      · rfl

theorem splitLines_prepend {p u l : Text} {ls : List Text} (hp : '\n' ∉ p) (hu : u.head? ≠ some '\n')
    (h : splitLines u = l :: ls) : splitLines (p ++ u) = (p ++ l) :: ls := by
  obtain ⟨init, last, rfl, hlf⟩ := exists_lines u
  rw [splitLines_ended hlf] at h
  cases init with
  | nil =>
    obtain ⟨rfl, rfl⟩ := List.cons.inj h
    have hline : ∀ raw ∈ [] ++ [p ++ last], '\n' ∉ raw := by
      intro raw hraw
      rw [List.mem_singleton.mp hraw]
      exact List.not_mem_append hp (hlf last (by simp))
    exact splitLines_ended hline
  | cons raw init =>
    obtain ⟨rfl, rfl⟩ := List.cons.inj h
    have hraw : raw ≠ [] := by
      rintro rfl
      exact hu rfl
    have hlines : ∀ raw' ∈ ((p ++ raw) :: init) ++ [last], '\n' ∉ raw' := by
      intro raw' hraw'
      obtain rfl | hraw' := List.mem_cons.mp hraw'
      · exact List.not_mem_append hp (hlf raw (by simp))
      · exact hlf raw' (List.mem_cons_of_mem raw hraw')
    have hsplit := splitLines_ended hlines
    rw [List.map_cons, stripCr_append fun hnil => absurd hnil hraw] at hsplit
    refine Eq.trans ?_ hsplit
    rw [ended_cons, ended_cons]
    simp

structure Renamable (markdown old new : Text) (s : Scan) (e : Entry) : Prop where
  only : OnlyEntry markdown old s e
  names : Alike old new
  trimmed : jsTrim new = new
  written : KeyWritten new
  before (line : Text) : line ∈ splitLines ((markdown.take e.lineStart).drop s.yamlStart) → lineKey line ≠ some new
  behind (line : Text) : line ∈ splitLines ((markdown.take s.yamlEnd).drop e.stop) → lineKey line ≠ some new

theorem splitLines_ne_nil (t : Text) : splitLines t ≠ [] := by
  obtain ⟨init, last, rfl, hlf⟩ := exists_lines t
  rw [splitLines_ended hlf]
  simp

namespace Site
variable {markdown key : Text} {s : Scan} {e : Entry} (site : Site numbers markdown key s e) {t token : Text}
  (ht : entryText (site.raw :: site.conts) = site.token ++ ':' :: t)
include ht

theorem quiet_renamed (hquiet : Quiet true (token ++ [':']) []) :
    Quiet true (token ++ ':' :: t) (site.rest ++ site.fence) := by
  have hentry := (quiet_append.mp (quiet_append.mp site.block.quiet).1).2
  have hsplit (u : Text) : u ++ ':' :: t = u ++ [':'] ++ t := by simp
  rw [ht, hsplit, quiet_append, startAfter_concat] at hentry
  rw [hsplit, quiet_append, startAfter_concat]
  exact ⟨hquiet.congr (by decide) _, hentry.2⟩

theorem getLast_renamed (u w : Text) :
    (u ++ (token ++ ':' :: t) ++ w).getLast? = (u ++ entryText (site.raw :: site.conts) ++ w).getLast? := by
  have hsplit (tok : Text) : u ++ (tok ++ ':' :: t) ++ w = u ++ tok ++ (':' :: t ++ w) := by simp
  have hne : ':' :: t ++ w ≠ [] := List.cons_ne_nil _ _
  rw [ht, hsplit, hsplit, List.getLast?_append_of_ne_nil _ hne, List.getLast?_append_of_ne_nil _ hne]

theorem chopped_renamed : Chopped (ended site.before ++ (token ++ ':' :: t) ++ site.tail) site.ending := by
  have hchopped : Chopped (ended site.before ++ entryText (site.raw :: site.conts) ++ site.tail) site.ending :=
    site.chopped
  unfold Chopped at hchopped ⊢
  rw [site.getLast_renamed ht]
  exact hchopped

theorem splitLines_renamed (htoken : '\n' ∉ token) : ∃ t', stripCr site.raw = site.token ++ ':' :: t' ∧
    afterMark? t' = some site.inline ∧
    splitLines (token ++ ':' :: t) = (token ++ ':' :: t') :: site.conts.map stripCr := by
  obtain ⟨t', hraw, hmark, -⟩ := keyLine_some site.entry.line
  obtain ⟨l, ls, hl⟩ := List.exists_cons_of_ne_nil (splitLines_ne_nil (':' :: t))
  have hentry := site.splitLines_entry
  rw [ht, splitLines_prepend site.noNewline_token (by simp) hl] at hentry
  obtain ⟨hfirst, hrest⟩ := List.cons.inj hentry
  have hcolon : l = ':' :: t' := List.append_cancel_left (hfirst.trans hraw)
  refine ⟨t', hraw, hmark, ?_⟩
  rw [splitLines_prepend htoken (by simp) hl, hcolon, hrest]

end Site

variable {markdown old new : Text} {s : Scan} {e : Entry}

/-- The entry under its new name, what stands after the key as before. -/
theorem rename_entry (hscan : scan numbers markdown = some s) (hfind : findEntry s old = some e)
    (hnone : findEntry s new = none) (h : Renamable markdown old new s e) :
    Renames old new (parseFrontmatter numbers markdown)
        (parseFrontmatter numbers (renameFrontmatterKey numbers markdown old new)) ∧
      stripFrontmatter (renameFrontmatterKey numbers markdown old new) = stripFrontmatter markdown := by
  obtain ⟨site⟩ := exists_site hscan hfind
  obtain ⟨⟨hkey, hnewline, hkeysBefore, hkeysAfter⟩, hnames, htrim, hwritten, hnewBefore, hnewAfter⟩ := h
  rw [site.token_eq] at hkey
  rw [site.drop_stop] at hnewline
  obtain ⟨more, hnl⟩ := Option.isSome_iff_exists.mp hnewline
  obtain ⟨t, ht⟩ := site.entry_token
  have hset : renameFrontmatterKey numbers markdown old new = site.opening ++
      (ended site.before ++ (formatYamlKey new ++ ':' :: t) ++ site.rest) ++ site.fence := by
    have hkeyEnd : markdown.drop e.keyEnd = ':' :: t ++ (site.rest ++ site.fence) := by
      have hsplit : markdown = site.opening ++ ended site.before ++ site.token ++
          (':' :: t ++ (site.rest ++ site.fence)) := site.markdown_split.trans (by simp [ht])
      rw [site.entry.keyEnd, site.entry.lineStart, ← List.length_append, ← List.length_append]
      exact (congrArg (List.drop _) hsplit).trans List.drop_left
    have hempty : ¬ (old = new ∨ jsTrim new = []) := by
      rw [htrim, not_or]
      exact ⟨hnames.ne, hnames.new_ne_nil⟩
    unfold renameFrontmatterKey
    rw [hscan]
    simp only [hfind]
    rw [if_neg hempty, hnone, if_neg (by simp), hkeyEnd, site.entry.keyStart, site.take_lineStart, htrim]
    simp
  have hblock := site.block.replace hnl (site.quiet_renamed ht hwritten.quiet)
  have hchop : chop (ended site.before ++ (formatYamlKey new ++ ':' :: t) ++ site.rest) =
      ended site.before ++ (formatYamlKey new ++ ':' :: t) ++ site.tail := by
    rw [site.rest_tail, ← List.append_assoc]
    exact (site.chopped_renamed ht).chop
  -- the lines of the reader: those of the note, the token of one apart
  obtain ⟨t', hraw, hmark, hlines⟩ := site.splitLines_renamed ht hwritten.noNewline
  have hlast : (formatYamlKey new ++ ':' :: t).getLast? = some '\r' → site.tail.head? ≠ some '\n' := by
    intro hlast
    apply site.entry_last
    have hsame := @Site.getLast_renamed ν numbers _ _ _ _ site t (formatYamlKey new) ht [] []
    simp only [List.nil_append, List.append_nil] at hsame
    rw [← hsame, hlast]
  have hparse : parseFrontmatter numbers (renameFrontmatterKey numbers markdown old new) =
      ((site.conts.map stripCr ++ cutLines site.after).foldl (readLine numbers)
        (readLine numbers ((site.before.map stripCr).foldl (readLine numbers) ⟨.empty, none⟩)
          (formatYamlKey new ++ ':' :: t'))).props := by
    rw [hset, hblock.parse, hchop, parseFrontmatterYaml, site.splitLines_replaced hnl hlast, hlines, List.foldl_append]
    rfl
  have hold : parseFrontmatter numbers markdown =
      ((site.conts.map stripCr ++ cutLines site.after).foldl (readLine numbers)
        (readLine numbers ((site.before.map stripCr).foldl (readLine numbers) ⟨.empty, none⟩)
          (stripCr site.raw))).props := by
    rw [site.parse hnl, List.foldl_append]
    rfl
  have hline := site.entry.line
  have hline' := keyLine_token hwritten.token hmark
  constructor
  · rw [hparse, hold, readLine_keyLine hline, readLine_keyLine hline']
    have hbefore (key : Text) (hkeys : ∀ line ∈ site.before.map stripCr, lineKey line ≠ some key) :
        ((site.before.map stripCr).foldl (readLine numbers) ⟨.empty, none⟩).props.get key = none := by
      rw [foldl_get (by simp) hkeys, KeyedMap.get_empty]
    have hentry := @follows_entry ν numbers old new hnames _
      (hbefore old fun line hl => hkeysBefore line (site.before_subset hl))
      (hbefore new fun line hl => hnewBefore line (site.before_subset hl)) _ _ _ _ _ hline hkey hline' hwritten.key_eq
    have hkeys (key : Text) (hkeys : ∀ line ∈ cutLines site.after, lineKey line ≠ some key) :
        ∀ line ∈ site.conts.map stripCr ++ cutLines site.after, lineKey line ≠ some key := by
      intro line hline
      obtain hline | hline := List.mem_append.mp hline
      · rw [lineKey, site.conts_noKey line hline]
        simp
      · exact hkeys line hline
    exact (hentry.foldl hnames (hkeys old fun line hl => hkeysAfter line (site.cutLines_subset hnl hl))
      (hkeys new fun line hl => hnewAfter line (site.cutLines_subset hnl hl))).props
  · rw [hset, hblock.strip]
    exact (congrArg stripFrontmatter site.markdown_eq).trans site.block.strip |>.symm

def RenamableAt (markdown old new : Text) (s : Scan) : Option Entry → Prop
  | none => False
  | some e => findEntry s new = none ∧ Renamable markdown old new s e

def RenamableIn (markdown old new : Text) : Option Scan → Prop
  | none => False
  | some s => RenamableAt markdown old new s (findEntry s old)

/-- When the key can be renamed: one entry alone has it, and none has the new name, which reads back. -/
def CanRename (numbers : Numbers ν) (markdown old new : Text) : Prop :=
  RenamableIn markdown old new (scan numbers markdown)

theorem rename_correct (h : CanRename numbers markdown old new) :
    Renames old new (parseFrontmatter numbers markdown)
        (parseFrontmatter numbers (renameFrontmatterKey numbers markdown old new)) ∧
      stripFrontmatter (renameFrontmatterKey numbers markdown old new) = stripFrontmatter markdown ∧ old ≠ new := by
  unfold CanRename at h
  cases hscan : scan numbers markdown with
  | none =>
    rw [hscan] at h
    exact h.elim
  | some s =>
    rw [hscan, RenamableIn] at h
    cases hfind : findEntry s old with
    | none =>
      rw [hfind] at h
      exact h.elim
    | some e =>
      rw [hfind] at h
      obtain ⟨hprops, hbody⟩ := rename_entry hscan hfind h.1 h.2
      exact ⟨hprops, hbody, h.2.names.ne⟩

/-- Taken out, a key is gone; renamed, its value and its place are those of the new name. The other keys and the
body stay. -/
theorem removed_and_renamed {note key : Text} (hremove : CanRemove numbers note key)
    (hrename : CanRename numbers markdown old new) :
    ((parseFrontmatter numbers (removeFrontmatterKey numbers note key)).get key = none ∧
      (∀ other, other ≠ key → (parseFrontmatter numbers (removeFrontmatterKey numbers note key)).get other =
        (parseFrontmatter numbers note).get other) ∧
      stripFrontmatter (removeFrontmatterKey numbers note key) = stripFrontmatter note) ∧
    (parseFrontmatter numbers (renameFrontmatterKey numbers markdown old new)).get old = none ∧
      (parseFrontmatter numbers (renameFrontmatterKey numbers markdown old new)).get new =
        (parseFrontmatter numbers markdown).get old ∧
      (∀ other, other ≠ old → other ≠ new →
        (parseFrontmatter numbers (renameFrontmatterKey numbers markdown old new)).get other =
          (parseFrontmatter numbers markdown).get other) ∧
      (parseFrontmatter numbers (renameFrontmatterKey numbers markdown old new)).entries.map Prod.fst =
        (parseFrontmatter numbers markdown).entries.map (fun e => if e.1 = old then new else e.1) ∧
      stripFrontmatter (renameFrontmatterKey numbers markdown old new) = stripFrontmatter markdown := by
  obtain ⟨hprops, hbody, hne⟩ := rename_correct hrename
  refine ⟨remove_correct hremove, hprops.get_old hne, ?_, ?_, ?_, hbody⟩
  · have hget := hprops.get hne
    rwa [renamed_self] at hget
  · intro other hold hnew
    have hget := hprops.get hnew
    rwa [renamed_of_ne hold] at hget
  · rw [hprops.entries, List.map_map]
    rfl

instance (key markdown : Text) (s : Scan) (e : Entry) : Decidable (OnlyEntry markdown key s e) :=
  decidable_of_iff (parseKey ((markdown.take e.keyEnd).drop e.keyStart) = key ∧
      (newline? (markdown.drop e.stop)).isSome = true ∧
      (∀ line ∈ splitLines ((markdown.take e.lineStart).drop s.yamlStart), lineKey line ≠ some key) ∧
      ∀ line ∈ splitLines ((markdown.take s.yamlEnd).drop e.stop), lineKey line ≠ some key)
    ⟨fun ⟨hkey, hnewline, hbefore, hbehind⟩ => ⟨hkey, hnewline, hbefore, hbehind⟩,
      fun ⟨hkey, hnewline, hbefore, hbehind⟩ => ⟨hkey, hnewline, hbefore, hbehind⟩⟩

instance (key markdown : Text) (s : Scan) (e : Entry) : Decidable (Removable markdown key s e) :=
  decidable_of_iff (OnlyEntry markdown key s e ∧
      ((markdown.take (removedRange markdown s e).1).getLast? = some '\r' → crlf <+: markdown.drop e.stop) ∧
      (jsTrim ((markdown.take e.lineStart).drop s.yamlStart ++ (markdown.take s.yamlEnd).drop e.stop) = [] →
        findFrontmatter (stripFrontmatter markdown) = none))
    ⟨fun ⟨honly, hends, hbody⟩ => ⟨honly, hends, hbody⟩, fun ⟨honly, hends, hbody⟩ => ⟨honly, hends, hbody⟩⟩

instance (key markdown : Text) (s : Scan) : (found : Option Entry) → Decidable (RemovableAt markdown key s found)
  | none => inferInstanceAs (Decidable
      (∀ line ∈ splitLines ((markdown.take s.yamlEnd).drop s.yamlStart), lineKey line ≠ some key))
  | some e => inferInstanceAs (Decidable (Removable markdown key s e))

instance (key markdown : Text) : (scanned : Option Scan) → Decidable (RemovableIn markdown key scanned)
  | none => isTrue trivial
  | some s => inferInstanceAs (Decidable (RemovableAt markdown key s (findEntry s key)))

instance (key markdown : Text) : Decidable (CanRemove numbers markdown key) :=
  inferInstanceAs (Decidable (RemovableIn markdown key (scan numbers markdown)))

instance (old new : Text) : Decidable (Alike old new) :=
  decidable_of_iff (old ≠ new ∧ old ≠ [] ∧ new ≠ [] ∧ old ≠ "__proto__".toList ∧ new ≠ "__proto__".toList)
    ⟨fun ⟨hne, hold, hnew, holdProto, hnewProto⟩ => ⟨hne, hold, hnew, holdProto, hnewProto⟩,
      fun ⟨hne, hold, hnew, holdProto, hnewProto⟩ => ⟨hne, hold, hnew, holdProto, hnewProto⟩⟩

instance (markdown old new : Text) (s : Scan) (e : Entry) : Decidable (Renamable markdown old new s e) :=
  decidable_of_iff (OnlyEntry markdown old s e ∧ Alike old new ∧ jsTrim new = new ∧ KeyWritten new ∧
      (∀ line ∈ splitLines ((markdown.take e.lineStart).drop s.yamlStart), lineKey line ≠ some new) ∧
      ∀ line ∈ splitLines ((markdown.take s.yamlEnd).drop e.stop), lineKey line ≠ some new)
    ⟨fun ⟨honly, hnames, htrim, hwritten, hbefore, hbehind⟩ => ⟨honly, hnames, htrim, hwritten, hbefore, hbehind⟩,
      fun ⟨honly, hnames, htrim, hwritten, hbefore, hbehind⟩ => ⟨honly, hnames, htrim, hwritten, hbefore, hbehind⟩⟩

instance (markdown old new : Text) (s : Scan) : (found : Option Entry) → Decidable (RenamableAt markdown old new s found)
  | none => isFalse id
  | some e => inferInstanceAs (Decidable (findEntry s new = none ∧ Renamable markdown old new s e))

instance (markdown old new : Text) : (scanned : Option Scan) → Decidable (RenamableIn markdown old new scanned)
  | none => isFalse id
  | some s => inferInstanceAs (Decidable (RenamableAt markdown old new s (findEntry s old)))

instance (markdown old new : Text) : Decidable (CanRename numbers markdown old new) :=
  inferInstanceAs (Decidable (RenamableIn markdown old new (scan numbers markdown)))

theorem removed_and_renamed_sample :
    stripFrontmatter (removeFrontmatterKey digits sampleNote "tags".toList) = stripFrontmatter sampleNote ∧
      (parseFrontmatter digits (renameFrontmatterKey digits sampleNote "tags".toList "labels".toList)).get
        "labels".toList = (parseFrontmatter digits sampleNote).get "tags".toList :=
  have hboth := removed_and_renamed (show CanRemove digits sampleNote "tags".toList by decide +kernel)
    (show CanRename digits sampleNote "tags".toList "labels".toList by decide +kernel)
  ⟨hboth.1.2.2, hboth.2.2.1⟩

/-- A name with a blank at its end passes for a new one, and masks the property that has it. -/
theorem rename_masks : (parseFrontmatter digits (renameFrontmatterKey digits "---\nb: x\na: y\n---\n".toList
    "a".toList "b ".toList)).get "b".toList ≠
      (parseFrontmatter digits "---\nb: x\na: y\n---\n".toList).get "b".toList := by
  decide +kernel

end Savoire.Frontmatter
