import Savoire.Frontmatter.Lines

/-! What the scanner finds: each entry is a line of a key and the lines that go with it. -/
namespace Savoire.Frontmatter
open VaultIndex

/-- Spaces, a dash and spaces. -/
def IsItemMark (mark : Text) : Prop :=
  ∃ u v, mark = u ++ '-' :: v ∧ (∀ c ∈ u, isJsSpace c = true) ∧ (∀ c ∈ v, isJsSpace c = true) ∧ v ≠ []

variable {line : Text}

theorem isItemMark_of_itemMark? {mark : Text} (h : itemMark? line = some mark) :
    IsItemMark mark ∧ mark ⊆ line := by
  unfold itemMark? at h
  split at h
  · rename_i t hdrop
    split at h
    · cases h
    · rename_i hne
      obtain rfl := Option.some.inj h
      refine ⟨⟨_, _, rfl, fun c hc => List.mem_takeWhile_imp hc, fun c hc => List.mem_takeWhile_imp hc, hne⟩, ?_⟩
      have hline := List.takeWhile_append_dropWhile (p := isJsSpace) (l := line)
      rw [hdrop] at hline
      intro c hc
      rw [← hline]
      obtain hc | hc := List.mem_append.1 hc
      · exact List.mem_append_left _ hc
      · refine List.mem_append_right _ ?_
        obtain rfl | hc := List.mem_cons.1 hc
        · exact List.mem_cons_self
        · exact List.mem_cons_of_mem _ ((List.takeWhile_sublist _).subset hc)
  · cases h

theorem stripCr_subset (line : Text) : stripCr line ⊆ line := by
  unfold stripCr
  split
  · exact List.dropLast_subset line
  · exact List.Subset.refl line

def entryText : List Text → Text
  | [] => []
  | [last] => stripCr last
  | raw :: rest => raw ++ '\n' :: entryText rest

theorem entryText_concat (init : List Text) (last : Text) : entryText (init ++ [last]) = ended init ++ stripCr last := by
  induction init with
  | nil => rfl
  | cons raw init ih =>
    obtain ⟨next, rest, hrest⟩ := List.exists_cons_of_ne_nil (by simp : init ++ [last] ≠ [])
    rw [List.cons_append, hrest, entryText, ← hrest, ih, ended_cons]
    · simp
    · simp

variable {ν : Type} (numbers : Numbers ν)

def GoesOn (raw : Text) : Prop :=
  keyLine (stripCr raw) = none ∧ (isContinuation (stripCr raw) = true ∨ isSkipped (stripCr raw) = true)

/-- An entry whose first line, with the token of its key and the text after the colon, follows the lines
`before`. -/
structure IsEntry (start : Nat) (e : Entry) (before : List Text) (raw token : Text) (inline : Option Text)
    (conts : List Text) : Prop where
  line : keyLine (stripCr raw) = some (token, inline)
  key : e.key = readKey numbers token
  lineStart : e.lineStart = start + (ended before).length
  keyStart : e.keyStart = e.lineStart
  keyEnd : e.keyEnd = e.lineStart + token.length
  value : e.inline = jsTrim (inline.getD [])
  goesOn : ∀ l ∈ conts, GoesOn l
  stop : e.stop = e.lineStart + (entryText (raw :: conts)).length
  mark (mark : Text) : e.itemPrefix = some mark → IsItemMark mark ∧ ∃ l ∈ conts, mark ⊆ l

def Fresh : List Text → Prop
  | [] => True
  | raw :: rest => if isSkipped (stripCr raw) then Fresh rest else isContinuation (stripCr raw) = false

def Idle (raws : List Text) : Prop := ∀ raw ∈ raws, keyLine (stripCr raw) = none ∧ isSkipped (stripCr raw) = true

variable {raws : List Text}

theorem Idle.fresh (h : Idle raws) (raw : Text)
    (hraw : isSkipped (stripCr raw) = false → isContinuation (stripCr raw) = false) : Fresh (raws ++ [raw]) := by
  induction raws with
  | nil =>
    rw [List.nil_append, Fresh]
    split
    · trivial
    · rename_i hskip
      exact hraw (by simpa using hskip)
  | cons first raws ih =>
    rw [List.cons_append, Fresh, if_pos (h first List.mem_cons_self).2]
    exact ih fun l hl => h l (List.mem_cons_of_mem _ hl)

/-- A line that is not skipped ends an entry for good. -/
def Over (raws : List Text) : Prop := Fresh raws ∧ ∃ raw ∈ raws, isSkipped (stripCr raw) = false

theorem Over.concat (h : Over raws) (raw : Text) : Over (raws ++ [raw]) := by
  obtain ⟨hfresh, l, hl, hskip⟩ := h
  refine ⟨?_, l, List.mem_append_left _ hl, hskip⟩
  induction raws with
  | nil => simp at hl
  | cons first raws ih =>
    rw [Fresh] at hfresh
    rw [List.cons_append, Fresh]
    split
    · rename_i hfirst
      rw [if_pos hfirst] at hfresh
      obtain rfl | hl := List.mem_cons.1 hl
      · rw [hskip] at hfirst
        cases hfirst
      · exact ih hfresh hl
    · rename_i hfirst
      rwa [if_neg hfirst] at hfresh

variable {raw : Text}

theorem Idle.over (h : Idle raws) (hskip : isSkipped (stripCr raw) = false)
    (hcont : isContinuation (stripCr raw) = false) : Over (raws ++ [raw]) :=
  ⟨h.fresh raw fun _ => hcont, raw, by simp, hskip⟩

def FoundIn (start : Nat) (raws : List Text) (current : Bool) (e : Entry) : Prop :=
  ∃ before raw token inline conts after, raws = before ++ (raw :: conts) ++ after ∧
    IsEntry numbers start e before raw token inline conts ∧ if current then Idle after else Over after

variable {token : Text} {inline : Option Text}

theorem bareKey?_some (h : bareKey? line = some (token, inline)) :
    ∃ c rest t, line = c :: rest ++ ':' :: t ∧ token = c :: rest ∧ ':' ∉ rest ∧ isJsSpace c = false ∧ c ≠ ':' ∧ c ≠ '#' ∧
      c ≠ '-' ∧ afterMark? t = some inline := by
  unfold bareKey? at h
  split at h
  · cases h
  · rename_i c rest
    split at h
    · cases h
    · rename_i hc
      simp only [Bool.or_eq_true, beq_iff_eq, not_or, Bool.not_eq_true] at hc
      obtain ⟨⟨⟨hspace, hcolon⟩, hhash⟩, hdash⟩ := hc
      split at h
      · cases h
      · rename_i d t hdrop
        obtain ⟨v, hv, heq⟩ := Option.map_eq_some_iff.1 h
        obtain ⟨rfl, rfl⟩ := Prod.mk.inj heq
        have hd : d = ':' := by
          have hhead := List.head?_dropWhile_not (· ≠ ':') rest
          rw [hdrop] at hhead
          simpa using hhead
        refine ⟨c, _, t, ?_, rfl, ?_, hspace, hcolon, hhash, hdash, hv⟩
        · have hsplit := List.takeWhile_append_dropWhile (p := (· ≠ ':')) (l := rest)
          rw [hdrop, hd] at hsplit
          rw [List.cons_append, hsplit]
        · intro hmem
          simpa using List.mem_takeWhile_imp hmem

theorem quotedKey?_some {q : Char} (h : quotedKey? q line = some (token, inline)) :
    ∃ inner t, line = q :: (inner ++ [q]) ++ ':' :: t ∧ token = q :: (inner ++ [q]) ∧ q ∉ inner ∧ inner ≠ [] ∧
      afterMark? t = some inline := by
  unfold quotedKey? at h
  split at h
  · cases h
  · rename_i c rest
    split at h
    · rename_i hq
      obtain ⟨rfl, hne⟩ := hq
      split at h
      · rename_i d t hdrop
        obtain ⟨v, hv, heq⟩ := Option.map_eq_some_iff.1 h
        obtain ⟨rfl, rfl⟩ := Prod.mk.inj heq
        have hd : d = c := by
          have hhead := List.head?_dropWhile_not (· ≠ c) rest
          rw [hdrop] at hhead
          simpa using hhead
        refine ⟨_, t, ?_, rfl, ?_, hne, hv⟩
        · have hsplit := List.takeWhile_append_dropWhile (p := (· ≠ c)) (l := rest)
          rw [hdrop, hd] at hsplit
          simp only [List.cons_append, List.append_assoc, List.nil_append]
          rw [hsplit]
        · intro hmem
          simpa using List.mem_takeWhile_imp hmem
      · cases h
    · cases h

theorem keyLine_some (h : keyLine line = some (token, inline)) :
    ∃ t, line = token ++ ':' :: t ∧ afterMark? t = some inline ∧
      ∃ c rest, token = c :: rest ∧ isJsSpace c = false ∧ c ≠ '#' ∧ c ≠ '-' := by
  obtain h | ⟨-, h⟩ := Option.or_eq_some_iff.1 h
  · obtain ⟨c, rest, t, rfl, rfl, -, hspace, -, hhash, hdash, hafter⟩ := bareKey?_some h
    exact ⟨t, rfl, hafter, c, rest, rfl, hspace, hhash, hdash⟩
  · obtain h | ⟨-, h⟩ := Option.or_eq_some_iff.1 h
    · obtain ⟨inner, t, rfl, rfl, -, -, hafter⟩ := quotedKey?_some h
      exact ⟨t, rfl, hafter, '"', _, rfl, by decide, by decide, by decide⟩
    · obtain ⟨inner, t, rfl, rfl, -, -, hafter⟩ := quotedKey?_some h
      exact ⟨t, rfl, hafter, '\'', _, rfl, by decide, by decide, by decide⟩

theorem keyLine_head (h : keyLine line = some (token, inline)) :
    ∃ c rest, line = c :: rest ∧ isJsSpace c = false ∧ c ≠ '#' ∧ c ≠ '-' := by
  obtain ⟨t, rfl, -, c, rest, rfl, hspace, hhash, hdash⟩ := keyLine_some h
  exact ⟨c, _, rfl, hspace, hhash, hdash⟩

theorem isSkipped_of_head {c : Char} {rest : Text} (hspace : isJsSpace c = false) (hhash : c ≠ '#') :
    isSkipped (c :: rest) = false := by
  have htrim : jsTrim (c :: rest) ≠ [] := by
    intro hnil
    unfold jsTrim at hnil
    rw [List.dropWhile_cons, if_neg (by simp [hspace])] at hnil
    have hall := List.rdropWhile_eq_nil_iff.mp hnil c List.mem_cons_self
    rw [hspace] at hall
    cases hall
  simp [isSkipped, htrim, hspace, hhash]

theorem isSkipped_of_keyLine {kv : Text × Option Text} (h : keyLine line = some kv) :
    isSkipped line = false := by
  obtain ⟨c, rest, rfl, hspace, hhash, -⟩ := keyLine_head h
  exact isSkipped_of_head hspace hhash

theorem isContinuation_of_keyLine {kv : Text × Option Text} (h : keyLine line = some kv) :
    isContinuation line = false := by
  obtain ⟨c, rest, rfl, hspace, -, hdash⟩ := keyLine_head h
  have hnot : isDash (c :: rest) = false := by
    unfold isDash
    split
    · rename_i heq
      exact absurd (List.cons.inj heq).1 hdash
    · rfl
  simp [isContinuation, hspace, hnot]

/-- What was found in the lines so far. -/
def Tracks (start : Nat) (raws : List Text) : Found → Prop
  | ([], current) => current = false
  | (e :: entries, current) => FoundIn numbers start raws current e ∧ ∀ e' ∈ entries, FoundIn numbers start raws false e'

variable {numbers}

variable {start : Nat}

variable {e : Entry}

theorem FoundIn.over (h : FoundIn numbers start raws false e) (raw : Text) :
    FoundIn numbers start (raws ++ [raw]) false e := by
  obtain ⟨before, key, token, inline, conts, after, rfl, hentry, hafter⟩ := h
  exact ⟨before, key, token, inline, conts, after ++ [raw], by simp, hentry, Over.concat hafter raw⟩

theorem FoundIn.ends {current : Bool}
    (h : FoundIn numbers start raws current e) (hskip : isSkipped (stripCr raw) = false)
    (hcont : isContinuation (stripCr raw) = false) : FoundIn numbers start (raws ++ [raw]) false e := by
  cases current with
  | false => exact h.over raw
  | true =>
    obtain ⟨before, key, token, inline, conts, after, rfl, hentry, hafter⟩ := h
    exact ⟨before, key, token, inline, conts, after ++ [raw], by simp, hentry, Idle.over hafter hskip hcont⟩

theorem FoundIn.idles (h : FoundIn numbers start raws true e)
    (hkey : keyLine (stripCr raw) = none) (hskip : isSkipped (stripCr raw) = true) :
    FoundIn numbers start (raws ++ [raw]) true e := by
  obtain ⟨before, key, token, inline, conts, after, rfl, hentry, hafter⟩ := h
  refine ⟨before, key, token, inline, conts, after ++ [raw], by simp, hentry, ?_⟩
  intro l hl
  obtain hl | hl := List.mem_append.1 hl
  · exact hafter l hl
  · obtain rfl := List.mem_singleton.1 hl
    exact ⟨hkey, hskip⟩

theorem ended_concat_length (raws : List Text) (raw : Text) :
    (ended (raws ++ [raw])).length = (ended raws).length + raw.length + 1 := by
  simp [ended]
  omega

theorem FoundIn.extends (h : FoundIn numbers start raws true e)
    (hkey : keyLine (stripCr raw) = none) (hcont : isContinuation (stripCr raw) = true) :
    FoundIn numbers start (raws ++ [raw]) true
      (e.extend (start + (ended raws).length + (stripCr raw).length) (stripCr raw)) := by
  obtain ⟨before, key, token, inline, conts, after, rfl, hentry, hafter⟩ := h
  refine ⟨before, key, token, inline, conts ++ after ++ [raw], [], by simp, ?_, by simp [Idle]⟩
  refine ⟨hentry.line, hentry.key, hentry.lineStart, hentry.keyStart, hentry.keyEnd, hentry.value, ?_, ?_, ?_⟩
  · intro l hl
    rw [List.append_assoc] at hl
    obtain hl | hl := List.mem_append.1 hl
    · exact hentry.goesOn l hl
    · obtain hl | hl := List.mem_append.1 hl
      · exact ⟨(hafter l hl).1, .inr (hafter l hl).2⟩
      · obtain rfl := List.mem_singleton.1 hl
        exact ⟨hkey, .inl hcont⟩
  · show start + (ended (before ++ (key :: conts) ++ after)).length + (stripCr raw).length = e.lineStart + _
    rw [← List.cons_append, ← List.cons_append, entryText_concat, hentry.lineStart, List.append_assoc, ended_append]
    simp only [List.length_append]
    omega
  · intro mark hmark
    simp only [Entry.extend] at hmark
    split at hmark
    · obtain ⟨hmark, hsub⟩ := isItemMark_of_itemMark? hmark
      exact ⟨hmark, raw, by simp, List.Subset.trans hsub (stripCr_subset raw)⟩
    · obtain ⟨hmark, l, hl, hsub⟩ := hentry.mark mark hmark
      exact ⟨hmark, l, by simp [hl], hsub⟩

theorem foundIn_new (start : Nat) (raws : List Text) (hkey : keyLine (stripCr raw) = some (token, inline)) :
    FoundIn numbers start (raws ++ [raw]) true ⟨readKey numbers token, start + (ended raws).length,
      start + (ended raws).length + token.length, start + (ended raws).length, jsTrim (inline.getD []),
      start + (ended raws).length + (stripCr raw).length, none⟩ :=
  ⟨raws, raw, token, inline, [], [], by simp, ⟨hkey, rfl, rfl, rfl, rfl, rfl, by simp, rfl, by simp⟩, by simp [Idle]⟩

theorem Tracks.scanLine {found : Found} (h : Tracks numbers start raws found)
    (raw : Text) : Tracks numbers start (raws ++ [raw])
      (scanLine numbers (start + (ended raws).length) (stripCr raw) found) := by
  unfold Frontmatter.scanLine
  split
  · rename_i token inline hkey
    refine ⟨foundIn_new start raws hkey, ?_⟩
    have hskip := isSkipped_of_keyLine hkey
    have hcont := isContinuation_of_keyLine hkey
    intro e he
    obtain ⟨entries, current⟩ := found
    cases entries with
    | nil => cases he
    | cons first entries =>
      obtain rfl | he := List.mem_cons.1 he
      · exact h.1.ends hskip hcont
      · exact (h.2 e he).over raw
  · rename_i hkey
    split
    · obtain ⟨hfirst, hrest⟩ := h
      split
      · rename_i hcont
        exact ⟨hfirst.extends hkey hcont, fun e' he' => (hrest e' he').over raw⟩
      · rename_i hcont
        refine ⟨?_, fun e' he' => (hrest e' he').over raw⟩
        cases hskip : isSkipped (stripCr raw) with
        | true => exact hfirst.idles hkey hskip
        | false => exact hfirst.ends hskip (by simpa using hcont)
    · rename_i hnot
      obtain ⟨entries, current⟩ := found
      cases entries with
      | nil => exact h
      | cons first entries =>
        obtain ⟨hfirst, hrest⟩ := h
        cases current with
        | true => exact absurd rfl (hnot first entries)
        | false => exact ⟨hfirst.over raw, fun e' he' => (hrest e' he').over raw⟩

theorem Tracks.scanLines {raws more : List Text} {found : Found} (h : Tracks numbers start raws found) :
    Tracks numbers start (raws ++ more) (scanLines numbers (start + (ended raws).length) more found) := by
  induction more generalizing raws found with
  | nil =>
    rw [List.append_nil]
    exact h
  | cons raw more ih =>
    have hnext := ih (h.scanLine raw)
    rw [List.append_assoc, List.singleton_append, ended_concat_length, ← Nat.add_assoc, ← Nat.add_assoc] at hnext
    exact hnext

theorem foundIn_of_scanLines
    (he : e ∈ (scanLines numbers start raws ([], false)).1) : ∃ current, FoundIn numbers start raws current e := by
  have hempty : Tracks numbers start [] ([], false) := rfl
  have htracks := @Tracks.scanLines ν numbers start [] raws _ hempty
  rw [List.nil_append, ended_nil, List.length_nil, Nat.add_zero] at htracks
  revert htracks he
  generalize scanLines numbers start raws ([], false) = found
  obtain ⟨entries, current⟩ := found
  intro he htracks
  cases entries with
  | nil => cases he
  | cons first entries =>
    obtain rfl | he := List.mem_cons.1 he
    · exact ⟨current, htracks.1⟩
    · exact ⟨false, htracks.2 e he⟩

end Savoire.Frontmatter
