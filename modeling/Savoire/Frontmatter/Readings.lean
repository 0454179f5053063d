import Savoire.Frontmatter.Values

/-! What the reader makes of lines: those of one key change the value of this key only. -/
namespace Savoire.Frontmatter
open VaultIndex

variable {ν : Type} {numbers : Numbers ν}

def lineKey (line : Text) : Option Text := (keyLine line).map fun kv => parseKey kv.1

def SameBut (k : Text) (p p' : Props ν) : Prop := ∀ key, key ≠ k → p.get key = p'.get key

theorem SameBut.refl (k : Text) (p : Props ν) : SameBut k p p := fun _ _ => rfl

variable {k : Text}

theorem SameBut.trans {p p' p'' : Props ν} (h : SameBut k p p') (h' : SameBut k p' p'') : SameBut k p p'' :=
  fun key hkey => (h key hkey).trans (h' key hkey)

variable {p p' : Props ν}

theorem SameBut.symm (h : SameBut k p p') : SameBut k p' p :=
  fun key hkey => (h key hkey).symm

theorem get_assign {p : Props ν} {key k : Text} {value : FrontmatterValue ν} :
    (assign p key value).get k = if k = key ∧ key ≠ "__proto__".toList then some value else p.get k := by
  unfold assign
  split
  · rename_i hproto
    rw [if_neg fun hand => hand.2 hproto]
  · rename_i hproto
    rw [KeyedMap.get_set]
    by_cases hk : k = key
    · rw [if_pos hk, if_pos ⟨hk, hproto⟩]
    · rw [if_neg hk, if_neg fun hand => hk hand.1]

theorem get_assign_ne {p : Props ν} {key k : Text} {value : FrontmatterValue ν} (h : k ≠ key) :
    (assign p key value).get k = p.get k := by
  rw [get_assign, if_neg fun hand => h hand.1]

theorem sameBut_assign (p : Props ν) (k : Text) (value : FrontmatterValue ν) : SameBut k (assign p k value) p :=
  fun _ hkey => get_assign_ne hkey

theorem SameBut.assign (h : SameBut k p p') (key : Text) (value : FrontmatterValue ν) :
    SameBut k (assign p key value) (assign p' key value) := by
  intro key' hkey'
  rw [get_assign, get_assign, h key' hkey']

theorem SameBut.addItem (h : SameBut k p p') (key raw : Text) :
    SameBut k (addItem numbers p key raw) (addItem numbers p' key raw) := by
  by_cases hkey : key = k
  · subst hkey
    exact ((sameBut_assign p key _).trans h).trans (sameBut_assign p' key _).symm
  · unfold Frontmatter.addItem
    rw [h key hkey]
    exact h.assign key _

theorem SameBut.readKeyLine (h : SameBut k p p') (line : Text) :
    SameBut k (Frontmatter.readKeyLine numbers p line).props (Frontmatter.readKeyLine numbers p' line).props ∧
      (Frontmatter.readKeyLine numbers p line).listKey = (Frontmatter.readKeyLine numbers p' line).listKey := by
  unfold Frontmatter.readKeyLine
  split
  · exact ⟨h, rfl⟩
  · simp only
    split
    · exact ⟨h, rfl⟩
    · exact ⟨h.assign _ _, rfl⟩

variable {r r' : Reading ν}

theorem SameBut.readLine (h : SameBut k r.props r'.props) (hlist : r.listKey = r'.listKey)
    (line : Text) : SameBut k (Frontmatter.readLine numbers r line).props (Frontmatter.readLine numbers r' line).props ∧
      (Frontmatter.readLine numbers r line).listKey = (Frontmatter.readLine numbers r' line).listKey := by
  unfold Frontmatter.readLine
  rw [← hlist]
  split
  · exact ⟨h, hlist⟩
  · split
    · exact ⟨h.addItem _ _, rfl⟩
    · split
      · exact ⟨h, hlist⟩
      · exact h.readKeyLine line

theorem SameBut.foldl (h : SameBut k r.props r'.props) (hlist : r.listKey = r'.listKey)
    (lines : List Text) :
    SameBut k (lines.foldl (Frontmatter.readLine numbers) r).props (lines.foldl (Frontmatter.readLine numbers) r').props := by
  induction lines generalizing r r' with
  | nil => exact h
  | cons line lines ih =>
    obtain ⟨hnext, hlist'⟩ := @SameBut.readLine ν numbers k r r' h hlist line
    exact ih hnext hlist'

/-- The list under way plays no part in the first line that is not skipped. -/
def Resets : List Text → Prop
  | [] => True
  | line :: rest => if isSkipped line then Resets rest else item? line = none ∧ line.head?.any isJsSpace = false

theorem readLine_resets {line : Text} (hskip : isSkipped line = false) (hitem : item? line = none)
    (hhead : line.head?.any isJsSpace = false) (r : Reading ν) :
    readLine numbers r line = readKeyLine numbers r.props line := by
  unfold readLine
  rw [if_neg (by simp [hskip])]
  simp [hitem, hhead]

theorem readLine_skipped {line : Text} (hskip : isSkipped line = true) (r : Reading ν) : readLine numbers r line = r := by
  unfold readLine
  rw [if_pos hskip]

variable {lines : List Text}

theorem SameBut.foldl_resets (h : SameBut k r.props r'.props)
    (hresets : Resets lines) :
    SameBut k (lines.foldl (Frontmatter.readLine numbers) r).props (lines.foldl (Frontmatter.readLine numbers) r').props := by
  induction lines generalizing r r' with
  | nil => exact h
  | cons line lines ih =>
    rw [Resets] at hresets
    rw [List.foldl_cons, List.foldl_cons]
    split at hresets
    · rename_i hskip
      rw [readLine_skipped hskip, readLine_skipped hskip]
      exact ih h hresets
    · rename_i hskip
      have hskip' : isSkipped line = false := by simpa using hskip
      rw [readLine_resets hskip' hresets.1 hresets.2, readLine_resets hskip' hresets.1 hresets.2]
      obtain ⟨hnext, hlist⟩ := @SameBut.readKeyLine ν numbers k _ _ h line
      exact hnext.foldl hlist lines

theorem readKeyLine_get {p : Props ν} {line k : Text} (h : lineKey line ≠ some k) :
    (readKeyLine numbers p line).props.get k = p.get k ∧ (readKeyLine numbers p line).listKey ≠ some k := by
  unfold readKeyLine
  cases hline : keyLine line with
  | none => exact ⟨rfl, by simp⟩
  | some kv =>
    obtain ⟨token, inline⟩ := kv
    have hkey : k ≠ parseKey token := by
      rintro rfl
      exact h (by simp [lineKey, hline])
    simp only
    split
    · exact ⟨rfl, by simp⟩
    · refine ⟨get_assign_ne hkey, ?_⟩
      split
      · intro heq
        exact hkey (Option.some.inj heq).symm
      · simp

variable {r : Reading ν}

theorem readLine_get {line k : Text} (hlist : r.listKey ≠ some k) (h : lineKey line ≠ some k) :
    (readLine numbers r line).props.get k = r.props.get k ∧ (readLine numbers r line).listKey ≠ some k := by
  unfold readLine
  split
  · exact ⟨rfl, hlist⟩
  · split
    · rename_i key raw hkey _
      obtain ⟨hkey', -⟩ := Option.filter_eq_some_iff.1 hkey
      have hne : k ≠ key := by
        rintro rfl
        exact hlist hkey'
      exact ⟨get_assign_ne hne, hlist⟩
    · split
      · exact ⟨rfl, hlist⟩
      · exact readKeyLine_get h

theorem foldl_get (hlist : r.listKey ≠ some k)
    (h : ∀ line ∈ lines, lineKey line ≠ some k) :
    (lines.foldl (readLine numbers) r).props.get k = r.props.get k := by
  induction lines generalizing r with
  | nil => rfl
  | cons line lines ih =>
    obtain ⟨hget, hlist'⟩ := @readLine_get ν numbers r line k hlist (h line List.mem_cons_self)
    rw [List.foldl_cons, ih hlist' fun l hl => h l (List.mem_cons_of_mem _ hl), hget]

theorem foldl_get_resets (hresets : Resets lines)
    (h : ∀ line ∈ lines, lineKey line ≠ some k) :
    (lines.foldl (readLine numbers) r).props.get k = r.props.get k := by
  induction lines generalizing r with
  | nil => rfl
  | cons line lines ih =>
    have hrest : ∀ l ∈ lines, lineKey l ≠ some k := fun l hl => h l (List.mem_cons_of_mem _ hl)
    rw [Resets] at hresets
    rw [List.foldl_cons]
    split at hresets
    · rename_i hskip
      rw [readLine_skipped hskip]
      exact ih hresets hrest
    · rename_i hskip
      rw [readLine_resets (by simpa using hskip) hresets.1 hresets.2]
      obtain ⟨hget, hlist⟩ := @readKeyLine_get ν numbers r.props line k (h line List.mem_cons_self)
      rw [foldl_get hlist hrest, hget]

theorem item?_of_head {c : Char} {rest : Text} (hspace : isJsSpace c = false) (hdash : c ≠ '-') :
    item? (c :: rest) = none := by
  unfold item?
  rw [List.dropWhile_cons, if_neg (by simp [hspace])]
  split
  · rename_i heq
    exact absurd (List.cons.inj heq).1 hdash
  · rfl

theorem readLine_keyLine {line token : Text} {inline : Option Text} (h : keyLine line = some (token, inline))
    (r : Reading ν) : readLine numbers r line = readKeyLine numbers r.props line := by
  obtain ⟨c, rest, rfl, hspace, hhash, hdash⟩ := keyLine_head h
  exact readLine_resets (isSkipped_of_head hspace hhash) (item?_of_head hspace hdash) (by simp [hspace]) r

theorem readLine_noKey {line k : Text} (hline : keyLine line = none)
    (hlist : r.listKey = none ∨ r.listKey = some k) :
    SameBut k (readLine numbers r line).props r.props ∧
      ((readLine numbers r line).listKey = none ∨ (readLine numbers r line).listKey = some k) := by
  unfold readLine
  split
  · exact ⟨.refl k _, hlist⟩
  · split
    · rename_i key raw hkey _
      obtain ⟨hkey', -⟩ := Option.filter_eq_some_iff.1 hkey
      have hk : key = k := by
        obtain hnone | hsome := hlist
        · rw [hnone] at hkey'
          cases hkey'
        · rw [hsome] at hkey'
          exact (Option.some.inj hkey').symm
      subst hk
      exact ⟨sameBut_assign _ _ _, hlist⟩
    · split
      · exact ⟨.refl k _, hlist⟩
      · refine ⟨?_, .inl ?_⟩
        · intro key _
          simp [readKeyLine, hline]
        · simp [readKeyLine, hline]

theorem foldl_entry {line token k : Text} {inline : Option Text} (hline : keyLine line = some (token, inline))
    (hkey : parseKey token = k) {conts : List Text} (hconts : ∀ l ∈ conts, keyLine l = none) (r : Reading ν) :
    SameBut k ((line :: conts).foldl (readLine numbers) r).props r.props := by
  have hrest : ∀ (ls : List Text), (∀ l ∈ ls, keyLine l = none) → ∀ r : Reading ν,
      (r.listKey = none ∨ r.listKey = some k) → SameBut k (ls.foldl (readLine numbers) r).props r.props := by
    intro ls
    induction ls with
    | nil => exact fun _ r _ => .refl k _
    | cons l ls ih =>
      intro hls r hlist
      obtain ⟨hsame, hlist'⟩ := @readLine_noKey ν numbers r l k (hls l List.mem_cons_self) hlist
      exact (ih (fun x hx => hls x (List.mem_cons_of_mem _ hx)) _ hlist').trans hsame
  rw [List.foldl_cons, readLine_keyLine hline]
  have hfirst : SameBut k (readKeyLine numbers r.props line).props r.props ∧
      ((readKeyLine numbers r.props line).listKey = none ∨ (readKeyLine numbers r.props line).listKey = some k) := by
    unfold readKeyLine
    rw [hline]
    simp only [hkey]
    split
    · exact ⟨.refl k _, .inl rfl⟩
    · refine ⟨sameBut_assign _ _ _, ?_⟩
      split
      · exact .inr rfl
      · exact .inl rfl
  exact (hrest conts hconts _ hfirst.2).trans hfirst.1

end Savoire.Frontmatter
