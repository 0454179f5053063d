import Savoire.Index.Tables

/-! A move against a new extraction: both leave the same rows, when the extension stays. -/
namespace Savoire.VaultIndex
open Pick

/-- The same rows, in any order. -/
structure Index.Same (s s' : Index) : Prop where
  docs : ∀ d, d ∈ s.docs ↔ d ∈ s'.docs
  aliases : ∀ a, a ∈ s.aliases ↔ a ∈ s'.aliases
  links : ∀ l, l ∈ s.links ↔ l ∈ s'.links
  nextN : s.nextN = s'.nextN

/-- The same rows in every table. -/
structure Tables.Same (t t' : Tables) : Prop where
  index : t.index.Same t'.index
  columns : t.columns = t'.columns
  search : t.search = t'.search
  sections : t.sections = t'.sections

/-- The links of document `n` are these rows; their targets aside. -/
def Own (n : Nat) (rows links : List LinkRow) : Prop :=
  ∀ r, (∃ l ∈ links, l.src = n ∧ { l with dst := none } = r) ↔ r ∈ rows

/-- The rows of `doc` are those that the note gives. -/
structure Tables.Holds (host : IndexHost) (t : Tables) (doc : DocRow) (note : ExtractedNote) : Prop where
  mem : doc ∈ t.index.docs
  row : doc = newRow host.lower doc.n note.toNoteRecord
  aliases : ∀ k, (⟨doc.n, k⟩ : AliasRow) ∈ t.index.aliases ↔ k ∈ aliasKeysOf host.lower note.aliases
  links : Own doc.n (linkRows host.lower doc.n note.path 0 note.links) t.index.links
  columns : t.columns doc.n = some (docColumns host note)
  search : t.search doc.n = some (ftsRow host note.title note.sections note.props.entries)
  sections : t.sections doc.n = some note.sections

variable {l : LinkRow}

section Links
variable {lower : Lower}

theorem resolve_congr {docs docs' : List DocRow} {aliases aliases' : List AliasRow}
    (hdocs : ∀ d, d ∈ docs' ↔ d ∈ docs) (haliases : ∀ a, a ∈ aliases' ↔ a ∈ aliases) (l : LinkRow) :
    resolve docs' aliases' l = resolve docs aliases l := by
  have halias : ∀ d, matchesAlias aliases' l d = matchesAlias aliases l d := by
    simp [matchesAlias, haliases]
  simp only [resolve]
  rw [pick_congr bestRank_n hdocs fun _ => rfl, pick_congr bestRank_n hdocs fun _ => rfl,
    pick_congr bestRank_n hdocs fun _ => rfl, pick_congr aliasRank_n hdocs halias]

def rekey (lower : Lower) (path : Text) (l : LinkRow) : Option LinkRow :=
  (linkKeys lower l.raw l.kind path).map fun k => { l with tKey := k.t, tRel := k.rel, nKey := k.n }

theorem linkKeys_isSome (raw : Text) (kind : LinkKind) (path path' : Text) :
    (linkKeys lower raw kind path).isSome = (linkKeys lower raw kind path').isSome := by
  simp only [linkKeys]
  split
  · rfl
  · cases normalizePath (stripDots ((jsTrim raw).map fun c => if c = '\\' then '/' else c)) with
    | none => rfl
    | some abs => cases abs <;> rfl

theorem linkRows_rekey {n : Nat} {path path' : Text} (links : List LinkRef) (pos : Nat) :
    (linkRows lower n path pos links).filterMap (rekey lower path') = linkRows lower n path' pos links := by
  induction links generalizing pos with
  | nil => rfl
  | cons l rest ih =>
    have hsome : (linkKeys lower l.target l.kind path).isSome = (linkKeys lower l.target l.kind path').isSome :=
      linkKeys_isSome l.target l.kind path path'
    cases hk : linkKeys lower l.target l.kind path with
    | none =>
      rw [hk, Option.isSome_none, eq_comm, Option.isSome_eq_false_iff, Option.isNone_iff_eq_none] at hsome
      simp only [linkRows, hk, hsome, ih]
    | some k =>
      rw [hk, Option.isSome_some, eq_comm, Option.isSome_iff_exists] at hsome
      obtain ⟨k', hk'⟩ := hsome
      simp only [linkRows, hk, hk']
      rw [List.filterMap_cons_some (b := ⟨n, pos, l.target, l.kind, k'.t, k'.rel, k'.n, none⟩)
        (by simp [rekey, hk']), ih]

theorem mem_linkRows {n : Nat} {path : Text} {links : List LinkRef} {pos : Nat}
    (h : l ∈ linkRows lower n path pos links) : l.src = n ∧ l.dst = none := by
  induction links generalizing pos with
  | nil => cases h
  | cons ref rest ih =>
    rw [linkRows] at h
    split at h
    · exact ih h
    · obtain rfl | h := List.mem_cons.1 h
      · exact ⟨rfl, rfl⟩
      · exact ih h

/-- The rows of the links that `moveLinks` leaves, before they are resolved. -/
def moveRow (lower : Lower) (n : Nat) (path : Text) (l : LinkRow) : Option LinkRow :=
  if l.src == n then rekey lower path l else some l

theorem own_moveRow {n : Nat} {path path' : Text} {refs : List LinkRef} {links : List LinkRow}
    (h : Own n (linkRows lower n path 0 refs) links) :
    Own n (linkRows lower n path' 0 refs) (links.filterMap (moveRow lower n path')) := by
  intro r
  have hrows : (linkRows lower n path 0 refs).filterMap (rekey lower path') = linkRows lower n path' 0 refs :=
    linkRows_rekey refs 0
  rw [← hrows, List.mem_filterMap]
  constructor
  · rintro ⟨l, hl, hsrc, rfl⟩
    obtain ⟨l₀, hl₀, hmove⟩ := List.mem_filterMap.1 hl
    unfold moveRow at hmove
    split at hmove
    next hn =>
      obtain ⟨k, hk, rfl⟩ := Option.map_eq_some_iff.1 hmove
      refine ⟨{ l₀ with dst := none }, (h _).1 ⟨l₀, hl₀, hsrc, rfl⟩, ?_⟩
      simp only [rekey, hk, Option.map_some]
    next hn =>
      obtain rfl := Option.some.inj hmove
      simp [hsrc] at hn
  · rintro ⟨r₀, hr₀, hkeys⟩
    obtain ⟨l, hl, hsrc, rfl⟩ := (h r₀).2 hr₀
    obtain ⟨k, hk, rfl⟩ := Option.map_eq_some_iff.1 hkeys
    refine ⟨{ l with tKey := k.t, tRel := k.rel, nKey := k.n }, List.mem_filterMap.2 ⟨l, hl, ?_⟩, hsrc, rfl⟩
    have hk' : linkKeys lower l.raw l.kind path' = some k := hk
    simp only [moveRow, rekey, hsrc, hk', BEq.rfl, if_true, Option.map_some]

theorem own_linkRows {n : Nat} {path : Text} {refs : List LinkRef} (links : List LinkRow) :
    Own n (linkRows lower n path 0 refs)
      (links.filter (fun l => !(l.src == n)) ++ linkRows lower n path 0 refs) := by
  intro r
  constructor
  · rintro ⟨l, hl, hsrc, rfl⟩
    obtain hl | hl := List.mem_append.1 hl
    · simpa [hsrc] using (List.mem_filter.1 hl).2
    · have hdst := (mem_linkRows hl).2
      rwa [← hdst]
  · intro hr
    obtain ⟨hsrc, hdst⟩ := mem_linkRows hr
    refine ⟨r, List.mem_append_right _ hr, hsrc, ?_⟩
    rw [← hdst]

variable {s : Index}

theorem mem_resolveWhere {scope : LinkRow → Bool} :
    l ∈ (resolveWhere scope s).links ↔
      ∃ l₀ ∈ s.links, (if scope l₀ then { l₀ with dst := resolve s.docs s.aliases l₀ } else l₀) = l := by
  simp [resolveWhere]

theorem own_resolveWhere {n : Nat} {rows : List LinkRow} {scope : LinkRow → Bool}
    (h : Own n rows s.links) : Own n rows (resolveWhere scope s).links := by
  have hkeep : ∀ l : LinkRow, { (if scope l then { l with dst := resolve s.docs s.aliases l } else l) with
      dst := none } = { l with dst := none } := by
    intro l
    cases scope l <;> rfl
  have hsrc : ∀ l : LinkRow, (if scope l then { l with dst := resolve s.docs s.aliases l } else l).src = l.src := by
    intro l
    cases scope l <;> rfl
  intro r
  rw [← h r]
  constructor
  · rintro ⟨l, hl, hn, rfl⟩
    obtain ⟨l₀, hl₀, rfl⟩ := mem_resolveWhere.1 hl
    exact ⟨l₀, hl₀, (hsrc l₀).symm.trans hn, (hkeep l₀).symm⟩
  · rintro ⟨l, hl, hn, rfl⟩
    exact ⟨_, mem_resolveWhere.2 ⟨l, hl, rfl⟩, (hsrc l).trans hn, hkeep l⟩

theorem resolveAround_links {n : Nat} {path : Text} {keys keys' : List Text} {rows : List LinkRow} {s' : Index}
    (hkeys : ∀ k, k ∈ keys' ↔ k ∈ keys) (hdocs : ∀ d, d ∈ s'.docs ↔ d ∈ s.docs)
    (haliases : ∀ a, a ∈ s'.aliases ↔ a ∈ s.aliases) (hown : Own n rows s.links) (hown' : Own n rows s'.links)
    (hother : ∀ l ∈ s'.links, l.src ≠ n → l ∈ s.links)
    (h : l ∈ (resolveAround lower n path keys' s').links) : l ∈ (resolveAround lower n path keys s).links := by
  have hscope : ∀ l, around lower n path keys' l = around lower n path keys l := by
    intro l
    have hkey : keys'.contains l.tKey = keys.contains l.tKey := by
      rw [Bool.eq_iff_iff, List.contains_iff_mem, List.contains_iff_mem]
      exact hkeys l.tKey
    simp only [around, hkey]
  have hin : ∀ l : LinkRow, l.src = n → around lower n path keys l = true := by
    intro l hn
    simp [around, hn]
  rw [resolveAround, mem_resolveWhere] at h ⊢
  obtain ⟨l', hl', rfl⟩ := h
  rw [hscope, resolve_congr hdocs haliases]
  by_cases hn : l'.src = n
  · obtain ⟨l₀, hl₀, hn₀, hsame⟩ := (hown _).2 ((hown' _).1 ⟨l', hl', hn, rfl⟩)
    refine ⟨l₀, hl₀, ?_⟩
    rw [hin l' hn, hin l₀ hn₀, if_pos rfl, if_pos rfl]
    have hres := congrArg (fun r => { r with dst := resolve s.docs s.aliases r }) hsame
    simpa only [resolve_dst] using hres
  · exact ⟨l', hother l' hl' hn, rfl⟩

end Links

section Extract
variable {host : IndexHost}

theorem extractNote_move {input : NoteInput} {path : Text}
    (hext : extOf host.lower path = extOf host.lower input.path) :
    extractNote host { input with path } = { extractNote host input with
      path, folder := folderOf path
      title := if (extractNote host input).titleSource = .name then stemOf path
        else (extractNote host input).title } := by
  have htitle : ∀ fm h1 : Option Text, (fm.or h1).getD (stemOf path) =
      if (if fm.isSome then TitleSource.frontmatter else if h1.isSome then .heading else .name) = .name
        then stemOf path else (fm.or h1).getD (stemOf input.path) := by
    intro fm h1
    cases fm with
    | some title => rfl
    | none => cases h1 <;> rfl
  unfold extractNote
  rw [← hext]
  dsimp only
  congr 1
  exact htitle _ _

theorem textOf?_jsonScalar (x : Query.Scalar) : textOf? (jsonScalar x) = textOf? x := by
  cases x with
  | num x => cases h : x.isFinite <;> simp [jsonScalar, h, textOf?]
  | _ => rfl

theorem propsText_jsonProps (props : List (Text × Query.PropertyValue)) :
    propsText (jsonProps props) = propsText props := by
  rw [propsText, propsText, jsonProps]
  congr 1
  induction props with
  | nil => rfl
  | cons e rest ih =>
    rw [List.map_cons, List.flatMap_cons, List.flatMap_cons, List.filterMap_append, List.filterMap_append, ih]
    congr 1
    cases e.2 with
    | scalar x => simp only [List.filterMap_cons, List.filterMap_nil, textOf?_jsonScalar]
    | list xs =>
      rw [List.filterMap_map]
      congr 1
      funext x
      exact textOf?_jsonScalar x

end Extract

namespace Tables

def empty : Tables := ⟨Index.empty, fun _ => none, fun _ => none, fun _ => none, by simp [UniqueRows, Index.empty]⟩

section Operations
variable {host : IndexHost} {t : Tables} {doc : DocRow}

theorem find_of_mem (h : doc ∈ t.index.docs) : t.find doc.id = some doc := by
  unfold find
  cases hfind : t.index.docs.find? fun d => d.id == doc.id with
  | none => simpa using List.find?_eq_none.1 hfind doc h
  | some d =>
    have hid : d.id = doc.id := by simpa using List.find?_some hfind
    rw [t.unique d (List.mem_of_find?_eq_some hfind) doc h (.inr hid)]

variable {note : ExtractedNote}

theorem Holds.find (h : t.Holds host doc note) : t.find note.id = some doc := by
  have hid : doc.id = note.id := by
    rw [h.row]
    rfl
  rw [← hid]
  exact find_of_mem h.mem

theorem writeNote_index (hfind : t.find note.id = some doc) (hbase : note.base = none) :
    (t.writeNote host note).index = resolveAround host.lower doc.n note.path (aliasKeysOf host.lower note.aliases)
      { docs := (upsertDoc host.lower doc.n note.toNoteRecord t.index).docs
        aliases := t.index.aliases.filter (fun a => !(a.doc == doc.n)) ++
          (aliasKeysOf host.lower note.aliases).map (⟨doc.n, ·⟩)
        links := t.index.links.filter (fun l => !(l.src == doc.n)) ++
          linkRows host.lower doc.n note.path 0 note.links
        nextN := t.index.nextN } := by
  have hlookup : lookup t.index [note.id] note.id = some doc := by
    rw [lookup, if_pos (List.mem_singleton.2 rfl)]
    exact hfind
  change (writeRecord host.lower note.toNoteRecord (lookup t.index [note.id], t.index)).2 = _
  rw [writeRecord_of_some hlookup, writeLinks, hbase]
  rfl

theorem writeNote_holds (hfind : t.find note.id = some doc) (hbase : note.base = none) :
    (t.writeNote host note).Holds host (newRow host.lower doc.n note.toNoteRecord) note where
  mem := by
    rw [writeNote_index hfind hbase]
    exact mem_upsertDoc.2 (.inr rfl)
  row := rfl
  aliases := by
    rw [writeNote_index hfind hbase]
    simp [resolveAround, newRow]
  links := by
    rw [writeNote_index hfind hbase]
    exact own_resolveWhere (own_linkRows t.index.links)
  columns := by simp [writeNote, hfind, newRow]
  search := by simp [writeNote, hfind, newRow]
  sections := by simp [writeNote, hfind, newRow]

theorem aliases_of_holds (h : t.Holds host doc note) (a : AliasRow) :
    a ∈ t.index.aliases.filter (fun a => !(a.doc == doc.n)) ++
        (aliasKeysOf host.lower note.aliases).map (⟨doc.n, ·⟩) ↔ a ∈ t.index.aliases := by
  obtain ⟨n, k⟩ := a
  have hkeys := h.aliases k
  by_cases hn : n = doc.n
  · subst hn
    simp [hkeys]
  · simp [hn, Ne.symm hn]

theorem docs_of_move {note' : ExtractedNote} (h : t.Holds host doc note) {path : Text}
    (hnote : newRow host.lower doc.n note'.toNoteRecord = movedRow host.lower doc.n path doc) (d : DocRow) :
    d ∈ t.index.docs.map (movedRow host.lower doc.n path) ↔
      d ∈ (upsertDoc host.lower doc.n note'.toNoteRecord t.index).docs := by
  have hid : note'.id = doc.id := by
    have hid := congrArg DocRow.id hnote
    rwa [movedRow_id] at hid
  rw [mem_upsertDoc, hnote, hid, List.mem_map]
  constructor
  · rintro ⟨d, hd, rfl⟩
    by_cases hn : d.n = doc.n
    · rw [t.unique d hd doc h.mem (.inl hn)]
      exact .inr rfl
    · have hmove : movedRow host.lower doc.n path d = d := by
        rw [movedRow, if_neg (by simpa using hn)]
      rw [hmove]
      refine .inl ⟨hd, hn, fun hsame => ?_⟩
      rw [t.unique d hd doc h.mem (.inr hsame)] at hn
      exact hn rfl
  · rintro (⟨hd, hn, -⟩ | rfl)
    · refine ⟨d, hd, ?_⟩
      rw [movedRow, if_neg (by simpa using hn)]
    · exact ⟨doc, h.mem, rfl⟩

theorem writeNote_same {note' : ExtractedNote} (h : t.Holds host doc note)
    (haliases : note'.aliases = note.aliases) (hfind : t.find note'.id = some doc) (hbase : note'.base = none)
    {docs : List DocRow} {keys : List Text} {links : List LinkRow}
    (hdocs : ∀ d, d ∈ docs ↔ d ∈ (upsertDoc host.lower doc.n note'.toNoteRecord t.index).docs)
    (hkeys : ∀ k, k ∈ keys ↔ k ∈ aliasKeysOf host.lower note.aliases)
    (hown : Own doc.n (linkRows host.lower doc.n note'.path 0 note'.links) links)
    (hother : ∀ l : LinkRow, l.src ≠ doc.n → (l ∈ links ↔ l ∈ t.index.links)) :
    (resolveAround host.lower doc.n note'.path keys
      { t.index with docs, links }).Same (t.writeNote host note').index := by
  have hals := aliases_of_holds h
  have hown' : Own doc.n (linkRows host.lower doc.n note'.path 0 note'.links)
      (t.index.links.filter (fun l => !(l.src == doc.n)) ++ linkRows host.lower doc.n note'.path 0 note'.links) :=
    own_linkRows t.index.links
  have hother' : ∀ l : LinkRow, l.src ≠ doc.n →
      (l ∈ t.index.links.filter (fun l => !(l.src == doc.n)) ++ linkRows host.lower doc.n note'.path 0 note'.links ↔
        l ∈ t.index.links) := by
    intro l hn
    rw [List.mem_append, List.mem_filter]
    constructor
    · rintro (h | h)
      · exact h.1
      · exact absurd (mem_linkRows h).1 hn
    · exact fun hl => .inl ⟨hl, by simpa using hn⟩
  rw [writeNote_index hfind hbase, haliases]
  refine ⟨hdocs, fun a => (hals a).symm, fun l => ⟨?_, ?_⟩, rfl⟩
  · exact resolveAround_links hkeys hdocs (fun a => (hals a).symm) hown' hown
      fun l hl hn => (hother' l hn).2 ((hother l hn).1 hl)
  · exact resolveAround_links (fun k => (hkeys k).symm) (fun d => (hdocs d).symm) hals hown hown'
      fun l hl hn => (hother l hn).2 ((hother' l hn).1 hl)

theorem mem_moveRow {lower : Lower} {n : Nat} {path : Text} {links : List LinkRow} (hn : l.src ≠ n) :
    l ∈ links.filterMap (moveRow lower n path) ↔ l ∈ links := by
  rw [List.mem_filterMap]
  constructor
  · rintro ⟨l₀, hl₀, hmove⟩
    unfold moveRow at hmove
    split at hmove
    next hsrc =>
      obtain ⟨k, -, rfl⟩ := Option.map_eq_some_iff.1 hmove
      exact absurd (by simpa using hsrc) hn
    next => exact Option.some.inj hmove ▸ hl₀
  · intro hl
    exact ⟨l, hl, if_neg (by simpa using hn)⟩

theorem aliasKeys_of_holds (h : t.Holds host doc note) (k : Text) :
    k ∈ (t.index.aliases.filter fun a => a.doc == doc.n).map (·.aliasKey) ↔
      k ∈ aliasKeysOf host.lower note.aliases := by
  rw [← h.aliases k, List.mem_map]
  constructor
  · rintro ⟨⟨n, k⟩, ha, rfl⟩
    obtain ⟨ha, hn⟩ := List.mem_filter.1 ha
    obtain rfl : n = doc.n := by simpa using hn
    exact ha
  · exact fun ha => ⟨_, List.mem_filter.2 ⟨ha, by simp⟩, rfl⟩

variable {input : NoteInput}

theorem docColumns_move {path : Text}
    (hext : extOf host.lower path = extOf host.lower input.path) :
    docColumns host (extractNote host { input with path }) =
      { docColumns host (extractNote host input) with
        pathFold := foldOrNull host path
        title := (extractNote host { input with path }).title
        titleFold := foldOrNull host (extractNote host { input with path }).title
        folder := folderOf path
        folderFold := foldOrNull host (folderOf path)
        extFold := foldOrNull host (extOf host.lower path) } := by
  rw [extractNote_move hext, docColumns, docColumns]
  simp only [extractNote, hext]

theorem applyDoc_of_trash (htrash : isTrashPath input.path = true)
    (hfind : t.find input.id = some doc) : t.applyDoc host input = t.removal doc.n := by
  rw [applyDoc, if_pos htrash, hfind]

theorem applyDoc_of_kept (htrash : ¬ isTrashPath input.path = true) :
    t.applyDoc host input = t.writeNote host (extractNote host input) := if_neg htrash

theorem Holds.base (h : t.Holds host doc (extractNote host input)) : doc.base = none := by
  rw [h.row]
  rfl

theorem Holds.path (h : t.Holds host doc (extractNote host input)) :
    doc.path = input.path := by
  rw [h.row]
  rfl

theorem moveDoc_of_removed (h : t.Holds host doc (extractNote host input)) {path : Text}
    (hgone : isTrashPath path = true ∨ extOf host.lower path ≠ extOf host.lower input.path) :
    t.moveDoc host input.id path =
      (t.removal doc.n, if isTrashPath path then MoveResult.removed else .missing) := by
  have hfind : t.find input.id = some doc := h.find
  rw [moveDoc, hfind]
  dsimp only
  rw [h.base, if_neg (by simp), h.path, if_pos (by simpa using hgone)]

theorem moveDoc_of_unchanged (h : t.Holds host doc (extractNote host input))
    (htrash : ¬ isTrashPath input.path = true) : t.moveDoc host input.id input.path = (t, .unchanged) := by
  have hfind : t.find input.id = some doc := h.find
  rw [moveDoc, hfind]
  dsimp only
  rw [h.base, if_neg (by simp), h.path, if_neg (by simpa using htrash), if_pos rfl]

theorem same_writeNote (h : t.Holds host doc (extractNote host input))
    (hresolved : Resolved t.index) : t.Same (t.writeNote host (extractNote host input)) where
  index := by
    have hfind := h.find
    have hkeep : resolveAround host.lower doc.n input.path
        (aliasKeysOf host.lower (extractNote host input).aliases) t.index = t.index := by
      have hlinks : ∀ l ∈ t.index.links, (if around host.lower doc.n input.path
          (aliasKeysOf host.lower (extractNote host input).aliases) l then
            { l with dst := resolve t.index.docs t.index.aliases l } else l) = l := by
        intro l hl
        rw [← hresolved l hl, ite_self]
      rw [resolveAround, resolveWhere, List.map_congr_left hlinks, List.map_id']
    have hdocs : ∀ d, d ∈ t.index.docs ↔
        d ∈ (upsertDoc host.lower doc.n (extractNote host input).toNoteRecord t.index).docs := by
      intro d
      have hid : (extractNote host input).id = doc.id := by
        rw [h.row]
        rfl
      rw [mem_upsertDoc, ← h.row, hid]
      constructor
      · intro hd
        by_cases hdoc : d.n = doc.n ∨ d.id = doc.id
        · exact .inr (t.unique d hd doc h.mem hdoc)
        · exact .inl ⟨hd, not_or.1 hdoc⟩
      · rintro (⟨hd, -⟩ | rfl)
        · exact hd
        · exact h.mem
    have hsame := writeNote_same h rfl hfind rfl hdocs (fun _ => Iff.rfl) h.links fun _ _ => Iff.rfl
    rwa [show (extractNote host input).path = input.path from rfl, hkeep] at hsame
  columns := by
    rw [writeNote, h.find]
    exact (Function.update_eq_self_iff.2 h.columns.symm).symm
  search := by
    rw [writeNote, h.find]
    exact (Function.update_eq_self_iff.2 h.search.symm).symm
  sections := by
    rw [writeNote, h.find]
    exact (Function.update_eq_self_iff.2 h.sections.symm).symm

theorem search_of_move (h : t.Holds host doc note) (title : Text) :
    (if note.title = title then t.search else Function.update t.search doc.n
      (some (ftsRow host title note.sections (jsonProps note.props.entries)))) =
    Function.update t.search doc.n (some (ftsRow host title note.sections note.props.entries)) := by
  split
  next htitle =>
    rw [← htitle, eq_comm, Function.update_eq_self_iff]
    exact h.search.symm
  next => rw [ftsRow, ftsRow, propsText_jsonProps]

theorem moveDoc_of_moved (h : t.Holds host doc (extractNote host input)) {path : Text}
    (htrash : ¬ isTrashPath path = true) (hext : extOf host.lower path = extOf host.lower input.path)
    (hne : path ≠ input.path) :
    (t.moveDoc host input.id path).2 = .moved ∧
      (t.moveDoc host input.id path).1.Same (t.writeNote host (extractNote host { input with path })) := by
  have hfind : t.find input.id = some doc := h.find
  have hfind' : t.find (extractNote host { input with path }).id = some doc := hfind
  have hnote := extractNote_move hext
  have hrow : newRow host.lower doc.n (extractNote host { input with path }).toNoteRecord =
      movedRow host.lower doc.n path doc := by
    have hid : doc.id = input.id := by
      rw [h.row]
      rfl
    rw [movedRow, if_pos (by simp), h.base, hid]
    rfl
  have haliases : (extractNote host { input with path }).aliases = (extractNote host input).aliases := by
    rw [hnote]
  have hown : Own doc.n (linkRows host.lower doc.n path 0 (extractNote host { input with path }).links)
      (t.index.links.filterMap (moveRow host.lower doc.n path)) := by
    rw [hnote]
    exact own_moveRow h.links
  rw [moveDoc, hfind]
  dsimp only
  rw [h.base, if_neg (by simp), h.path, if_neg (by simp [htrash, hext]), if_neg hne]
  refine ⟨rfl, ?_, ?_, ?_, ?_⟩
  · exact writeNote_same h haliases hfind' rfl (docs_of_move h hrow) (aliasKeys_of_holds h) hown
      fun _ hn => mem_moveRow hn
  · rw [writeNote, hfind', docColumns_move hext, h.columns, hnote]
    rfl
  · rw [writeNote, hfind', h.columns, h.sections, hnote]
    exact search_of_move h _
  · rw [writeNote, hfind', hnote]
    exact (Function.update_eq_self_iff.2 h.sections.symm).symm

end Operations
end Tables

/-- The document whose rows are those of a content moves as the content would be read again at the new
path: to the trash and under its extension the same rows are left, or nothing is written where the
path is the one it has; another extension leaves the reading to the caller. -/
theorem move_eq_reindex (host : IndexHost) (t : Tables) (doc : DocRow) (input : NoteInput) (path : Text)
    (h : t.Holds host doc (extractNote host input)) (hcurrent : path = input.path → Resolved t.index) :
    if isTrashPath path = true ∨ extOf host.lower path = extOf host.lower input.path then
      (t.moveDoc host input.id path).1.Same (t.applyDoc host { input with path })
    else t.moveDoc host input.id path = (t.removal doc.n, .missing) := by
  by_cases htrash : isTrashPath path = true
  · have happly : t.applyDoc host { input with path } = t.removal doc.n := Tables.applyDoc_of_trash htrash h.find
    rw [if_pos (.inl htrash), Tables.moveDoc_of_removed h (.inl htrash), happly]
    exact ⟨⟨fun _ => Iff.rfl, fun _ => Iff.rfl, fun _ => Iff.rfl, rfl⟩, rfl, rfl, rfl⟩
  · by_cases hext : extOf host.lower path = extOf host.lower input.path
    · have happly : t.applyDoc host { input with path } = t.writeNote host (extractNote host { input with path }) :=
        Tables.applyDoc_of_kept htrash
      rw [if_pos (.inr hext), happly]
      by_cases hpath : path = input.path
      · subst hpath
        rw [Tables.moveDoc_of_unchanged h htrash]
        exact Tables.same_writeNote h (hcurrent rfl)
      · exact (Tables.moveDoc_of_moved h htrash hext hpath).2
    · rw [if_neg (not_or.2 ⟨htrash, hext⟩), Tables.moveDoc_of_removed h (.inr hext), if_neg htrash]

/-- A reader that takes the content of a note for the target of its only link. -/
def linkHost : IndexHost where
  toHost := Query.plainHost
  isWordChar := Char.isAlphanum
  parts _ content := ⟨⟨[], List.nodup_nil⟩, none, [⟨none, content⟩], [⟨content, .markdown⟩]⟩

def inputA : NoteInput := ⟨['a'], "x/a.md".toList, "b.md".toList, none, none, none⟩
def inputB : NoteInput := ⟨['b'], "x/b.md".toList, [], none, none, none⟩

/-- Two notes of a folder, and the first one saved again. -/
def folderTables : Tables :=
  ((Tables.empty.applyDoc linkHost inputB).applyDoc linkHost inputA).applyDoc linkHost inputA

theorem folderTables_holds : folderTables.Holds linkHost
    (newRow linkHost.lower 2 (extractNote linkHost inputA).toNoteRecord) (extractNote linkHost inputA) := by
  have hbase : (extractNote linkHost inputA).base = none := rfl
  have hfind : ((Tables.empty.applyDoc linkHost inputB).applyDoc linkHost inputA).find
      (extractNote linkHost inputA).id = some (newRow linkHost.lower 2 (extractNote linkHost inputA).toNoteRecord) := by decide +kernel
  have happly : folderTables =
      ((Tables.empty.applyDoc linkHost inputB).applyDoc linkHost inputA).writeNote linkHost
        (extractNote linkHost inputA) := Tables.applyDoc_of_kept (by decide +kernel)
  exact Tables.writeNote_holds hfind hbase

/-- The note moves to another folder, where its link finds nothing. -/
theorem move_eq_reindex_folder :
    (folderTables.moveDoc linkHost inputA.id "y/a.md".toList).1.Same
      (folderTables.applyDoc linkHost { inputA with path := "y/a.md".toList }) := by
  have h := move_eq_reindex linkHost folderTables _ inputA "y/a.md".toList folderTables_holds (by decide +kernel)
  rwa [if_pos (by decide +kernel)] at h

/-- Moved to another extension, the note has no row; read again, it has one. -/
theorem extension_move_ne_reindex :
    ∃ (host : IndexHost) (t : Tables) (doc : DocRow) (input : NoteInput) (path : Text),
    t.Holds host doc (extractNote host input) ∧
      ¬ (t.moveDoc host input.id path).1.Same (t.applyDoc host { input with path }) := by
  refine ⟨linkHost, folderTables, _, inputA, "x/a.page".toList, folderTables_holds, fun hsame => ?_⟩
  have hrow : newRow linkHost.lower 2 (extractNote linkHost { inputA with path := "x/a.page".toList }).toNoteRecord ∈
      (folderTables.applyDoc linkHost { inputA with path := "x/a.page".toList }).index.docs := by decide +kernel
  have hgone : newRow linkHost.lower 2 (extractNote linkHost { inputA with path := "x/a.page".toList }).toNoteRecord ∉
      (folderTables.moveDoc linkHost inputA.id "x/a.page".toList).1.index.docs := by decide +kernel
  exact hgone ((hsame.index.docs _).2 hrow)

end Savoire.VaultIndex
