import Savoire.Index.Links
import Savoire.Library.Transition

/-! The stored target of a link is the one that resolving it again would give, after any writes,
removals and moves whose base rows take the place of no note that another one links to. -/
namespace Savoire.VaultIndex
open Pick
variable {lower : Lower}

def candidate (aliases : List AliasRow) (l : LinkRow) (d : DocRow) : Bool :=
  sameName l d || matchesAlias aliases l d

/-- The tables of two indexes agree on the rows of every other document. -/
structure ChangesOnly (n : Nat) (s s' : Index) : Prop where
  docs : ∀ d : DocRow, d.n ≠ n → (d ∈ s'.docs ↔ d ∈ s.docs)
  aliases : ∀ a : AliasRow, a.doc ≠ n → (a ∈ s'.aliases ↔ a ∈ s.aliases)

/-- The link keeps its target when only document `n` changes. -/
structure Unaffected (n : Nat) (s s' : Index) (l : LinkRow) : Prop where
  dst : l.dst = resolve s.docs s.aliases l
  notOld : l.dst ≠ some n
  notNew : ∀ d ∈ s'.docs, d.n = n → candidate s'.aliases l d = false

theorem bestRank_n (d e : DocRow) (h : bestRank d = bestRank e) : d.n = e.n := by
  have h' := congrArg (fun r => (ofLex (ofLex (ofLex r).2).2).2) h
  exact h'

theorem aliasRank_n (d e : DocRow) (h : aliasRank d = aliasRank e) : d.n = e.n := by
  have h' := congrArg (fun r => (ofLex (ofLex r).2).2) h
  exact h'

variable {l : LinkRow} {d : DocRow}

theorem matchesRelative_of_not_sameName (h : sameName l d = false) :
    matchesRelative l d = false := by simp [matchesRelative, h]

theorem matchesPath_of_not_sameName (h : sameName l d = false) :
    matchesPath l d = false := by simp [matchesPath, h]

theorem matchesSuffix_of_not_sameName (h : sameName l d = false) :
    matchesSuffix l d = false := by simp [matchesSuffix, h]

theorem resolve_dst (docs : List DocRow) (aliases : List AliasRow) (l : LinkRow) (o : Option Nat) :
    resolve docs aliases { l with dst := o } = resolve docs aliases l := rfl

variable {n : Nat} {s s' : Index}

theorem resolve_unaffected (hs : ChangesOnly n s s')
    (hl : Unaffected n s s' l) : resolve s'.docs s'.aliases l = resolve s.docs s.aliases l := by
  have hname : ∀ d ∈ s'.docs, d.n = n → sameName l d = false := by
    intro d hd hn
    have h := hl.notNew d hd hn
    simp only [candidate, Bool.or_eq_false_iff] at h
    exact h.1
  have halias : ∀ d ∈ s'.docs, d.n = n → matchesAlias s'.aliases l d = false := by
    intro d hd hn
    have h := hl.notNew d hd hn
    simp only [candidate, Bool.or_eq_false_iff] at h
    exact h.2
  have hcond : ∀ d : DocRow, d.n ≠ n → matchesAlias s'.aliases l d = matchesAlias s.aliases l d := by
    intro d hn
    have h : (⟨d.n, l.tKey⟩ : AliasRow) ∈ s'.aliases ↔ _ := hs.aliases ⟨d.n, l.tKey⟩ hn
    simp [matchesAlias, h]
  have hold : resolve s.docs s.aliases l ≠ some n := by
    rw [← hl.dst]
    exact hl.notOld
  refine firstOf_frame n _ _ ?_ hold
  refine .cons ?_ (.cons ?_ (.cons ?_ (.cons ?_ .nil)))
  · exact pick_frame bestRank_n n hs.docs (fun _ _ => rfl)
      fun d hd hn => matchesRelative_of_not_sameName (hname d hd hn)
  · exact pick_frame bestRank_n n hs.docs (fun _ _ => rfl)
      fun d hd hn => matchesPath_of_not_sameName (hname d hd hn)
  · exact pick_frame bestRank_n n hs.docs (fun _ _ => rfl)
      fun d hd hn => matchesSuffix_of_not_sameName (hname d hd hn)
  · exact pick_frame aliasRank_n n hs.docs hcond halias

theorem of_resolve {docs : List DocRow} {aliases : List AliasRow}
    (h : resolve docs aliases l = some n) : ∃ d ∈ docs, d.n = n ∧ d.base = none := by
  have hname : ∀ d, sameName l d = true → d.base = none := by
    intro d hd
    simp only [sameName, Bool.and_eq_true, Option.isNone_iff_eq_none] at hd
    exact hd.1
  simp only [resolve, firstOf, Option.or_eq_some_iff, Option.or_none] at h
  obtain h | ⟨-, h | ⟨-, h | ⟨-, h⟩⟩⟩ := h <;> obtain ⟨d, hd, hp, hn, -⟩ := of_pick h
  · simp only [matchesRelative, Bool.and_eq_true] at hp
    exact ⟨d, hd, hn, hname d hp.1⟩
  · simp only [matchesPath, Bool.and_eq_true] at hp
    exact ⟨d, hd, hn, hname d hp.1⟩
  · simp only [matchesSuffix, Bool.and_eq_true] at hp
    exact ⟨d, hd, hn, hname d hp.1⟩
  · simp only [matchesAlias, Bool.and_eq_true, Option.isNone_iff_eq_none] at hp
    exact ⟨d, hd, hn, hp.1⟩

/-- Every stored target is the one that resolving the link gives now. -/
def Resolved (s : Index) : Prop := ∀ l ∈ s.links, l.dst = resolve s.docs s.aliases l

instance (s : Index) : Decidable (Resolved s) := List.decidableBAll _ _

theorem resolved_resolveWhere {scope : LinkRow → Bool} (hs : ChangesOnly n s s')
    (hl : ∀ l ∈ s'.links, scope l = false → Unaffected n s s' l) :
    Resolved (resolveWhere scope s') := by
  intro l hmem
  obtain ⟨l₀, hl₀, rfl⟩ := List.mem_map.1 hmem
  cases hscope : scope l₀ with
  | true => rfl
  | false =>
    have hun := hl l₀ hl₀ hscope
    simpa [resolveWhere] using hun.dst.trans (resolve_unaffected hs hun).symm

/-- The facts about numbers and ids on which the incremental resolution rests. -/
structure Sane (s : Index) : Prop where
  ids : ∀ d ∈ s.docs, ∀ e ∈ s.docs, d.id = e.id → d.n = e.n
  docs_lt : ∀ d ∈ s.docs, d.n < s.nextN
  aliases_lt : ∀ a ∈ s.aliases, a.doc < s.nextN

structure Consistent (s : Index) : Prop extends Sane s where
  resolved : Resolved s

theorem consistent_empty : Consistent Index.empty where
  ids := by simp [Index.empty]
  docs_lt := by simp [Index.empty]
  aliases_lt := by simp [Index.empty]
  resolved := by simp [Resolved, Index.empty]

theorem Consistent.dst_ne (h : Consistent s) (hl : l ∈ s.links) (hn : s.nextN ≤ n) : l.dst ≠ some n := by
  intro hdst
  obtain ⟨d, hd, hdn, -⟩ := of_resolve ((h.resolved l hl).symm.trans hdst)
  have := h.docs_lt d hd
  omega

@[simp] theorem resolveWhere_docs (scope : LinkRow → Bool) (s : Index) :
    (resolveWhere scope s).docs = s.docs := rfl
@[simp] theorem resolveWhere_aliases (scope : LinkRow → Bool) (s : Index) :
    (resolveWhere scope s).aliases = s.aliases := rfl

theorem removal_consistent (h : Consistent s) (n : Nat) : Consistent (removal n s) where
  ids := by
    intro d hd e he
    exact h.ids d (List.mem_filter.1 hd).1 e (List.mem_filter.1 he).1
  docs_lt := fun d hd => h.docs_lt d (List.mem_filter.1 hd).1
  aliases_lt := fun a ha => h.aliases_lt a (List.mem_filter.1 ha).1
  resolved := by
    refine resolved_resolveWhere (n := n) (s := s) ⟨?_, ?_⟩ fun l hl hscope => ⟨?_, ?_, ?_⟩
    · intro d hn
      simp [removeLinks, hn]
    · intro a hn
      simp [removeLinks, hn]
    · exact h.resolved l (List.mem_filter.1 hl).1
    · simpa using hscope
    · intro d hd hn
      have := (List.mem_filter.1 hd).2
      simp [hn] at this

/-- `existing` tells, for the ids of the batch, the number of the row of each and whether there is
one. -/
structure Tracks (ids : List Text) (existing : Existing) (s : Index) : Prop where
  lt : ∀ id doc, existing id = some doc → doc.n < s.nextN
  found : ∀ id doc, existing id = some doc → ∀ d ∈ s.docs, d.id = id → d.n = doc.n
  missing : ∀ id ∈ ids, existing id = none → ∀ d ∈ s.docs, d.id ≠ id

theorem lookup_tracks (h : Sane s) (ids : List Text) : Tracks ids (lookup s ids) s where
  lt := by
    intro id doc hdoc
    simp only [lookup] at hdoc
    split at hdoc
    · exact h.docs_lt doc (List.mem_of_find?_eq_some hdoc)
    · cases hdoc
  found := by
    intro id doc hdoc d hd hid
    simp only [lookup] at hdoc
    split at hdoc
    · have hdid : doc.id = id := by simpa using List.find?_some hdoc
      exact h.ids d hd doc (List.mem_of_find?_eq_some hdoc) (hid.trans hdid.symm)
    · cases hdoc
  missing := by
    intro id hmem hnone d hd hid
    simp only [lookup, hmem, if_true] at hnone
    simpa [hid] using List.find?_eq_none.1 hnone d hd

variable {ids : List Text} {existing : Existing}

theorem removal_tracks {id : Text} {doc : DocRow} (ht : Tracks ids existing s) (hdoc : existing id = some doc) :
    Tracks ids (Function.update existing id none) (removal doc.n s) where
  lt := by
    intro id' doc' h
    by_cases hid : id' = id
    · subst hid
      simp at h
    · rw [Function.update_of_ne hid] at h
      exact ht.lt id' doc' h
  found := by
    intro id' doc' h d hd
    by_cases hid : id' = id
    · subst hid
      simp at h
    · rw [Function.update_of_ne hid] at h
      exact ht.found id' doc' h d (List.mem_filter.1 hd).1
  missing := by
    intro id' hmem h d hd hdid
    obtain ⟨hd, hn⟩ := List.mem_filter.1 hd
    by_cases hid : id' = id
    · subst hid
      simp [ht.found id' doc hdoc d hd hdid] at hn
    · rw [Function.update_of_ne hid] at h
      exact ht.missing id' hmem h d hd hdid

theorem removeIds_spec (ids : List Text) (removals : List Text) (x : Existing × Index)
    (ht : Tracks ids x.1 x.2) (h : Consistent x.2) :
    Tracks ids (removeIds removals x).1 (removeIds removals x).2 ∧
      Consistent (removeIds removals x).2 := by
  induction removals generalizing x with
  | nil => exact ⟨ht, h⟩
  | cons id removals ih =>
    obtain ⟨existing, s⟩ := x
    cases hdoc : existing id with
    | none =>
      simp only [removeIds, hdoc]
      exact ih (existing, s) ht h
    | some doc =>
      simp only [removeIds, hdoc]
      exact ih _ (removal_tracks ht hdoc) (removal_consistent h doc.n)

theorem pathColumns_eq (path : Text) : pathColumns lower path = docKeys lower path := by
  cases path with
  | nil => simp [pathColumns, docKeys, lower.nil, nameOf, afterLast, stemOf, beforeLast]
  | cons c path => simp [pathColumns]

variable {path : Text}

theorem candidate_of_not_around {aliasKeys : List Text}
    {aliases : List AliasRow} (hkeys : d.keys = docKeys lower path)
    (haliases : ∀ k, (⟨d.n, k⟩ : AliasRow) ∈ aliases → k ∈ aliasKeys)
    (h : around lower n path aliasKeys l = false) : candidate aliases l d = false := by
  simp only [around, Bool.or_eq_false_iff, beq_eq_false_iff_ne, List.contains_eq_mem,
    decide_eq_false_iff_not] at h
  obtain ⟨⟨⟨-, hname⟩, hfull⟩, halias⟩ := h
  have hn : sameName l d = false := by
    simp [sameName, hkeys, Ne.symm hname, Ne.symm hfull]
  have ha : matchesAlias aliases l d = false := by
    have hmem : (⟨d.n, l.tKey⟩ : AliasRow) ∉ aliases := fun hm => halias (haliases _ hm)
    simp [matchesAlias, hmem]
  simp [candidate, hn, ha]

theorem not_around {aliasKeys : List Text}
    (h : around lower n path aliasKeys l = false) : l.src ≠ n ∧ l.dst ≠ some n := by
  simp only [around, Bool.or_eq_false_iff, beq_eq_false_iff_ne] at h
  exact h.1.1.1

theorem linkRows_src (links : List LinkRef) (pos : Nat) :
    ∀ l ∈ linkRows lower n path pos links, l.src = n := by
  induction links generalizing pos with
  | nil => simp [linkRows]
  | cons l rest ih =>
    cases hk : linkKeys lower l.target l.kind path with
    | none => simpa [linkRows, hk] using ih (pos + 1)
    | some k => simpa [linkRows, hk] using ih (pos + 1)

/-- Document `n` has no aliases in `s₀`, its number is given, and the rest is as in `s`. -/
structure Cleared (n : Nat) (s s₀ : Index) : Prop where
  docs : s₀.docs = s.docs
  aliases : ∀ a, a ∈ s₀.aliases ↔ a ∈ s.aliases ∧ a.doc ≠ n
  links : ∀ l ∈ s₀.links, l ∈ s.links
  lt : n < s₀.nextN
  le : s.nextN ≤ s₀.nextN

theorem removeLinks_cleared (hn : n < s.nextN) :
    Cleared n s (removeLinks n s) where
  docs := rfl
  aliases := by simp [removeLinks]
  links := fun l hl => (List.mem_filter.1 hl).1
  lt := hn
  le := le_rfl

theorem nextN_cleared (h : Sane s) :
    Cleared s.nextN s { s with nextN := s.nextN + 1 } where
  docs := rfl
  aliases := by
    intro a
    refine ⟨fun ha => ⟨ha, ?_⟩, And.left⟩
    have := h.aliases_lt a ha
    omega
  links := fun _ hl => hl
  lt := Nat.lt_succ_self _
  le := Nat.le_succ _

@[simp] theorem writeLinks_docs (n : Nat) (note : NoteRecord) (s : Index) :
    (writeLinks lower n note s).docs = s.docs := by
  unfold writeLinks
  split <;> rfl

@[simp] theorem writeLinks_nextN (n : Nat) (note : NoteRecord) (s : Index) :
    (writeLinks lower n note s).nextN = s.nextN := by
  unfold writeLinks
  split <;> rfl

variable {note : NoteRecord}

theorem writeLinks_aliases_doc {a : AliasRow}
    (h : a ∈ (writeLinks lower n note s).aliases) : a ∈ s.aliases ∨ a.doc = n := by
  unfold writeLinks at h
  split at h
  · exact .inl h
  · obtain h | h := List.mem_append.1 h
    · exact .inl h
    · obtain ⟨k, -, rfl⟩ := List.mem_map.1 h
      exact .inr rfl

/-- The new row of a document, `upsertDoc`. -/
def newRow (lower : Lower) (n : Nat) (note : NoteRecord) : DocRow :=
  ⟨n, note.id, note.base, note.path, note.ext, pathColumns lower note.path⟩

theorem mem_upsertDoc :
    d ∈ (upsertDoc lower n note s).docs ↔
      (d ∈ s.docs ∧ d.n ≠ n ∧ d.id ≠ note.id) ∨ d = newRow lower n note := by
  simp [upsertDoc, newRow]

variable {s₀ : Index}

theorem upsertDoc_sane (h : Sane s)
    (h₀ : Cleared n s s₀) : Sane (writeLinks lower n note (upsertDoc lower n note s₀)) where
  ids := by
    intro d hd e he hid
    rw [writeLinks_docs, mem_upsertDoc, h₀.docs] at hd he
    obtain ⟨hd, -, hdid⟩ | rfl := hd <;> obtain ⟨he, -, heid⟩ | rfl := he
    · exact h.ids d hd e he hid
    · exact absurd hid hdid
    · exact absurd hid.symm heid
    · rfl
  docs_lt := by
    intro d hd
    rw [writeLinks_docs, mem_upsertDoc, h₀.docs] at hd
    rw [writeLinks_nextN]
    obtain ⟨hd, -, -⟩ | rfl := hd
    · exact (h.docs_lt d hd).trans_le h₀.le
    · exact h₀.lt
  aliases_lt := by
    intro a ha
    rw [writeLinks_nextN]
    obtain ha | ha := writeLinks_aliases_doc ha
    · exact (h.aliases_lt a ((h₀.aliases a).1 ha).1).trans_le h₀.le
    · rw [ha]
      exact h₀.lt

theorem upsertDoc_resolved (h : Consistent s)
    (h₀ : Cleared n s s₀) (hid : ∀ d ∈ s.docs, d.id = note.id → d.n = n)
    (hbase : note.base.isSome → ∀ l ∈ s₀.links, l.dst ≠ some n) :
    Resolved (writeLinks lower n note (upsertDoc lower n note s₀)) := by
  have hdocs : ∀ d : DocRow, d.n ≠ n →
      (d ∈ (upsertDoc lower n note s₀).docs ↔ d ∈ s.docs) := by
    intro d hn
    rw [mem_upsertDoc, h₀.docs]
    constructor
    · rintro (⟨hd, -, -⟩ | rfl)
      · exact hd
      · exact absurd rfl hn
    · exact fun hd => .inl ⟨hd, hn, fun he => hn (hid d hd he)⟩
  have hrow : ∀ d ∈ (upsertDoc lower n note s₀).docs, d.n = n → d = newRow lower n note := by
    intro d hd hn
    obtain ⟨-, hne, -⟩ | hd := mem_upsertDoc.1 hd
    · exact absurd hn hne
    · exact hd
  cases hb : note.base with
  | some b =>
    have hs : ChangesOnly n s (upsertDoc lower n note s₀) :=
      ⟨hdocs, fun a hn => (h₀.aliases a).trans (and_iff_left hn)⟩
    intro l hl
    simp only [writeLinks, hb] at hl ⊢
    have hun : Unaffected n s (upsertDoc lower n note s₀) l := by
      refine ⟨h.resolved l (h₀.links l hl), hbase (by simp [hb]) l hl, fun d hd hn => ?_⟩
      rw [hrow d hd hn]
      simp [candidate, sameName, matchesAlias, newRow, hb]
    exact hun.dst.trans (resolve_unaffected hs hun).symm
  | none =>
    simp only [writeLinks, hb]
    refine resolved_resolveWhere (n := n) (s := s) ⟨hdocs, fun a hn => ?_⟩ fun l hl hscope => ?_
    · have hnew : a ∉ (aliasKeysOf lower note.aliases).map (⟨n, ·⟩) := by
        intro hm
        obtain ⟨k, -, rfl⟩ := List.mem_map.1 hm
        exact hn rfl
      exact List.mem_append.trans ((or_iff_left hnew).trans ((h₀.aliases a).trans (and_iff_left hn)))
    · have hout := not_around hscope
      have hold : l ∈ s₀.links := by
        obtain hl | hl := List.mem_append.1 hl
        · exact hl
        · exact absurd (linkRows_src _ _ l hl) hout.1
      refine ⟨h.resolved l (h₀.links l hold), hout.2, fun d hd hn => ?_⟩
      obtain rfl := hrow d hd hn
      refine candidate_of_not_around (pathColumns_eq _) (fun k hk => ?_) hscope
      obtain hk | hk := List.mem_append.1 hk
      · exact absurd rfl ((h₀.aliases _).1 hk).2
      · obtain ⟨k', hk', he⟩ := List.mem_map.1 hk
        cases he
        exact hk'

theorem writeRecord_of_some {doc : DocRow} (h : existing note.id = some doc) :
    writeRecord lower note (existing, s) =
      (Function.update existing note.id (some (newRow lower doc.n note)),
        writeLinks lower doc.n note (upsertDoc lower doc.n note (removeLinks doc.n s))) := by
  simp only [writeRecord, h, newRow]

theorem writeRecord_of_none (h : existing note.id = none) :
    writeRecord lower note (existing, s) =
      (Function.update existing note.id (some (newRow lower s.nextN note)),
        writeLinks lower s.nextN note
          (upsertDoc lower s.nextN note { s with nextN := s.nextN + 1 })) := by
  simp only [writeRecord, h, newRow]

/-- The record is not a row of a base that takes the place of a document another one links to. -/
def KeepsTargets (note : NoteRecord) (x : Existing × Index) : Prop :=
  match note.base, x.1 note.id with
  | some _, some doc => ∀ l ∈ x.2.links, l.src ≠ doc.n → l.dst ≠ some doc.n
  | _, _ => True

instance (note : NoteRecord) (x : Existing × Index) : Decidable (KeepsTargets note x) := by
  unfold KeepsTargets
  split <;> infer_instance

theorem upsertDoc_tracks (ht : Tracks ids existing s) (h₀ : Cleared n s s₀) :
    Tracks ids (Function.update existing note.id (some (newRow lower n note)))
      (writeLinks lower n note (upsertDoc lower n note s₀)) where
  lt := by
    intro id doc hdoc
    rw [writeLinks_nextN]
    by_cases hid : id = note.id
    · subst hid
      obtain rfl : newRow lower n note = doc := by simpa using hdoc
      exact h₀.lt
    · rw [Function.update_of_ne hid] at hdoc
      exact (ht.lt id doc hdoc).trans_le h₀.le
  found := by
    intro id doc hdoc d hd hdid
    rw [writeLinks_docs, mem_upsertDoc, h₀.docs] at hd
    by_cases hid : id = note.id
    · subst hid
      obtain rfl : newRow lower n note = doc := by simpa using hdoc
      obtain ⟨-, -, hne⟩ | rfl := hd
      · exact absurd hdid hne
      · rfl
    · rw [Function.update_of_ne hid] at hdoc
      obtain ⟨hd, -, -⟩ | rfl := hd
      · exact ht.found id doc hdoc d hd hdid
      · exact absurd hdid.symm hid
  missing := by
    intro id hmem hnone d hd hdid
    rw [writeLinks_docs, mem_upsertDoc, h₀.docs] at hd
    by_cases hid : id = note.id
    · subst hid
      simp at hnone
    · rw [Function.update_of_ne hid] at hnone
      obtain ⟨hd, -, -⟩ | rfl := hd
      · exact ht.missing id hmem hnone d hd hdid
      · exact hid hdid.symm

theorem writeRecord_spec {x : Existing × Index}
    (hmem : note.id ∈ ids) (ht : Tracks ids x.1 x.2) (h : Consistent x.2) (hok : KeepsTargets note x) :
    Tracks ids (writeRecord lower note x).1 (writeRecord lower note x).2 ∧
      Consistent (writeRecord lower note x).2 := by
  obtain ⟨existing, s⟩ := x
  cases hold : existing note.id with
  | none =>
    rw [writeRecord_of_none hold]
    have h₀ := nextN_cleared h.toSane
    have hid : ∀ d ∈ s.docs, d.id = note.id → d.n = s.nextN := fun d hd he =>
      absurd he (ht.missing note.id hmem hold d hd)
    have hbase : note.base.isSome → ∀ l ∈ s.links, l.dst ≠ some s.nextN :=
      fun _ l hl => h.dst_ne hl le_rfl
    exact ⟨upsertDoc_tracks ht h₀, upsertDoc_sane h.toSane h₀, upsertDoc_resolved h h₀ hid hbase⟩
  | some doc =>
    rw [writeRecord_of_some hold]
    have h₀ := removeLinks_cleared (ht.lt note.id doc hold)
    have hbase : note.base.isSome → ∀ l ∈ (removeLinks doc.n s).links, l.dst ≠ some doc.n := by
      intro hb l hl
      obtain ⟨b, hb⟩ := Option.isSome_iff_exists.1 hb
      simp only [KeepsTargets, hb, hold] at hok
      obtain ⟨hl, hsrc⟩ := List.mem_filter.1 hl
      exact hok l hl (by simpa using hsrc)
    exact ⟨upsertDoc_tracks ht h₀, upsertDoc_sane h.toSane h₀,
      upsertDoc_resolved h h₀ (ht.found note.id doc hold) hbase⟩

/-- `KeepsTargets` for each record of a batch, when its turn comes. -/
def BatchKeepsTargets (lower : Lower) : List NoteRecord → Existing × Index → Prop
  | [], _ => True
  | note :: notes, x => KeepsTargets note x ∧ BatchKeepsTargets lower notes (writeRecord lower note x)

instance BatchKeepsTargets.decidable (lower : Lower) : ∀ (notes : List NoteRecord)
    (x : Existing × Index), Decidable (BatchKeepsTargets lower notes x)
  | [], _ => .isTrue trivial
  | note :: notes, x =>
    have := BatchKeepsTargets.decidable lower notes (writeRecord lower note x)
    inferInstanceAs (Decidable (_ ∧ _))

theorem writeRecords_consistent (records : List NoteRecord)
    (x : Existing × Index) (hmem : ∀ note ∈ records, note.id ∈ ids) (ht : Tracks ids x.1 x.2)
    (h : Consistent x.2) (hok : BatchKeepsTargets lower records x) :
    Consistent (writeRecords lower records x).2 := by
  induction records generalizing x with
  | nil => exact h
  | cons note notes ih =>
    obtain ⟨hnote, hrest⟩ := hok
    obtain ⟨ht', h'⟩ := writeRecord_spec (hmem note List.mem_cons_self) ht h hnote
    exact ih _ (fun r hr => hmem r (List.mem_cons_of_mem _ hr)) ht' h' hrest

/-- The state of a batch when its removals are done. -/
def afterRemovals (records : List NoteRecord) (removals : List Text) (s : Index) :
    Existing × Index :=
  removeIds removals (lookup s (records.map (·.id) ++ removals), s)

theorem write_consistent (h : Consistent s) (records : List NoteRecord) (removals : List Text)
    (hok : BatchKeepsTargets lower records (afterRemovals records removals s)) :
    Consistent (write lower records removals s) := by
  obtain ⟨ht, h'⟩ := removeIds_spec _ removals (_, s) (lookup_tracks h.toSane _) h
  refine writeRecords_consistent records _ (fun note hn => ?_) ht h' hok
  exact List.mem_append_left _ (List.mem_map_of_mem hn)

theorem moveLinks_resolved (h : Resolved s)
    (hs : ChangesOnly n s s₀) (hlinks : s₀.links = s.links) (haliases : s₀.aliases = s.aliases)
    (hkeys : ∀ d ∈ s₀.docs, d.n = n → d.keys = docKeys lower path) :
    Resolved (moveLinks lower n path s₀) := by
  refine resolved_resolveWhere (n := n) (s := s) ⟨hs.docs, hs.aliases⟩ fun l hl hscope => ?_
  have hout := not_around hscope
  have hold : l ∈ s.links := by
    obtain ⟨l₀, hl₀, he⟩ := List.mem_filterMap.1 hl
    split at he
    · rename_i hsrc
      obtain ⟨k, -, rfl⟩ := Option.map_eq_some_iff.1 he
      exact absurd (by simpa using hsrc) hout.1
    · obtain rfl : l₀ = l := by simpa using he
      exact hlinks ▸ hl₀
  refine ⟨haliases ▸ h l hold, hout.2, fun d hd hn => ?_⟩
  refine candidate_of_not_around (hkeys d hd hn) (fun k hk => ?_) hscope
  exact List.mem_map.2 ⟨_, List.mem_filter.2 ⟨hk, by simp [hn]⟩, rfl⟩

theorem moveDoc_consistent (h : Consistent s) (id path : Text) :
    Consistent (moveDoc lower id path s) := by
  unfold moveDoc
  split
  · exact h
  rename_i doc hdoc
  split
  · exact h
  split
  · exact removal_consistent h doc.n
  split
  · exact h
  set moved := s.docs.map fun d => if d.n == doc.n then
      { d with path := path, ext := extOf lower path, keys := pathColumns lower path } else d
    with hmoved
  have hmem : ∀ d ∈ moved, ∃ e ∈ s.docs, d.n = e.n ∧ d.id = e.id ∧
      (d.n ≠ doc.n → d = e) ∧ (d.n = doc.n → d.keys = docKeys lower path) := by
    intro d hd
    obtain ⟨e, he, rfl⟩ := List.mem_map.1 hd
    by_cases hn : e.n = doc.n
    · exact ⟨e, he, by simp [hn, pathColumns_eq]⟩
    · exact ⟨e, he, by simp [hn]⟩
  refine ⟨⟨?_, ?_, h.aliases_lt⟩, moveLinks_resolved h.resolved ⟨?_, fun _ _ => Iff.rfl⟩ rfl rfl ?_⟩
  · intro d hd d' hd' hid
    obtain ⟨e, he, hn, hide, -⟩ := hmem d hd
    obtain ⟨e', he', hn', hide', -⟩ := hmem d' hd'
    rw [hn, hn']
    exact h.ids e he e' he' (hide ▸ hide' ▸ hid)
  · intro d hd
    obtain ⟨e, he, hn, -⟩ := hmem d hd
    rw [hn]
    exact h.docs_lt e he
  · intro d hn
    constructor
    · intro hd
      obtain ⟨e, he, -, -, hde, -⟩ := hmem d hd
      rw [hde hn]
      exact he
    · intro hd
      exact List.mem_map.2 ⟨d, hd, by simp [hn]⟩
  · intro d hd hn
    obtain ⟨e, -, -, -, -, hk⟩ := hmem d hd
    exact hk hn

def Op.KeepsTargets (lower : Lower) (s : Index) : Op → Prop
  | .applyRecords records =>
    BatchKeepsTargets lower (kept records) (afterRemovals (kept records) (trashed records) s)
  | .removeDocs _ | .moveDoc _ _ => True

instance (lower : Lower) (s : Index) : ∀ op : Op, Decidable (op.KeepsTargets lower s)
  | .applyRecords _ => BatchKeepsTargets.decidable lower _ _
  | .removeDocs _ | .moveDoc _ _ => .isTrue trivial

theorem step_consistent {op : Op} (h : Consistent s)
    (hok : op.KeepsTargets lower s) (hstep : step lower s op = some s') : Consistent s' := by
  cases op with
  | applyRecords records =>
    obtain rfl : applyRecords lower records s = s' := by simpa [step] using hstep
    exact write_consistent h _ _ hok
  | removeDocs ids =>
    obtain rfl : removeDocs lower ids s = s' := by simpa [step] using hstep
    exact write_consistent h [] ids trivial
  | moveDoc id path =>
    obtain rfl : moveDoc lower id path s = s' := by simpa [step] using hstep
    exact moveDoc_consistent h id path

/-- In every run whose records keep the targets of the links, the stored target of every link is
the one that resolving it from scratch gives. -/
theorem links_resolved {s : Index}
    (h : Transition.Run (step lower) (fun s op => op.KeepsTargets lower s) Index.empty s) :
    Resolved s :=
  (h.invariant Consistent consistent_empty fun _ _ _ h hok hstep =>
    step_consistent h hok hstep).resolved

def asciiLower : Lower := ⟨List.map Char.toLower, List.map_nil⟩

/-- A note `A` that links to `B`, the note `B`, and `B` become a row of a base. -/
def noteA : NoteRecord := ⟨['a'], none, "A.md".toList, "md".toList, [], [⟨['B'], .wiki⟩]⟩
def noteB : NoteRecord := ⟨['b'], none, "B.md".toList, "md".toList, [], []⟩
def rowB : NoteRecord := ⟨['b'], some ['c'], "B.md".toList, "md".toList, [], []⟩

/-- `B` moves to another folder, is removed, and comes back as a note, then a row takes a new id. -/
def orderly : List Op :=
  [.applyRecords [noteA], .applyRecords [noteB], .moveDoc ['b'] "C/B.md".toList,
    .removeDocs [['b']], .applyRecords [noteB, { rowB with id := ['d'] }]]

theorem links_resolved_orderly : ∃ s,
    Transition.Run (step asciiLower) (fun s op => op.KeepsTargets asciiLower s) Index.empty s ∧
      s.links.map (·.dst) = [some 3] ∧ Resolved s := by
  obtain ⟨s, hexec, hdst⟩ : ∃ s, Transition.exec (step asciiLower)
      (fun s op => op.KeepsTargets asciiLower s) Index.empty orderly = some s ∧
        s.links.map (·.dst) = [some 3] := ⟨_, rfl, rfl⟩
  have hrun := Transition.run_of_exec _ _ _ hexec
  exact ⟨s, hrun, hdst, links_resolved hrun⟩

/-- The row of a base takes the place of the note: the link of `A` still points at its number. -/
theorem links_resolved_fails : ∃ s,
    Transition.Run (step asciiLower) (fun _ _ => True) Index.empty s ∧ ¬ Resolved s := by
  obtain ⟨s, hexec, hstale⟩ : ∃ s, Transition.exec (step asciiLower) (fun _ _ => True) Index.empty
      [.applyRecords [noteA], .applyRecords [noteB], .applyRecords [rowB]] = some s ∧
        ¬ Resolved s := ⟨_, rfl, by decide +kernel⟩
  exact ⟨s, Transition.run_of_exec _ _ _ hexec, hstale⟩

end Savoire.VaultIndex
