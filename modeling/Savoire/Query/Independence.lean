import Savoire.Query.Engine

/-! When the answer to a query does not depend on the order in which the documents came. -/
namespace Savoire
open Query
namespace InMemory
open StableSort (Sorter Consistent)

section Definitions
variable (host : EngineHost)

def keeps (inSource : IndexedDoc → Bool) (q : Query) (d : IndexedDoc) : Bool :=
  inSource d && hasTerms (wordsOf host d) (words host (q.text.getD [])) &&
    q.filter.all fun f => matchesFilter host d.toEvalDoc f

def rowFor (sorts : List QuerySort) (d : IndexedDoc) : Row :=
  ⟨sorts.map fun s => place host.toHost (fieldOf host d.toEvalDoc s.field), d.id⟩

def OrderSafe (q : Query) (docs : List IndexedDoc) : Prop :=
  match checkQuery host q with
  | .error _ => True
  | .ok inSource =>
    Orderly host.toHost q.sort ((docs.filter (keeps host inSource q)).map (rowFor host q.sort))

instance (q : Query) (docs : List IndexedDoc) : Decidable (OrderSafe host q docs) := by
  unfold OrderSafe
  split <;> infer_instance

end Definitions

variable {host : EngineHost}

section Sorting
variable {sorts : List QuerySort} {docs docs' : List IndexedDoc}

theorem compareKeyed_eq (sorts : List QuerySort) (d e : IndexedDoc) :
    compareKeyed host sorts (d, keysOf host sorts d) (e, keysOf host sorts e) =
      cmpRows host.toHost sorts (rowFor host sorts d) (rowFor host sorts e) :=
  sign_compareFrom _ _ d.id e.id sorts

theorem rowFor_inj (hids : (docs.map (·.id)).Nodup) : ∀ a ∈ docs.map (rowFor host sorts),
    ∀ b ∈ docs.map (rowFor host sorts), a.id = b.id → a = b := by
  intro a ha b hb hid
  obtain ⟨d, hd, rfl⟩ := List.mem_map.1 ha
  obtain ⟨e, he, rfl⟩ := List.mem_map.1 hb
  rw [List.inj_on_of_nodup_map hids hd he hid]

theorem orderly_iff_consistent (hids : (docs.map (·.id)).Nodup) :
    Orderly host.toHost sorts (docs.map (rowFor host sorts)) ↔
      Consistent (compareKeyed host sorts) (docs.map fun d => (d, keysOf host sorts d)) ∧
      ∀ a ∈ docs.map fun d => (d, keysOf host sorts d), ∀ b ∈ docs.map fun d => (d, keysOf host sorts d),
        a ≠ b → compareKeyed host sorts a b ≠ .eq := by
  rw [orderly_iff (rowFor_inj hids)]
  have hdoc : ∀ d ∈ docs, ∀ e ∈ docs, d = e ↔ rowFor host sorts d = rowFor host sorts e := by
    intro d hd e he
    refine ⟨fun h => h ▸ rfl, fun h => ?_⟩
    exact List.inj_on_of_nodup_map hids hd he (congrArg Row.id h)
  have hkeyed : ∀ d e : IndexedDoc, (d, keysOf host sorts d) = (e, keysOf host sorts e) ↔ d = e :=
    fun d e => ⟨fun h => congrArg Prod.fst h, fun h => h ▸ rfl⟩
  simp only [List.forall_mem_map, compareKeyed_eq, ne_eq, hkeyed]
  constructor
  · rintro ⟨hstrict, htrans⟩
    have hlt : ∀ d ∈ docs, ∀ e ∈ docs,
        cmpRows host.toHost sorts (rowFor host sorts d) (rowFor host sorts e) ≠ .gt →
        d = e ∨ cmpRows host.toHost sorts (rowFor host sorts d) (rowFor host sorts e) = .lt := by
      intro d hd e he hgt
      by_cases hde : d = e
      · exact .inl hde
      · cases hc : cmpRows host.toHost sorts (rowFor host sorts d) (rowFor host sorts e) <;> simp_all
    refine ⟨⟨?_, ?_⟩, fun d hd e he hde => hstrict d hd e he (mt (hdoc d hd e he).2 hde)⟩
    · simp only [List.forall_mem_map, compareKeyed_eq]
      exact fun d _ e _ => cmpRows_swap sorts _ _
    · simp only [List.forall_mem_map, compareKeyed_eq]
      intro d hd e he f hf hde hef
      obtain rfl | hde := hlt d hd e he hde
      · exact hef
      obtain rfl | hef := hlt e he f hf hef
      · simp [hde]
      · simp [htrans d hd e he f hf hde hef]
  · rintro ⟨hcons, hstrict⟩
    have hcmp : ∀ d ∈ docs, ∀ e ∈ docs, ∀ f ∈ docs,
        cmpRows host.toHost sorts (rowFor host sorts d) (rowFor host sorts e) ≠ .gt →
        cmpRows host.toHost sorts (rowFor host sorts e) (rowFor host sorts f) ≠ .gt →
        cmpRows host.toHost sorts (rowFor host sorts d) (rowFor host sorts f) ≠ .gt := by
      have htrans := hcons.trans
      simp only [List.forall_mem_map, compareKeyed_eq] at htrans
      exact htrans
    refine ⟨fun d hd e he hne => hstrict d hd e he fun h => hne (h ▸ rfl), ?_⟩
    intro d hd e he f hf hde hef
    have hgt := hcmp d hd e he f hf (by simp [hde]) (by simp [hef])
    have hne : d ≠ f := by
      rintro rfl
      rw [cmpRows_swap sorts (rowFor host sorts d) (rowFor host sorts e), hde] at hef
      cases hef
    cases hc : cmpRows host.toHost sorts (rowFor host sorts d) (rowFor host sorts f) <;> simp_all

theorem consistent_ids (docs : List IndexedDoc) :
    Consistent (fun a b : IndexedDoc => sign (compareIds a.id b.id)) docs := by
  simp only [compareIds, sign_textSign]
  constructor
  · intro a _ b _
    exact Std.OrientedCmp.eq_swap
  · intro a _ b _ c _ hab hbc
    exact Ordering.isLE_iff_ne_gt.1 (Std.TransCmp.isLE_trans (Ordering.isLE_iff_ne_gt.2 hab)
      (Ordering.isLE_iff_ne_gt.2 hbc))

theorem mem_sortDocs {sorter : Sorter} {d : IndexedDoc} (h : d ∈ sortDocs host sorter docs sorts) :
    d ∈ docs := by
  unfold sortDocs at h
  split at h
  · exact (sorter.perm _ _).subset h
  · obtain ⟨a, ha, rfl⟩ := List.mem_map.1 h
    obtain ⟨d, hd, rfl⟩ := List.mem_map.1 ((sorter.perm _ _).subset ha)
    exact hd

variable (sorter : Sorter)

theorem sortDocs_eq_of_perm (hids : (docs.map (·.id)).Nodup)
    (h : Orderly host.toHost sorts (docs.map (rowFor host sorts))) (hp : docs'.Perm docs) :
    sortDocs host sorter docs' sorts = sortDocs host sorter docs sorts := by
  cases sorts with
  | nil =>
    refine sorter.apply_eq_of_perm (consistent_ids docs) (fun a ha b hb hne heq => ?_) hp
    rw [compareIds, sign_textSign, cmpText_eq_eq] at heq
    exact hne (List.inj_on_of_nodup_map hids ha hb heq)
  | cons s sorts =>
    obtain ⟨hcons, hstrict⟩ := (orderly_iff_consistent hids).1 h
    have hsort := sorter.apply_eq_of_perm hcons hstrict (hp.map fun d => (d, keysOf host (s :: sorts) d))
    simp only [sortDocs, hsort]

theorem sortDocs_perm (docs : List IndexedDoc) (sorts : List QuerySort) :
    (sortDocs host sorter docs sorts).Perm docs := by
  cases sorts with
  | nil => exact sorter.perm _ _
  | cons s sorts =>
    have hp := (sorter.perm (compareKeyed host (s :: sorts))
      (docs.map fun d => (d, keysOf host (s :: sorts) d))).map Prod.fst
    have hdocs : (docs.map fun d => (d, keysOf host (s :: sorts) d)).map Prod.fst = docs := by
      rw [List.map_map]
      exact List.map_id docs
    rwa [hdocs] at hp

theorem sortDocs_pairwise (hids : (docs.map (·.id)).Nodup)
    (h : Orderly host.toHost sorts (docs.map (rowFor host sorts))) :
    (sortDocs host sorter docs sorts).Pairwise fun a b =>
      cmpRows host.toHost sorts (rowFor host sorts a) (rowFor host sorts b) ≠ .gt := by
  cases sorts with
  | nil =>
    refine (sorter.sorted (consistent_ids docs)).imp fun {a b} hab => ?_
    rwa [compareIds, sign_textSign] at hab
  | cons s sorts =>
    obtain ⟨hcons, -⟩ := (orderly_iff_consistent hids).1 h
    simp only [sortDocs, List.pairwise_map]
    refine (sorter.sorted hcons).imp_of_mem fun {a b} ha hb hab => ?_
    obtain ⟨d, -, rfl⟩ := List.mem_map.1 ((sorter.perm _ _).subset ha)
    obtain ⟨e, -, rfl⟩ := List.mem_map.1 ((sorter.perm _ _).subset hb)
    rwa [compareKeyed_eq] at hab

theorem sortDocs_eq (hids : (docs.map (·.id)).Nodup)
    (h : Orderly host.toHost sorts (docs.map (rowFor host sorts))) (hp : docs'.Perm docs)
    (hsorted : docs'.Pairwise fun a b =>
      cmpRows host.toHost sorts (rowFor host sorts a) (rowFor host sorts b) ≠ .gt) :
    sortDocs host sorter docs sorts = docs' := by
  have hmem : ∀ d, d ∈ sortDocs host sorter docs sorts → d ∈ docs := fun d => mem_sortDocs
  refine ((sortDocs_perm sorter docs sorts).trans hp.symm).eq_of_pairwise (fun a b ha hb hab hba => ?_)
    (sortDocs_pairwise sorter hids h) hsorted
  by_contra hne
  have hid : (rowFor host sorts a).id ≠ (rowFor host sorts b).id := fun hid =>
    hne (List.inj_on_of_nodup_map hids (hmem a ha) (hp.subset hb) hid)
  rw [cmpRows_swap sorts (rowFor host sorts a)] at hba
  have heq : cmpRows host.toHost sorts (rowFor host sorts a) (rowFor host sorts b) = .eq →
      LostFrom host.toHost sorts (rowFor host sorts a) (rowFor host sorts b) := (cmpRows_eq_eq hid).1
  cases hc : cmpRows host.toHost sorts (rowFor host sorts a) (rowFor host sorts b) with
  | lt => simp [hc] at hba
  | gt => exact hab hc
  | eq => exact h.1 _ (List.mem_map_of_mem (hmem a ha)) _ (List.mem_map_of_mem (hp.subset hb)) hid (heq hc)

theorem exists_sortDocs_ne (hids : (docs.map (·.id)).Nodup)
    (h : ¬ Orderly host.toHost sorts (docs.map (rowFor host sorts))) :
    ∃ sorter : Sorter, sortDocs host sorter docs sorts ≠ sortDocs host sorter docs.reverse sorts := by
  cases sorts with
  | nil => exact absurd ⟨fun _ _ _ _ _ => id, fun _ _ _ _ _ _ => id⟩ h
  | cons s sorts =>
    let keyed : IndexedDoc → Keyed := fun d => (d, keysOf host (s :: sorts) d)
    have hloose : ¬ Consistent (compareKeyed host (s :: sorts)) (docs.map keyed) ∨
        ∃ a ∈ docs.map keyed, ∃ b ∈ docs.map keyed, a ≠ b ∧ compareKeyed host (s :: sorts) a b = .eq := by
      by_contra hno
      push Not at hno
      exact h ((orderly_iff_consistent hids).2 hno)
    have hswap : ∀ a ∈ docs.map keyed, ∀ b ∈ docs.map keyed,
        compareKeyed host (s :: sorts) b a = (compareKeyed host (s :: sorts) a b).swap := by
      simp only [List.forall_mem_map, keyed, compareKeyed_eq]
      exact fun d _ e _ => cmpRows_swap _ _ _
    have hn : (docs.map keyed).Nodup :=
      hids.of_map.map fun d e h => congrArg Prod.fst h
    obtain ⟨sorter, hne⟩ := StableSort.exists_sorter_ne hn hswap hloose
    refine ⟨sorter, fun heq => hne ?_⟩
    -- a keyed document is known by the document
    have hback : ∀ l : List IndexedDoc, ∀ l' : List Keyed, l'.Perm (l.map keyed) →
        l' = (l'.map (·.1)).map keyed := by
      intro l l' hp
      rw [List.map_map]
      refine (List.map_id l').symm.trans (List.map_congr_left fun a ha => ?_)
      obtain ⟨d, -, rfl⟩ := List.mem_map.1 (hp.subset ha)
      rfl
    rw [hback docs _ (sorter.perm _ _), ← List.map_reverse,
      hback docs.reverse _ (sorter.perm _ (docs.reverse.map keyed))]
    exact congrArg (List.map keyed) heq

end Sorting

variable (e : Engine host)

theorem hits_eq (inSource : IndexedDoc → Bool) (q : Query) :
    e.hits inSource q = e.docs.filter (keeps host inSource q) := by
  refine List.filter_congr fun d hd => ?_
  rw [e.indexed d hd]
  rfl

theorem docs_perm {docs : List IndexedDoc} (hids : (docs.map (·.id)).Nodup)
    (h : ∀ d, d ∈ e.docs ↔ d ∈ docs) : e.docs.Perm docs :=
  (List.perm_ext_iff_of_nodup e.ids.of_map hids.of_map).2 h

theorem foldl_upserts (docs : List IndexedDoc)
    (hids : ((e.docs ++ docs).map (·.id)).Nodup) :
    ((docs.map Change.upsert).foldl Engine.apply e).docs = e.docs ++ docs := by
  induction docs generalizing e with
  | nil => simp
  | cons d docs ih =>
    have hnew : d.id ∉ e.docs.map (·.id) := by
      rw [List.map_append, List.map_cons] at hids
      exact fun h => (List.nodup_append.1 hids).2.2 _ h _ List.mem_cons_self rfl
    have hdocs : (e.upsert d).docs = e.docs ++ [d] := by simp only [Engine.upsert, hnew, ↓reduceIte]
    rw [List.map_cons, List.foldl_cons, Engine.apply, ih, hdocs]
    · simp
    · rw [hdocs]
      simpa using hids

theorem index_upserts (host : EngineHost) {docs : List IndexedDoc} (hids : (docs.map (·.id)).Nodup) :
    (index host (docs.map Change.upsert)).docs = docs := by
  have h := foldl_upserts (Engine.empty host) docs (by simpa [Engine.empty] using hids)
  simpa [index, Engine.empty] using h

theorem decodeCursor_encodeCursor (host : EngineHost) (key : Text) (offset : Nat) :
    decodeCursor host (encodeCursor host key offset) key = .ok offset := by
  have hk : ∀ a b : Payload, Query.field "k".toList (.obj [("k".toList, a), ("o".toList, b)]) = some a :=
    fun _ _ => rfl
  have ho : ∀ a b : Payload, Query.field "o".toList (.obj [("k".toList, a), ("o".toList, b)]) = some b :=
    fun _ _ => rfl
  simp only [decodeCursor, encodeCursor, decodeOpaque_encodeOpaque, hk, ho]
  simp

theorem startOf_encodeCursor (q : Query) (offset : Nat) :
    startOf host q (some (encodeCursor host q.key offset)) = .ok offset := by
  have hne : encodeCursor host q.key offset ≠ [] := encodeOpaque_ne_nil _ _
  have hdecode := decodeCursor_encodeCursor host q.key offset
  cases hc : encodeCursor host q.key offset with
  | nil => exact absurd hc hne
  | cons c rest => rwa [hc] at hdecode

theorem run_eq (sorter : Sorter) {q : Query} {inSource : IndexedDoc → Bool}
    (hq : checkQuery host q = .ok inSource) (limit : Option Query.Num) (cursor : Option Text) :
    e.run sorter q limit cursor = (do
      let limit ← checkLimit limit
      let start ← startOf host q cursor
      return answer host sorter q limit start
        (sortDocs host sorter (e.docs.filter (keeps host inSource q)) q.sort)) := by
  simp only [Engine.run, hq, hits_eq]
  rfl

theorem run_at (sorter : Sorter) {q : Query} {inSource : IndexedDoc → Bool}
    (hq : checkQuery host q = .ok inSource) (offset : Nat) :
    e.run sorter q (some (.fin 1)) (some (encodeCursor host q.key offset)) =
      .ok (answer host sorter q 1 offset
        (sortDocs host sorter (e.docs.filter (keeps host inSource q)) q.sort)) := by
  have hlimit : checkLimit (some (.fin 1)) = .ok 1 := by decide +kernel
  rw [run_eq e sorter hq, hlimit, startOf_encodeCursor]
  rfl

theorem eq_of_ids {docs l l' : List IndexedDoc} (hids : (docs.map (·.id)).Nodup)
    (hl : ∀ d ∈ l, d ∈ docs) (hl' : ∀ d ∈ l', d ∈ docs)
    (h : ∀ i, ((l.drop i).take 1).map (·.id) = ((l'.drop i).take 1).map (·.id)) : l = l' := by
  have hget : ∀ i : Nat, l[i]?.map (fun d : IndexedDoc => d.id) = l'[i]?.map (fun d : IndexedDoc => d.id) := by
    intro i
    have hi := congrArg List.head? (h i)
    simpa [List.head?_map, List.head?_take, List.head?_drop] using hi
  refine List.ext_getElem? fun i => ?_
  have hi := hget i
  cases ha : l[i]? with
  | none => simpa [ha] using hi
  | some d =>
    cases hb : l'[i]? with
    | none => simp [ha, hb] at hi
    | some e =>
      have hid : d.id = e.id := by simpa [ha, hb] using hi
      rw [List.inj_on_of_nodup_map hids (hl d (List.mem_of_getElem? ha)) (hl' e (List.mem_of_getElem? hb)) hid]

/-- The answer to a query does not depend on how its documents came, under any host, exactly when
the query is safe on them. -/
theorem answers_independent_iff (host : EngineHost) (q : Query) (docs : List IndexedDoc)
    (hids : (docs.map (·.id)).Nodup) :
    (∀ (sorter : Sorter) (h₁ h₂ : List Change), (∀ d, d ∈ (index host h₁).docs ↔ d ∈ docs) →
      (∀ d, d ∈ (index host h₂).docs ↔ d ∈ docs) → ∀ (limit : Option Query.Num) (cursor : Option Text),
        (index host h₁).run sorter q limit cursor = (index host h₂).run sorter q limit cursor) ↔
      OrderSafe host q docs := by
  unfold OrderSafe
  cases hq : checkQuery host q with
  | error err =>
    simp only [iff_true]
    intro sorter h₁ h₂ _ _ limit cursor
    simp only [Engine.run, hq]
    cases checkLimit limit <;> rfl
  | ok inSource =>
    have hkept : ((docs.filter (keeps host inSource q)).map (·.id)).Nodup :=
      (List.filter_sublist.map _).nodup hids
    constructor
    · intro h
      by_contra hloose
      obtain ⟨sorter, hne⟩ := exists_sortDocs_ne hkept hloose
      have hrev : (docs.reverse.map (·.id)).Nodup := by
        rw [List.map_reverse]
        exact List.nodup_reverse.2 hids
      have h₁ := index_upserts host hids
      have h₂ := index_upserts host hrev
      have hmem₁ : ∀ d, d ∈ (index host (docs.map .upsert)).docs ↔ d ∈ docs := fun d => by rw [h₁]
      have hmem₂ : ∀ d, d ∈ (index host (docs.reverse.map .upsert)).docs ↔ d ∈ docs := fun d => by
        rw [h₂]
        exact List.mem_reverse
      have hsame := h sorter _ _ hmem₁ hmem₂
      refine hne (eq_of_ids hids ?_ ?_ fun offset => ?_)
      · exact fun d hd => (List.mem_filter.1 (mem_sortDocs hd)).1
      · exact fun d hd => (List.mem_filter.1 (List.mem_reverse.1 (mem_sortDocs hd))).1
      · have hpage := hsame (some (.fin 1)) (some (encodeCursor host q.key offset))
        rw [run_at _ sorter hq, run_at _ sorter hq, h₁, h₂, List.filter_reverse] at hpage
        have hrows := congrArg (fun r => r.rows.map (·.id)) (Except.ok.inj hpage)
        simpa [answer, List.map_map, Function.comp_def, rowOf] using hrows
    · intro horderly sorter e₁ e₂ he₁ he₂ limit cursor
      have hhits : ∀ history, (∀ d, d ∈ (index host history).docs ↔ d ∈ docs) →
          sortDocs host sorter ((index host history).docs.filter (keeps host inSource q)) q.sort =
            sortDocs host sorter (docs.filter (keeps host inSource q)) q.sort :=
        fun history hh => sortDocs_eq_of_perm sorter hkept horderly ((docs_perm _ hids hh).filter _)
      rw [run_eq _ sorter hq, run_eq _ sorter hq, hhits e₁ he₁, hhits e₂ he₂]

def asciiHost : EngineHost where
  toPageHost := plainPageHost
  isWordChar := Char.isAlphanum
  compile _ := .error "unknown".toList
  add
    | .fin x, .fin y => .fin (x + y)
    | _, _ => .nan
  divide
    | .fin x, n => .fin (x / n)
    | x, _ => x

/-- A note with a title and a property `x`. -/
def note (id : Char) (title : Text) (x : Scalar) : IndexedDoc where
  id := [id]
  path := [id, '.', 'm', 'd']
  title := title
  props := ⟨[("x".toList, .scalar x)], by simp⟩
  created := none
  modified := none
  base := none
  text := none

/-- All the notes, sorted and grouped by `x`, with the sum of `x`. -/
def byX : Query where
  source := .notes ⟨none, none⟩
  filter := none
  text := none
  sort := [⟨.stored (.prop "x".toList), true⟩]
  select := none
  groupBy := some (.stored (.prop "x".toList))
  aggregate := some [⟨.sum, some (.stored (.prop "x".toList))⟩]
  key := "by x".toList

def mixed : List IndexedDoc :=
  [note 'a' "A".toList (.num (.fin 3)), note 'b' "B".toList (.text "t".toList),
    note 'c' "C".toList (.num .posInf)]

/-- `b` comes under another title and after `c`, and a note `d` comes and goes. -/
def detour : List Change :=
  [.upsert (note 'c' "C".toList (.num .posInf)), .upsert (note 'b' "old".toList .null),
    .upsert (note 'd' "D".toList .null), .upsert (note 'a' "A".toList (.num (.fin 3))),
    .remove ['d'], .upsert (note 'b' "B".toList (.text "t".toList))]

theorem answers_independent_detour :
    (index asciiHost (mixed.map .upsert)).run StableSort.insertionSorter byX none none =
      (index asciiHost detour).run StableSort.insertionSorter byX none none := by
  have hids : (mixed.map (·.id)).Nodup := by decide
  have hdetour : (index asciiHost detour).docs =
      [note 'c' "C".toList (.num .posInf), note 'b' "B".toList (.text "t".toList),
        note 'a' "A".toList (.num (.fin 3))] := rfl
  refine (answers_independent_iff asciiHost byX mixed hids).2 (by decide +kernel)
    StableSort.insertionSorter _ _ (fun d => by rw [index_upserts asciiHost hids]) (fun d => ?_) none none
  rw [hdetour]
  simp only [mixed, List.mem_cons, List.not_mem_nil, or_false]
  tauto

/-- Two notes with an infinite `x`: their difference is NaN, and the one that came first stays
first. -/
theorem answers_depend : ∃ (host : EngineHost) (q : Query) (sorter : Sorter) (h₁ h₂ : List Change),
    (∀ d, d ∈ (index host h₁).docs ↔ d ∈ (index host h₂).docs) ∧
      (index host h₁).run sorter q none none ≠ (index host h₂).run sorter q none none := by
  let a := note 'a' "A".toList (.num .posInf)
  let b := note 'b' "B".toList (.num .posInf)
  refine ⟨asciiHost, byX, StableSort.insertionSorter, [.upsert a, .upsert b], [.upsert b, .upsert a], ?_, ?_⟩
  · have hab : (index asciiHost [.upsert a, .upsert b]).docs = [a, b] := rfl
    have hba : (index asciiHost [.upsert b, .upsert a]).docs = [b, a] := rfl
    intro d
    rw [hab, hba]
    simp only [List.mem_cons, List.not_mem_nil, or_false]
    exact or_comm
  · intro h
    have hrows := congrArg (fun r => r.toOption.map fun r => r.rows.map (·.id)) h
    have hne : ((index asciiHost [.upsert a, .upsert b]).run StableSort.insertionSorter byX none none).toOption.map
        (fun r => r.rows.map (·.id)) ≠
        ((index asciiHost [.upsert b, .upsert a]).run StableSort.insertionSorter byX none none).toOption.map
          (fun r => r.rows.map (·.id)) := by decide +kernel
    exact hne hrows

end InMemory
end Savoire
