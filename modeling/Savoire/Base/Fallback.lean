import Savoire.Base.SortedRows
import Savoire.Base.SplitQuery

/-! The client computes the formulas on the rows that the engine gives it: when it finds the documents
that the engine finds, in its order and with its groups. -/
namespace Savoire.Base
open Query InMemory
open StableSort (Sorter Consistent)

variable {fuel : Nat}

section Fetch
variable {host : ClientHost} {sorter : Sorter} {e : Engine host.toEngineHost} {q : InMemory.Query}
  {inSource : IndexedDoc → Bool}

def sortedHits (sorter : Sorter) (e : Engine host.toEngineHost) (inSource : IndexedDoc → Bool)
    (q : InMemory.Query) : List IndexedDoc :=
  sortDocs host.toEngineHost sorter (e.docs.filter (keeps host.toEngineHost inSource q)) q.sort

theorem sortedHits_perm (sorter : Sorter) (e : Engine host.toEngineHost) (inSource : IndexedDoc → Bool)
    (q : InMemory.Query) :
    (sortedHits sorter e inSource q).Perm (e.docs.filter (keeps host.toEngineHost inSource q)) :=
  sortDocs_perm sorter _ _

variable {cursor : Option Text}

theorem run_page (hq : checkQuery host.toEngineHost q = .ok inSource) {limit : Option Query.Num} {n : Nat}
    (hlimit : checkLimit limit = .ok n) {offset : Nat}
    (hcursor : cursor = none ∧ offset = 0 ∨ cursor = some (encodeCursor host.toEngineHost q.key offset)) :
    e.run sorter q limit cursor =
      .ok (answer host.toEngineHost sorter q n offset (sortedHits sorter e inSource q)) := by
  have hstart : startOf host.toEngineHost q cursor = .ok offset := by
    obtain ⟨rfl, rfl⟩ | rfl := hcursor
    · rfl
    · exact startOf_encodeCursor q offset
  rw [run_eq e sorter hq, hlimit, hstart]
  rfl

theorem fetchFrom_more {query : Option Text → Except InMemory.QueryError QueryResult}
    {rows : List QueryRow} {r : QueryResult} {next : Text} (h : query cursor = .ok r)
    (hnext : r.next = some next) (hne : next ≠ []) (hroom : (rows ++ r.rows).length < baseQueryMaxRows) :
    fetchFrom query (fuel + 1) rows cursor = fetchFrom query fuel (rows ++ r.rows) (some next) := by
  rw [fetchFrom, h]
  dsimp only
  rw [hnext]
  cases next with
  | nil => exact absurd rfl hne
  | cons c cs => exact if_pos hroom

theorem fetchFrom_last {query : Option Text → Except InMemory.QueryError QueryResult}
    {rows : List QueryRow} {r : QueryResult} (h : query cursor = .ok r) (hnext : r.next = none) :
    fetchFrom query (fuel + 1) rows cursor = some (.ok ((rows ++ r.rows).take baseQueryMaxRows)) := by
  rw [fetchFrom, h]
  dsimp only
  rw [hnext]

theorem fetchFrom_eq (hq : checkQuery host.toEngineHost q = .ok inSource)
    (hfew : (sortedHits sorter e inSource q).length ≤ baseQueryMaxRows) (fuel : Nat) {offset : Nat}
    (hoffset : offset = 0 ∨ offset < (sortedHits sorter e inSource q).length)
    (hfuel : (sortedHits sorter e inSource q).length - offset < fuel)
    (hcursor : cursor = none ∧ offset = 0 ∨ cursor = some (encodeCursor host.toEngineHost q.key offset)) :
    fetchFrom (e.run sorter q (some (.fin queryMaxLimit))) fuel
        (((sortedHits sorter e inSource q).take offset).map (rowOf host.toEngineHost q)) cursor =
      some (.ok ((sortedHits sorter e inSource q).map (rowOf host.toEngineHost q))) := by
  have hlimit : checkLimit (some (.fin queryMaxLimit)) = .ok queryMaxLimit := by decide +kernel
  generalize hhits : sortedHits sorter e inSource q = hits at hfew hoffset hfuel ⊢
  induction fuel generalizing offset cursor with
  | zero => omega
  | succ fuel ih =>
    have hpage : e.run sorter q (some (.fin queryMaxLimit)) cursor = .ok (answer host.toEngineHost sorter q
        queryMaxLimit offset (sortedHits sorter e inSource q)) := run_page hq hlimit hcursor
    rw [hhits] at hpage
    let last := offset + ((hits.drop offset).take queryMaxLimit).length
    have hlen : ((hits.drop offset).take queryMaxLimit).length = min queryMaxLimit (hits.length - offset) := by
      rw [List.length_take, List.length_drop]
    have hrows : (hits.take offset).map (rowOf host.toEngineHost q) ++
        ((hits.drop offset).take queryMaxLimit).map (rowOf host.toEngineHost q) =
          (hits.take last).map (rowOf host.toEngineHost q) := by
      rw [← List.map_append, List.take_add]
      congr 2
      rw [List.take_eq_take_iff, hlen, List.length_drop]
      omega
    by_cases hmore : last < hits.length
    · have hgrow : offset < last := by
        have hpos : 0 < queryMaxLimit := by decide
        omega
      have hroom : ((hits.take offset).map (rowOf host.toEngineHost q) ++
          ((hits.drop offset).take queryMaxLimit).map (rowOf host.toEngineHost q)).length < baseQueryMaxRows := by
        rw [hrows, List.length_map, List.length_take]
        omega
      rw [fetchFrom_more hpage (if_pos hmore) (encodeOpaque_ne_nil _ _) hroom]
      simp only [answer]
      rw [hrows]
      exact ih (.inr rfl) (.inr hmore) (by omega)
    · rw [fetchFrom_last hpage (if_neg hmore)]
      simp only [answer]
      rw [hrows, List.take_of_length_le (l := hits) (by omega), List.take_of_length_le (by rwa [List.length_map])]

end Fetch

section Answers
variable (host : ClientHost) (formula : FormulaLookup host.toEngineHost) (sorter : Sorter)
  (e : Engine host.toEngineHost) (inSource : IndexedDoc → Bool) (q : InMemory.Query)

/-- The documents whose rows the client reads. -/
def readDocs : List IndexedDoc := e.docs.filter (keeps host.toEngineHost inSource (baseOf host q))

/-- The documents that the engine finds. -/
def foundDocs : List IndexedDoc := e.docs.filter (keeps host.toEngineHost inSource (toEngineQuery host formula q))

/-- The query on these documents keeps out of what the client reads, compares and counts otherwise
than the engine. -/
structure ClientSafe : Prop where
  selected : ∀ d ∈ readDocs host e inSource q, (rowOf host.toEngineHost q d).values = d.props.entries
  leaves : ∀ d ∈ readDocs host e inSource q, ∀ f, (splitWhere q.filter).client = some f →
    ∀ l ∈ f.leaves, LeafSafe host formula d.toEvalDoc l
  order : Orderly host.toHost (q.sort.map (toEngineSort host formula))
    ((if clientSort q then foundDocs host formula e inSource q else readDocs host e inSource q).map
      (rowFor host.toEngineHost (q.sort.map (toEngineSort host formula))))
  sorts : clientSort q = true → ∀ s ∈ q.sort, SortSafe host formula (foundDocs host formula e inSource q) s
  groups : ∀ f, q.groupBy = some f →
    GroupSafe host formula (sortedHits sorter e inSource (toEngineQuery host formula q)) f

variable {host formula sorter e inSource q}

theorem ClientSafe.shows (h : ClientSafe host formula sorter e inSource q) :
    ∀ d ∈ readDocs host e inSource q, Shows (rowOf host.toEngineHost q d) d.toEvalDoc :=
  fun d hd => ⟨rfl, rfl, rfl, h.selected d hd⟩

theorem ClientSafe.filter_read (h : ClientSafe host formula sorter e inSource q) :
    (readDocs host e inSource q).filter (fun d => clientKeeps host formula q (rowOf host.toEngineHost q d)) =
      foundDocs host formula e inSource q := by
  rw [readDocs, foundDocs, List.filter_filter]
  refine List.filter_congr fun d hd => ?_
  cases hk : keeps host.toEngineHost inSource (baseOf host q) d with
  | true =>
    have hread : d ∈ readDocs host e inSource q := List.mem_filter.2 ⟨hd, hk⟩
    rw [keeps_toEngine, hk, clientKeeps_eq (h.shows d hread) (h.leaves d hread), Bool.and_true, Bool.true_and]
  | false => rw [keeps_toEngine, hk, Bool.and_false, Bool.false_and]

theorem ids_of_filter (e : Engine host.toEngineHost) (p : IndexedDoc → Bool) : ((e.docs.filter p).map (·.id)).Nodup :=
  (List.filter_sublist.map _).nodup e.ids

theorem toEngineSort_of_plain (h : clientSort q = false) : q.sort.map (toEngineSort host formula) = q.sort := by
  refine (List.map_congr_left fun s hs => ?_).trans (List.map_id _)
  have hnot : isFormulaField s.field = false := by simpa using List.any_eq_false.1 h s hs
  rw [toEngineSort, toEngineField_of_not hnot]
  rfl

theorem foundDocs_sub : ∀ d ∈ foundDocs host formula e inSource q, d ∈ readDocs host e inSource q := by
  intro d hd
  obtain ⟨hmem, hk⟩ := List.mem_filter.1 hd
  rw [keeps_toEngine, Bool.and_eq_true] at hk
  exact List.mem_filter.2 ⟨hmem, hk.1⟩

section
variable (h : ClientSafe host formula sorter e inSource q)
include h

theorem ClientSafe.found_orderly :
    Orderly host.toHost (q.sort.map (toEngineSort host formula))
      ((foundDocs host formula e inSource q).map
        (rowFor host.toEngineHost (q.sort.map (toEngineSort host formula)))) := by
  have horder := h.order
  cases hsort : clientSort q with
  | true => rwa [hsort, if_pos rfl] at horder
  | false =>
    rw [hsort, if_neg (by simp)] at horder
    have hsub : ∀ a, a ∈ (foundDocs host formula e inSource q).map
        (rowFor host.toEngineHost (q.sort.map (toEngineSort host formula))) →
        a ∈ (readDocs host e inSource q).map (rowFor host.toEngineHost (q.sort.map (toEngineSort host formula))) := by
      intro a ha
      obtain ⟨d, hd, rfl⟩ := List.mem_map.1 ha
      exact List.mem_map_of_mem (foundDocs_sub d hd)
    exact ⟨fun a ha b hb => horder.1 a (hsub a ha) b (hsub b hb),
      fun a ha b hb c hc => horder.2 a (hsub a ha) b (hsub b hb) c (hsub c hc)⟩

theorem ClientSafe.kept {docs : List IndexedDoc}
    (hfilter : (docs.filter fun d => clientKeeps host formula q (rowOf host.toEngineHost q d)).Perm
      (foundDocs host formula e inSource q))
    (hsorted : clientSort q = false → docs.Pairwise fun a b =>
      cmpRows host.toHost q.sort (rowFor host.toEngineHost q.sort a) (rowFor host.toEngineHost q.sort b) ≠ .gt) :
    keptRows host formula sorter q (docs.map (rowOf host.toEngineHost q)) =
      (sortedHits sorter e inSource (toEngineQuery host formula q)).map (rowOf host.toEngineHost q) := by
  have hids := ids_of_filter e (keeps host.toEngineHost inSource (toEngineQuery host formula q))
  have hrow : ∀ d ∈ foundDocs host formula e inSource q, Shows (rowOf host.toEngineHost q d) d.toEvalDoc :=
    fun d hd => h.shows d (foundDocs_sub d hd)
  have horder := h.found_orderly
  rw [keptRows_eq, List.filter_map]
  cases hsort : clientSort q with
  | true =>
    exact sortRows_eq sorter hids horder (h.sorts hsort) hfilter hrow
  | false =>
    rw [toEngineSort_of_plain hsort] at horder
    have hhits : sortedHits sorter e inSource (toEngineQuery host formula q) =
        docs.filter fun d => clientKeeps host formula q (rowOf host.toEngineHost q d) := by
      have hsorts : (toEngineQuery host formula q).sort = q.sort := toEngineSort_of_plain hsort
      rw [sortedHits, hsorts]
      exact sortDocs_eq sorter hids horder hfilter ((hsorted hsort).filter _)
    rw [hhits]
    exact if_neg (by simp)

theorem ClientSafe.kept_both :
    keptRows host formula sorter q ((sortedHits sorter e inSource (baseOf host q)).map (rowOf host.toEngineHost q)) =
        (sortedHits sorter e inSource (toEngineQuery host formula q)).map (rowOf host.toEngineHost q) ∧
      keptRows host formula sorter q
          ((sortedHits sorter e inSource (toEngineQuery host formula q)).map (rowOf host.toEngineHost q)) =
        (sortedHits sorter e inSource (toEngineQuery host formula q)).map (rowOf host.toEngineHost q) := by
  have hreadIds := ids_of_filter e (keeps host.toEngineHost inSource (baseOf host q))
  have hfoundIds := ids_of_filter e (keeps host.toEngineHost inSource (toEngineQuery host formula q))
  constructor
  · refine h.kept ?_ fun hsort => ?_
    · have hp := (sortedHits_perm sorter e inSource (baseOf host q)).filter fun d =>
        clientKeeps host formula q (rowOf host.toEngineHost q d)
      exact hp.trans (.of_eq h.filter_read)
    · have horder := h.order
      rw [hsort, if_neg (by simp), toEngineSort_of_plain hsort] at horder
      have hsorts : (baseOf host q).sort = q.sort := if_neg (by simp [hsort])
      rw [sortedHits, hsorts]
      exact sortDocs_pairwise sorter hreadIds horder
  · refine h.kept ?_ fun hsort => ?_
    · have hall : (foundDocs host formula e inSource q).filter
          (fun d => clientKeeps host formula q (rowOf host.toEngineHost q d)) =
        foundDocs host formula e inSource q := by
        rw [← h.filter_read, List.filter_filter]
        exact List.filter_congr fun d _ => Bool.and_self _
      have hp := (sortedHits_perm sorter e inSource (toEngineQuery host formula q)).filter fun d =>
        clientKeeps host formula q (rowOf host.toEngineHost q d)
      exact hp.trans (.of_eq hall)
    · have horder := h.found_orderly
      rw [toEngineSort_of_plain hsort] at horder
      have hsorts : (toEngineQuery host formula q).sort = q.sort := toEngineSort_of_plain hsort
      rw [sortedHits, hsorts]
      exact sortDocs_pairwise sorter hfoundIds horder

end

theorem clampLimit_of_checked {limit : Option Query.Num} {n : Nat} (h : checkLimit limit = .ok n) : clampLimit limit = n := by
  unfold checkLimit at h
  match limit with
  | none => exact Except.ok.inj h
  | some .nan => cases h
  | some .negInf => cases h
  | some .posInf => cases h
  | some (.fin x) =>
    dsimp only at h
    split at h
    next hx =>
      obtain ⟨hden, hone, hmax⟩ := hx
      rw [clampLimit, if_neg (not_lt.2 hone), if_pos hmax]
      have hfloor : x.floor = x.num := by
        rw [Rat.floor, if_pos hden]
      rw [hfloor]
      exact Except.ok.inj h
    next => cases h

theorem run_answer (hq : checkQuery host.toEngineHost (toEngineQuery host formula q) = .ok inSource)
    (hfew : (readDocs host e inSource q).length ≤ baseQueryMaxRows) (hfuel : baseQueryMaxRows < fuel)
    (limit : Option Query.Num) (offset : Nat) :
    run host formula sorter e fuel q limit offset = some (.ok (clientAnswer host formula sorter q limit offset
      (keptRows host formula sorter q
        ((sortedHits sorter e inSource (baseOf host q)).map (rowOf host.toEngineHost q))))) := by
  have hlength : (sortedHits sorter e inSource (baseOf host q)).length ≤ baseQueryMaxRows := by
    rw [(sortedHits_perm sorter e inSource (baseOf host q)).length_eq]
    exact hfew
  have hfetch : fetchBaseRows sorter e fuel (baseOf host q) =
      some (.ok ((sortedHits sorter e inSource (baseOf host q)).map (rowOf host.toEngineHost q))) :=
    fetchFrom_eq (checkQuery_base hq) hlength fuel (.inl rfl) (by omega) (.inl ⟨rfl, rfl⟩)
  rw [run, hfetch]
  rfl

/-- On all the rows that the engine gives for the base, or on those that it gives for the query
itself, the client finds page by page the rows of the engine, its total and its groups; it reads them
all when they are no more than the rows of a base. -/
theorem client_agrees (hq : checkQuery host.toEngineHost (toEngineQuery host formula q) = .ok inSource)
    (h : ClientSafe host formula sorter e inSource q) {limit : Option Query.Num} {n : Nat}
    (hlimit : checkLimit limit = .ok n) (offset : Nat) :
    ∃ r : QueryResult, e.run sorter (toEngineQuery host formula q) limit
        (some (encodeCursor host.toEngineHost (toEngineQuery host formula q).key offset)) = .ok r ∧
      (∀ hits, hits = sortedHits sorter e inSource (baseOf host q) ∨
          hits = sortedHits sorter e inSource (toEngineQuery host formula q) →
        let answer := clientAnswer host formula sorter q limit offset
          (keptRows host formula sorter q (hits.map (rowOf host.toEngineHost q)))
        answer.rows = r.rows ∧ answer.total = r.total ∧ answer.groups = r.groups) ∧
      ((readDocs host e inSource q).length ≤ baseQueryMaxRows → ∀ fuel > baseQueryMaxRows,
        ∃ answer, run host formula sorter e fuel q limit offset = some (.ok answer) ∧
          answer.rows = r.rows ∧ answer.total = r.total ∧ answer.groups = r.groups) := by
  obtain ⟨hkept, hsame⟩ := h.kept_both
  have hrow : ∀ d ∈ sortedHits sorter e inSource (toEngineQuery host formula q),
      Shows (rowOf host.toEngineHost q d) d.toEvalDoc := fun d hd =>
    h.shows d (foundDocs_sub d ((sortedHits_perm sorter e inSource _).subset hd))
  let found := (sortedHits sorter e inSource (toEngineQuery host formula q)).map (rowOf host.toEngineHost q)
  let r := answer host.toEngineHost sorter (toEngineQuery host formula q) n offset
    (sortedHits sorter e inSource (toEngineQuery host formula q))
  have hrows : (clientAnswer host formula sorter q limit offset found).rows = r.rows := by
    simp only [clientAnswer, r, found, answer, clampLimit_of_checked hlimit, List.map_take, List.map_drop]
    rfl
  have htotal : (clientAnswer host formula sorter q limit offset found).total = r.total := by
    simp only [clientAnswer, r, found, answer, List.length_map]
  have hgroups : (clientAnswer host formula sorter q limit offset found).groups = r.groups := by
    simp only [clientAnswer, r, found, answer, toEngineQuery, withKey, Option.map_map]
    cases hg : q.groupBy with
    | none => rfl
    | some f => exact congrArg some (groupsOf_eq sorter hrow (h.groups f hg))
  refine ⟨r, run_page hq hlimit (.inr rfl), ?_, fun hfew fuel hfuel => ?_⟩
  · rintro hits (rfl | rfl)
    · rw [hkept]
      exact ⟨hrows, htotal, hgroups⟩
    · rw [hsame]
      exact ⟨hrows, htotal, hgroups⟩
  · refine ⟨clientAnswer host formula sorter q limit offset found, ?_, hrows, htotal, hgroups⟩
    rw [run_answer hq hfew hfuel, hkept]

end Answers

/-- Digits, a minus sign and an `e`. -/
def plainNumber (s : Text) : Query.Num :=
  if s ≠ [] ∧ s.all (fun c => c.isDigit || c == '-' || c == 'e') then
    match readRat s with
    | some q => .fin q
    | none => .nan
  else .nan

theorem plainNumber_fold (x : Query.Num) :
    plainNumber (foldText plainPageHost.toHost (plainPageHost.numText x)) = if x.isFinite then x else .nan := by
  cases x with
  | nan => decide +kernel
  | negInf => decide +kernel
  | posInf => decide +kernel
  | fin q =>
    have hchars : ∀ c ∈ ratText q, c.isDigit = true ∨ c = '-' ∨ c = 'e' := fun c hc => ratText_mem hc
    have hlower : foldText plainPageHost.toHost (ratText q) = ratText q := by
      have hascii : isAscii (ratText q) := plainPageHost.numText_ascii (.fin q)
      rw [foldText_ascii hascii]
      refine (List.map_congr_left fun c hc => ?_).trans (List.map_id _)
      obtain hd | rfl | rfl := hchars c hc
      · exact toLower_of_isDigit hd
      · decide
      · decide
    have hall : ratText q ≠ [] ∧ (ratText q).all (fun c => c.isDigit || c == '-' || c == 'e') = true := by
      constructor
      · obtain ⟨c, rest, heq, -⟩ := plainPageHost.numText_fin q
        have hne : ratText q = c :: rest := heq
        simp [hne]
      · refine List.all_eq_true.2 fun c hc => ?_
        obtain hd | rfl | rfl := hchars c hc
        · simp [hd]
        · decide
        · decide
    have htext : plainPageHost.numText (.fin q) = ratText q := rfl
    rw [htext, hlower, plainNumber, if_pos hall, readRat_ratText]
    rfl

/-- The ascii host with a formula that reads `x`. -/
def formulaHost : ClientHost where
  toEngineHost := { asciiHost with
    compile := fun src =>
      if src = ['"', '"'] then .ok fun _ _ => .scalar (.text [])
      else if src = ['x'] then .ok fun _ props => (props.own ['x']).getD (.scalar .null)
      else .error "unknown".toList }
  toNumber := plainNumber
  queryKey _ := "query".toList
  toNumber_fold := plainNumber_fold
  toNumber_comma s h := by
    have hno : ¬ s.all (fun c => c.isDigit || c == '-' || c == 'e') = true := by
      intro hall
      exact absurd (List.all_eq_true.1 hall ',' h) (by decide)
    rw [plainNumber, if_neg fun hs => hno hs.2]
  compile_empty := rfl

/-- The column `=F` is `x`. -/
def columnF : FormulaLookup formulaHost.toEngineHost := fun key =>
  if key = "=F".toList then some ⟨['x'], fun _ props => (props.own ['x']).getD (.scalar .null), rfl⟩ else none

/-- The notes whose column is over the typed `2`, sorted and grouped by it. -/
def overTwo (desc : Bool) : InMemory.Query where
  source := .notes ⟨none, none⟩
  filter := some (.leaf ⟨.stored (.prop "=F".toList), .order .gt, some (.scalar (.text ['2']))⟩)
  text := none
  sort := [⟨.stored (.prop "=F".toList), desc⟩]
  select := none
  groupBy := some (.stored (.prop "=F".toList))
  aggregate := none
  key := []

def threeNotes : Engine formulaHost.toEngineHost :=
  index _ [.upsert (note 'a' "A".toList (.num (.fin 3))), .upsert (note 'b' "B".toList (.num (.fin 1))),
    .upsert (note 'c' "C".toList (.num (.fin 5)))]

theorem overTwo_safe : ClientSafe formulaHost columnF StableSort.insertionSorter threeNotes
    (fun d => isNoteOf formulaHost.toEngineHost d ⟨none, none⟩) (overTwo false) where
  selected _ _ := rfl
  leaves := by
    intro d _ f hf l hl
    obtain rfl : Condition.leaf ⟨.stored (.prop "=F".toList), .order .gt, some (.scalar (.text ['2']))⟩ = f :=
      Option.some.inj hf
    obtain rfl := List.mem_singleton.1 hl
    refine ⟨trivial, fun _ _ v _ _ _ => ⟨by decide, .inl ?_⟩⟩
    unfold Numeral
    decide +kernel
  order := by decide +kernel
  sorts := by
    intro _ s hs
    obtain rfl := List.mem_singleton.1 hs
    have hnum : ∀ d ∈ foundDocs formulaHost columnF threeNotes
        (fun d => isNoteOf formulaHost.toEngineHost d ⟨none, none⟩) (overTwo false),
        InMemory.fieldOf formulaHost.toEngineHost d.toEvalDoc (.formula ['x']) = some (.scalar (.num (.fin 3))) ∨
        InMemory.fieldOf formulaHost.toEngineHost d.toEvalDoc (.formula ['x']) = some (.scalar (.num (.fin 5))) := by
      decide +kernel
    refine ⟨fun _ _ => trivial, fun d hd x xs hlist => ?_, fun d _ d' hd' x t _ ht => ?_⟩
    · have hfield : InMemory.fieldOf formulaHost.toEngineHost d.toEvalDoc (.formula ['x']) =
        some (.list (x :: xs)) := hlist
      obtain h | h := hnum d hd <;> rw [h] at hfield <;> cases hfield
    · have hraw : (sortKey formulaHost.toHost
        (InMemory.fieldOf formulaHost.toEngineHost d'.toEvalDoc (.formula ['x']))).raw = .text t := ht
      obtain h | h := hnum d' hd' <;> rw [h] at hraw <;> cases hraw
  groups := by
    intro f hf
    obtain rfl := Option.some.inj hf
    refine ⟨fun _ _ => trivial, ⟨by decide +kernel, by decide +kernel⟩, fun a b => ?_⟩
    have hties : (groupsInOrder formulaHost.toEngineHost (sortedHits StableSort.insertionSorter threeNotes
        (fun d => isNoteOf formulaHost.toEngineHost d ⟨none, none⟩) (toEngineQuery formulaHost columnF (overTwo false)))
        (toEngineField formulaHost columnF (.stored (.prop "=F".toList)))).Pairwise fun a b =>
          a.count = b.count → sign (compareGroups formulaHost.toEngineHost a b) ≠ .gt := by decide +kernel
    exact List.pairwise_iff_forall_sublist.1 hties

theorem overTwo_checked (desc : Bool) : checkQuery formulaHost.toEngineHost
    (toEngineQuery formulaHost columnF (overTwo desc)) = .ok fun d => isNoteOf formulaHost.toEngineHost d ⟨none, none⟩ :=
  rfl

theorem client_agrees_overTwo : ∃ r : QueryResult,
    threeNotes.run StableSort.insertionSorter (toEngineQuery formulaHost columnF (overTwo false)) none
        (some (encodeCursor formulaHost.toEngineHost (toEngineQuery formulaHost columnF (overTwo false)).key 0)) = .ok r ∧
      ∃ answer, run formulaHost columnF StableSort.insertionSorter threeNotes 20001 (overTwo false) none 0 =
        some (.ok answer) ∧ answer.rows = r.rows ∧ answer.total = r.total ∧ answer.groups = r.groups := by
  have hlimit : checkLimit none = .ok queryDefaultLimit := rfl
  obtain ⟨r, hr, -, hrun⟩ := client_agrees (overTwo_checked false) overTwo_safe hlimit 0
  exact ⟨r, hr, hrun (by decide +kernel) 20001 (by decide)⟩

/-- By falling values the groups 5 and 3, of one note each, stay in this order. -/
theorem client_groups_differ : ∃ (host : ClientHost) (formula : FormulaLookup host.toEngineHost) (sorter : Sorter)
    (e : Engine host.toEngineHost) (q : InMemory.Query) (answer : ClientResult) (r : QueryResult),
    run host formula sorter e 20001 q none 0 = some (.ok answer) ∧
      e.run sorter (toEngineQuery host formula q) none none = .ok r ∧ answer.groups ≠ r.groups := by
  have hchecked := overTwo_checked true
  refine ⟨formulaHost, columnF, StableSort.insertionSorter, threeNotes, overTwo true, _, _,
    run_answer hchecked (by decide +kernel) (by decide) none 0, run_page hchecked rfl (.inl ⟨rfl, rfl⟩), ?_⟩
  decide +kernel

end Savoire.Base
