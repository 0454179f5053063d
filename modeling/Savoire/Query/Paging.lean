import Savoire.Library.Transition
import Savoire.Query.SortKey

/-! Queries answered page by page: each page resumes after the last row of the one before. -/
namespace Savoire.Query
open Sql (Value)

/-- The documents of the index, with their numbers. -/
structure Docs where
  rows : List (Nat × EvalDoc)
  numbers : (rows.map Prod.fst).Nodup
  ids : (rows.map fun r => r.2.id).Nodup

variable (host : PageHost)

def Docs.props (t : Docs) : List PropRow := t.rows.flatMap fun r => propRows host.toHost r.1 r.2.props

/-- A column `s<i>`: a property through the join on its first value, or a folded column. -/
inductive SortExpr
  | prop (key : Text)
  | fold (c : DocColumn)
  deriving DecidableEq

def sortColumn : QueryField → SortExpr
  | .prop key => .prop key
  | .doc name => .fold (foldColumn name)

/-- `coalesce(j.num, j.txt)` -/
def PropRow.sortValue (r : PropRow) : Value := if r.num.isNull then .text r.txt else r.num

def SortExpr.eval (table : List PropRow) (d : DocRow) : SortExpr → Value
  | prop key =>
    match table.find? fun r => r.doc == d.n && r.key == key && r.idx == 0 with
    | some r => r.sortValue
    | none => .null
  | fold c => d.column c

/-- A query that has been checked. `source` is what its source and its words ask of a document. -/
structure ParsedQuery where
  source : EvalDoc → Bool
  filter : Option QueryFilter
  sorts : List QuerySort
  key : Text

def ParsedQuery.known (q : ParsedQuery) : Bool :=
  q.filter.all (fun f => !(compileFilter host.toHost f).columns.contains .undefined) &&
    q.sorts.all fun s => decide (sortColumn s.field ≠ .fold .undefined)

variable (q : ParsedQuery)

def selected (t : Docs) (r : Nat × EvalDoc) : Bool :=
  q.source r.2 && q.filter.all fun f =>
    selects (t.props host) (docRow host.toHost r.1 r.2) (compileFilter host.toHost f)

def sortKey (t : Docs) (r : Nat × EvalDoc) : SortKey q.sorts where
  k := q.sorts.map fun s => (sortColumn s.field).eval (t.props host) (docRow host.toHost r.1 r.2)
  id := r.2.id
  length_eq := List.length_map _

/-- The rows of `m`. -/
def matched (t : Docs) : List (SortKey q.sorts) := (t.rows.filter (selected host q t)).map (sortKey host q t)

/-- The rows of `m` after the last one delivered, in order. -/
def remaining (t : Docs) (last : Option Last) : List (SortKey q.sorts) :=
  let after : SortCond := match last with
    | none => .const true
    | some last => afterLast q.sorts last
  Sql.orderBy (orderFrom 0 q.sorts) (fun r => r.column)
    ((matched host q t).filter fun r => after.eval r.column Empty.elim == some true)

/-- The whole result, in order. -/
def result (t : Docs) : List (SortKey q.sorts) := remaining host q t none

structure QueryPage where
  rows : List Text
  next : Option Text

/-- The place where a page begins; an empty cursor is none. -/
def readCursor : Option Text → Except QueryError (Option Last)
  | none | some [] => .ok none
  | some cursor => (decodeCursor host cursor q.key q.sorts.length).map some

def cursorMax : Nat := 8192

def runQuery (t : Docs) (limit : Nat) (cursor : Option Text) : Except QueryError QueryPage := do
  let last ← readCursor host q cursor
  if !q.known host then throw .sql
  let page := (remaining host q t last).take (limit + 1)
  let shown := page.take limit
  let next := if limit < page.length then
    shown.getLast?.map fun r => encodeOpaque host (r.payload q.key) else none
  return ⟨shown.map (·.id), next⟩

/-- A request: `optString` bounds its cursor. -/
def request (t : Docs) (limit : Nat) (cursor : Option Text) : Except QueryError QueryPage :=
  if cursor.all fun c => unitLength c ≤ cursorMax then runQuery host q t limit cursor
  else .error .invalidQuery

inductive Status
  | reading
  | finished
  | failed (e : QueryError)
  deriving DecidableEq

/-- A client that follows the cursor, and the index that it reads; `kept` is what the index has
held since the first page. -/
structure Reader where
  table : Docs
  kept : List (Nat × EvalDoc)
  cursor : Option Text
  delivered : List Text
  status : Status

def start (t : Docs) : Reader := ⟨t, t.rows, none, [], .reading⟩

inductive Event
  | page (limit : Nat)
  | insert (n : Nat) (d : EvalDoc)
  | remove (n : Nat)

def Docs.insert (t : Docs) (n : Nat) (d : EvalDoc) : Option Docs :=
  if h : n ∉ t.rows.map Prod.fst ∧ d.id ∉ t.rows.map fun r => r.2.id then
    some {
      rows := t.rows ++ [(n, d)]
      numbers := by
        rw [List.map_append]
        exact t.numbers.append (List.nodup_singleton n) (by simpa using h.1)
      ids := by
        rw [List.map_append]
        exact t.ids.append (List.nodup_singleton d.id) (by simpa using h.2) }
  else none

def Docs.remove (t : Docs) (n : Nat) : Docs where
  rows := t.rows.filter fun r => r.1 ≠ n
  numbers := t.numbers.sublist (List.filter_sublist.map _)
  ids := t.ids.sublist (List.filter_sublist.map _)

def answer (s : Reader) : Except QueryError QueryPage → Reader
  | .ok page => { s with
    delivered := s.delivered ++ page.rows
    cursor := page.next
    status := if page.next.isNone then .finished else .reading }
  | .error e => { s with status := .failed e }

def step (s : Reader) : Event → Option Reader
  | .page limit =>
    if s.status = .reading ∧ 1 ≤ limit then some (answer s (request host q s.table limit s.cursor)) else none
  | .insert n d => (s.table.insert n d).map fun t => { s with table := t }
  | .remove n => some { s with table := s.table.remove n, kept := s.kept.filter fun r => r.1 ≠ n }

/-- A row that a cursor gives back: no infinite key, and a cursor that a request may hold. -/
def resumable (r : SortKey q.sorts) : Bool :=
  r.k.all isKept && unitLength (encodeOpaque host (r.payload q.key)) ≤ cursorMax

/-- A page that other rows follow ends on a row that a cursor gives back, and SQLite knows the
columns of the query. -/
def resumes (s : Reader) : Event → Bool
  | .page limit => q.known host &&
    match readCursor host q s.cursor with
    | .ok last =>
      let rows := remaining host q s.table last
      rows.length ≤ limit || (rows[limit - 1]?).all (resumable host q)
    | .error _ => true
  | _ => true

variable {host q}

variable {r : Nat × EvalDoc}

variable (t : Docs)

theorem Docs.holds (hr : r ∈ t.rows) :
    Holds host.toHost (t.props host) r.1 r.2.props := by
  intro p
  constructor
  · intro ⟨hp, hdoc⟩
    obtain ⟨r', hr', hp⟩ := List.mem_flatMap.1 hp
    obtain ⟨v, -, hv⟩ := mem_propRows.1 hp
    have hn : r'.1 = r.1 := (valueRows_doc_key hv).1.symm.trans hdoc
    rwa [List.inj_on_of_nodup_map t.numbers hr' hr hn] at hp
  · intro hp
    obtain ⟨v, -, hv⟩ := mem_propRows.1 hp
    exact ⟨List.mem_flatMap.2 ⟨r, hr, hp⟩, (valueRows_doc_key hv).1⟩

theorem docRow_column (n : Nat) (d : EvalDoc) :
    (docRow host.toHost n d).column = (docRow host.toHost 0 d).column := by
  funext c
  cases c <;> rfl

variable {n : Nat} {d : EvalDoc}

theorem selects_eq {table : List PropRow} (ht : Holds host.toHost table n d.props) (e : Frag) :
    selects table (docRow host.toHost n d) e =
      selects (propRows host.toHost 0 d.props) (docRow host.toHost 0 d) e := by
  have hrun : PropQuery.run table (docRow host.toHost n d) =
      PropQuery.run (propRows host.toHost 0 d.props) (docRow host.toHost 0 d) := by
    funext p
    rw [run_eq ht, run_eq (holds_propRows host.toHost 0 d.props)]
  rw [selects, selects, Frag.eval, Frag.eval, hrun, docRow_column]

def firstValue : PropertyValue → Option Scalar
  | .scalar x => some x
  | .list xs => xs.head?

def presentFirst (v : PropertyValue) : Option Scalar :=
  if isEmptyValue (some v) then none else firstValue v

/-- What a row of `props` gives to sort by. -/
def scalarKey (host : PageHost) (x : Scalar) : Value := (propRow host.toHost 0 [] false 0 x).sortValue

def propKey (host : PageHost) (d : EvalDoc) (key : Text) : Value :=
  match d.props.own key >>= presentFirst with
  | some x => scalarKey host x
  | none => .null

theorem mem_valueRows_first {key : Text} {v : PropertyValue} {r : PropRow}
    (h : r ∈ valueRows host.toHost n key v) (hidx : r.idx = 0) :
    ∃ x list, presentFirst v = some x ∧ r = propRow host.toHost n key list 0 x := by
  unfold valueRows at h
  split at h
  · cases h
  · rename_i hv
    rw [presentFirst, if_neg hv]
    split at h
    · rename_i x
      exact ⟨x, false, rfl, List.mem_singleton.1 h⟩
    · rename_i xs
      obtain ⟨i, hi, rfl⟩ := List.mem_mapIdx.1 h
      obtain rfl : i = 0 := hidx
      exact ⟨xs[0], true, by rw [firstValue, List.head?_eq_getElem?, List.getElem?_eq_getElem hi], rfl⟩

theorem valueRows_of_first (host : PageHost) (n : Nat) (key : Text) {v : PropertyValue} {x : Scalar}
    (hx : presentFirst v = some x) :
    ∃ list, propRow host.toHost n key list 0 x ∈ valueRows host.toHost n key v := by
  unfold presentFirst at hx
  split_ifs at hx with hv
  unfold valueRows
  rw [if_neg hv]
  cases v with
  | scalar y =>
    obtain rfl := Option.some.inj hx
    exact ⟨false, List.mem_singleton_self _⟩
  | list xs =>
    cases xs with
    | nil => cases hx
    | cons y ys =>
      obtain rfl := Option.some.inj hx
      exact ⟨true, List.mem_mapIdx.2 ⟨0, Nat.succ_pos _, rfl⟩⟩

theorem eval_prop {table : List PropRow} (ht : Holds host.toHost table n d.props) (key : Text) :
    (SortExpr.prop key).eval table (docRow host.toHost n d) = propKey host d key := by
  have hdoc : (docRow host.toHost n d).n = n := rfl
  rw [SortExpr.eval, hdoc, propKey]
  cases hfind : table.find? fun r => r.doc == n && r.key == key && r.idx == 0 with
  | some r =>
    have hr := List.mem_of_find?_eq_some hfind
    have hcond := List.find?_some hfind
    simp only [Bool.and_eq_true, beq_iff_eq] at hcond
    obtain ⟨v, hown, hmem⟩ := mem_propRows.1 ((ht r).1 ⟨hr, hcond.1.1⟩)
    obtain ⟨x, list, hx, hrow⟩ := mem_valueRows_first hmem hcond.2
    rw [hcond.1.2] at hown
    have hfirst : (d.props.own key >>= presentFirst) = some x := by rw [hown]; exact hx
    rw [hfirst, hrow]
    rfl
  | none =>
    cases hfirst : d.props.own key >>= presentFirst with
    | none => rfl
    | some x =>
      obtain ⟨v, hown, hx⟩ := Option.bind_eq_some_iff.1 hfirst
      obtain ⟨list, hmem⟩ := valueRows_of_first host n key hx
      have hrow := (ht _).2 (mem_propRows.2 ⟨v, hown, hmem⟩)
      exact absurd (List.find?_eq_none.1 hfind _ hrow.1) (by simp [propRow])

def accepts (host : PageHost) (q : ParsedQuery) (d : EvalDoc) : Bool :=
  q.source d && q.filter.all fun f =>
    selects (propRows host.toHost 0 d.props) (docRow host.toHost 0 d) (compileFilter host.toHost f)

def docKey (host : PageHost) (q : ParsedQuery) (d : EvalDoc) : SortKey q.sorts where
  k := q.sorts.map fun s =>
    (sortColumn s.field).eval (propRows host.toHost 0 d.props) (docRow host.toHost 0 d)
  id := d.id
  length_eq := List.length_map _

theorem selected_eq (hr : r ∈ t.rows) :
    selected host q t r = accepts host q r.2 := by
  unfold selected accepts
  congr 2
  funext f
  exact selects_eq (t.holds hr) _

theorem sortKey_eq (hr : r ∈ t.rows) :
    sortKey host q t r = docKey host q r.2 := by
  refine SortKey.ext_last ?_
  simp only [sortKey, docKey, Last.mk.injEq, and_true]
  refine List.map_congr_left fun s _ => ?_
  cases sortColumn s.field with
  | prop key => rw [eval_prop (t.holds hr), eval_prop (holds_propRows host.toHost 0 r.2.props)]
  | fold c => exact congrFun (docRow_column r.1 r.2) c

variable {k : SortKey q.sorts}

theorem mem_matched {t : Docs} :
    k ∈ matched host q t ↔ ∃ r ∈ t.rows, accepts host q r.2 = true ∧ k = docKey host q r.2 := by
  simp only [matched, List.mem_map, List.mem_filter]
  constructor
  · rintro ⟨r, ⟨hr, hsel⟩, rfl⟩
    exact ⟨r, hr, by rwa [selected_eq t hr] at hsel, sortKey_eq t hr⟩
  · rintro ⟨r, hr, hacc, rfl⟩
    exact ⟨r, ⟨hr, by rwa [selected_eq t hr]⟩, sortKey_eq t hr⟩

theorem matched_nodup : (matched host q t).Nodup := by
  refine List.Nodup.of_map (fun k => k.id) ?_
  rw [matched, List.map_map]
  exact t.ids.sublist (List.filter_sublist.map _)

theorem remaining_eq (host : PageHost) (t : Docs) (last : Option (SortKey q.sorts)) :
    remaining host q t (last.map (·.toLast)) = Keyset.rest last (matched host q t) := by
  unfold remaining Keyset.rest
  rw [orderBy_eq]
  congr 1
  refine List.filter_congr fun r _ => ?_
  cases last with
  | none => rfl
  | some last =>
    have h := afterLast_gives Empty.elim q.sorts last.toLast r.toLast
    simp only [Option.map_some, Option.all_some]
    rw [show (afterLast q.sorts last.toLast).eval r.column Empty.elim = _ from h, Bool.eq_iff_iff]
    simp [SortKey.lt_iff]

structure Continues (host : PageHost) (q : ParsedQuery) (s : Reader) (ks : List (SortKey q.sorts)) :
    Prop where
  delivered : s.delivered = ks.map (·.id)
  cursor : s.status = .reading → (ks = [] ∧ s.cursor = none) ∨ ∃ k, ks.getLast? = some k ∧
    resumable host q k = true ∧ s.cursor = some (encodeOpaque host (k.payload q.key))

theorem readCursor_resumable (h : resumable host q k = true) :
    readCursor host q (some (encodeOpaque host (k.payload q.key))) = .ok (some k.toLast) := by
  rw [resumable, Bool.and_eq_true, List.all_eq_true] at h
  have hk : k.k.map keep = k.k := (List.map_congr_left fun v hv => keep_of_isKept (h.1 v hv)).trans (List.map_id _)
  have hdecode := decodeCursor_encode host q.key k.toLast
  rw [hk, k.length_eq] at hdecode
  cases hc : encodeOpaque host (k.payload q.key) with
  | nil => exact absurd hc (encodeOpaque_ne_nil _ _)
  | cons c cs =>
    rw [readCursor, ← hc, hdecode]
    · rfl
    · simp

variable {s : Reader}

variable {ks : List (SortKey q.sorts)}

theorem Continues.readCursor (h : Continues host q s ks)
    (hs : s.status = .reading) : readCursor host q s.cursor = .ok (ks.getLast?.map (·.toLast)) ∧
      (s.cursor.all fun c => decide (unitLength c ≤ cursorMax)) = true := by
  obtain ⟨rfl, hc⟩ | ⟨k, hk, hres, hc⟩ := h.cursor hs
  · rw [hc]
    exact ⟨rfl, rfl⟩
  · rw [hc, hk]
    refine ⟨readCursor_resumable hres, ?_⟩
    rw [resumable, Bool.and_eq_true] at hres
    simpa using hres.2

theorem step_page {limit : Nat} (h : Continues host q s ks)
    (hs : s.status = .reading) (hlimit : 1 ≤ limit) (hok : resumes host q s (.page limit) = true) :
    ∃ s', step host q s (.page limit) = some s' ∧ s'.table = s.table ∧ s'.kept = s.kept ∧
      s'.status = (if (Keyset.rest ks.getLast? (matched host q s.table)).length ≤ limit then
        Status.finished else .reading) ∧
      Continues host q s' (ks ++ (Keyset.rest ks.getLast? (matched host q s.table)).take limit) := by
  obtain ⟨hread, hlen⟩ := h.readCursor hs
  have hrows := remaining_eq host s.table ks.getLast?
  simp only [resumes, hread, hrows, Bool.and_eq_true] at hok
  obtain ⟨hknown, hend⟩ := hok
  have hrequest : request host q s.table limit s.cursor = runQuery host q s.table limit s.cursor := if_pos hlen
  have hrun : runQuery host q s.table limit s.cursor =
      .ok ⟨((remaining host q s.table (ks.getLast?.map (·.toLast))).take (limit + 1) |>.take limit).map (·.id),
        if limit < ((remaining host q s.table (ks.getLast?.map (·.toLast))).take (limit + 1)).length then
          ((remaining host q s.table (ks.getLast?.map (·.toLast))).take (limit + 1) |>.take limit).getLast?.map
            fun r => encodeOpaque host (r.payload q.key)
        else none⟩ := by
    rw [runQuery, hread]
    simp only [hknown, bind, Except.bind, Bool.not_true]
    rfl
  rw [hrows] at hrun
  generalize Keyset.rest ks.getLast? (matched host q s.table) = rows at *
  refine ⟨_, if_pos ⟨hs, hlimit⟩, ?_⟩
  rw [hrequest, hrun]
  have htake : (rows.take (limit + 1)).take limit = rows.take limit := by
    rw [List.take_take, Nat.min_eq_left (Nat.le_succ limit)]
  by_cases hlt : limit < rows.length
  · -- other rows follow: the page ends on a row that the cursor gives back
    have hget : (rows.take limit).getLast? = some rows[limit - 1] := by
      rw [List.getLast?_take, if_neg (by omega), List.getElem?_eq_getElem (by omega)]
      rfl
    have hres : resumable host q rows[limit - 1] = true := by
      have hlong : decide (rows.length ≤ limit) = false := by simpa using hlt
      rw [hlong, Bool.false_or, List.getElem?_eq_getElem (by omega)] at hend
      exact hend
    refine ⟨rfl, rfl, ?_, ?_, ?_⟩
    · simp [answer, htake, hlt, hget]
    · simp [answer, htake, h.delivered]
    · intro _
      refine .inr ⟨rows[limit - 1], ?_, hres, ?_⟩
      · rw [List.getLast?_append, hget]
        rfl
      · simp [answer, htake, hlt, hget]
  · refine ⟨rfl, rfl, ?_, ?_, ?_⟩
    · simp [answer, hlt, Nat.le_of_not_lt hlt]
    · simp [answer, htake, h.delivered]
    · intro hreading
      simp [answer, hlt] at hreading

/-- The keys of the documents that have stayed, among those that the query selects. -/
def keptKeys (host : PageHost) (q : ParsedQuery) (s : Reader) : List (SortKey q.sorts) :=
  (s.kept.filter fun r => accepts host q r.2).map fun r => docKey host q r.2

theorem keptKeys_subset (h : s.kept ⊆ s.table.rows) :
    keptKeys host q s ⊆ matched host q s.table := by
  intro k hk
  obtain ⟨r, hr, rfl⟩ := List.mem_map.1 hk
  obtain ⟨hr, hacc⟩ := List.mem_filter.1 hr
  exact mem_matched.2 ⟨r, h hr, hacc, rfl⟩

/-- While other documents come and go: what has stayed is delivered up to the cursor, and no other
document was delivered under its id. -/
structure ReadInv (host : PageHost) (q : ParsedQuery) (s : Reader) (ks : List (SortKey q.sorts)) :
    Prop where
  continues : Continues host q s ks
  kept : s.kept ⊆ s.table.rows
  inv : Keyset.Inv (keptKeys host q s) ks
  finished : s.status = .finished → keptKeys host q s ⊆ ks
  same : ∀ r ∈ s.kept, ∀ k ∈ ks, k.id = r.2.id → k = docKey host q r.2
  running : ∀ e, s.status ≠ .failed e

theorem readInv_start : ReadInv host q (start t) [] where
  continues := ⟨rfl, fun _ => .inl ⟨rfl, rfl⟩⟩
  kept := List.Subset.refl _
  inv := .start _
  finished h := by cases h
  same _ _ _ hk := by cases hk
  running _ h := by cases h

variable {s' : Reader}

theorem ReadInv.page {limit : Nat} (h : ReadInv host q s ks)
    (hok : resumes host q s (.page limit) = true) (hstep : step host q s (.page limit) = some s') :
    ∃ ks', ReadInv host q s' ks' := by
  have hguard : s.status = .reading ∧ 1 ≤ limit := by
    by_contra hg
    rw [step, if_neg hg] at hstep
    cases hstep
  obtain ⟨u, hu, htable, hkept, hstatus, hcont⟩ := step_page h.continues hguard.1 hguard.2 hok
  obtain rfl := Option.some.inj (hstep.symm.trans hu)
  have hkeys : keptKeys host q s' = keptKeys host q s := by rw [keptKeys, keptKeys, hkept]
  have hsub : keptKeys host q s ⊆ matched host q s.table := keptKeys_subset h.kept
  refine ⟨_, hcont, by rw [hkept, htable]; exact h.kept, ?_, ?_, ?_, ?_⟩
  · rw [hkeys]
    exact h.inv.page (matched_nodup _) hsub limit
  · intro hfin
    rw [hkeys]
    rw [hstatus] at hfin
    split_ifs at hfin with hlen
    exact h.inv.finished hsub hlen
  · intro r hr k hk hid
    rw [hkept] at hr
    obtain hk | hk := List.mem_append.1 hk
    · exact h.same r hr k hk hid
    · obtain ⟨r', hr', -, rfl⟩ := mem_matched.1 (Keyset.mem_rest.1 (List.mem_of_mem_take hk)).1
      rw [List.inj_on_of_nodup_map s.table.ids hr' (h.kept hr) hid]
  · intro e he
    rw [hstatus] at he
    split_ifs at he

theorem Docs.insert_rows {t t' : Docs} (h : t.insert n d = some t') :
    t'.rows = t.rows ++ [(n, d)] := by
  unfold Docs.insert at h
  split_ifs at h
  obtain rfl := Option.some.inj h
  rfl

theorem ReadInv.step (h : ReadInv host q s ks) {e : Event}
    (hok : resumes host q s e = true) (hstep : step host q s e = some s') :
    ∃ ks', ReadInv host q s' ks' := by
  cases e with
  | page limit => exact h.page hok hstep
  | insert n d =>
    obtain ⟨t, ht, rfl⟩ := Option.map_eq_some_iff.1 hstep
    refine ⟨ks, ⟨h.continues.delivered, h.continues.cursor⟩, ?_, h.inv, h.finished, h.same, h.running⟩
    intro r hr
    rw [Docs.insert_rows ht]
    exact List.mem_append_left _ (h.kept hr)
  | remove n =>
    obtain rfl := Option.some.inj hstep
    have hsub : s.kept.filter (fun r => r.1 ≠ n) ⊆ s.kept := List.filter_sublist.subset
    have hkeys : keptKeys host q { s with
        table := s.table.remove n, kept := s.kept.filter fun r => r.1 ≠ n } ⊆ keptKeys host q s :=
      List.map_subset _ (List.filter_subset _ hsub)
    refine ⟨ks, ⟨h.continues.delivered, h.continues.cursor⟩, ?_, h.inv.shrink hkeys,
      fun hfin => List.Subset.trans hkeys (h.finished hfin), fun r hr => h.same r (hsub hr), h.running⟩
    intro r hr
    obtain ⟨hr, hn⟩ := List.mem_filter.1 hr
    exact List.mem_filter.2 ⟨h.kept hr, hn⟩

theorem count_id (hnodup : ks.Nodup) (hk : k ∈ ks)
    (hsame : ∀ l ∈ ks, l.id = k.id → l = k) : (ks.map (·.id)).count k.id = 1 := by
  rw [List.count_eq_countP, List.countP_map]
  have hcount : ks.countP ((· == k.id) ∘ (·.id)) = ks.countP (· == k) := by
    refine List.countP_congr fun l hl => ?_
    simp only [Function.comp_apply, beq_iff_eq]
    exact ⟨hsame l hl, fun h => by rw [h]⟩
  rw [hcount, ← List.count_eq_countP]
  exact List.count_eq_one_of_mem hnodup hk

theorem ReadInv.delivered_once (h : ReadInv host q s ks)
    (hfin : s.status = .finished) (hr : r ∈ s.kept)
    (hsel : selected host q s.table r = true) : s.delivered.count r.2.id = 1 := by
  rw [selected_eq s.table (h.kept hr)] at hsel
  have hmem : docKey host q r.2 ∈ ks :=
    h.finished hfin (List.mem_map.2 ⟨r, List.mem_filter.2 ⟨hr, hsel⟩, rfl⟩)
  rw [h.continues.delivered]
  exact count_id (h.inv.sorted.imp ne_of_lt) hmem (h.same r hr)

def follow (host : PageHost) (q : ParsedQuery) (s : Reader) (es : List Event) : Option Reader :=
  Transition.exec (step host q) (fun s e => resumes host q s e = true) s es

theorem follow_cons {e : Event} {es : List Event} (h : follow host q s (e :: es) = some s') :
    resumes host q s e = true ∧ ∃ u, step host q s e = some u ∧ follow host q u es = some s' := by
  rw [follow, Transition.exec] at h
  split_ifs at h with hok
  cases hstep : step host q s e with
  | none => simp [hstep] at h
  | some u =>
    rw [hstep] at h
    exact ⟨hok, u, rfl, h⟩

theorem ReadInv.follow {es : List Event}
    (h : ReadInv host q s ks) (hrun : follow host q s es = some s') : ∃ ks', ReadInv host q s' ks' := by
  induction es generalizing s ks with
  | nil =>
    obtain rfl := Option.some.inj hrun
    exact ⟨ks, h⟩
  | cons e es ih =>
    obtain ⟨hok, u, hstep, hrun⟩ := follow_cons hrun
    obtain ⟨ks', hu⟩ := h.step hok hstep
    exact ih hu hrun

theorem step_finished (h : s.status = .finished) (limit : Nat) :
    step host q s (.page limit) = none := by
  simp [step, h]

theorem follow_pages {limits : List Nat} {ks all : List (SortKey q.sorts)}
    (h : Continues host q s ks) (hs : s.status = .reading)
    (hall : ks ++ Keyset.rest ks.getLast? (matched host q s.table) = all)
    (hrun : follow host q s (limits.map .page) = some s') :
    s'.delivered = (all.take (ks.length + limits.sum)).map (·.id) ∧
      (s'.status = .finished ↔ limits ≠ [] ∧ all.length ≤ ks.length + limits.sum) := by
  induction limits generalizing s ks with
  | nil =>
    obtain rfl := Option.some.inj hrun
    rw [h.delivered, ← hall]
    simp [hs]
  | cons limit limits ih =>
    obtain ⟨hok, u, hstep, hrun⟩ := follow_cons hrun
    have hguard : s.status = .reading ∧ 1 ≤ limit := by
      by_contra hg
      rw [step, if_neg hg] at hstep
      cases hstep
    obtain ⟨u', hu, htable, -, hstatus, hcont⟩ := step_page h hguard.1 hguard.2 hok
    obtain rfl := Option.some.inj (hstep.symm.trans hu)
    have hlen : all.length = ks.length + (Keyset.rest ks.getLast? (matched host q s.table)).length := by
      rw [← hall, List.length_append]
    have hafter := Keyset.rest_after (matched_nodup s.table)
      (List.take_append_drop limit (Keyset.rest ks.getLast? (matched host q s.table))).symm
    generalize hrows : Keyset.rest ks.getLast? (matched host q s.table) = rows at *
    rw [List.sum_cons]
    by_cases hlast : rows.length ≤ limit
    · rw [if_pos hlast] at hstatus
      cases limits with
      | nil =>
        obtain rfl := Option.some.inj hrun
        rw [hcont.delivered, List.take_of_length_le hlast, hall, List.take_of_length_le (by simp; omega)]
        simp only [hstatus, true_iff]
        exact ⟨trivial, by simp, by simp; omega⟩
      | cons l ls =>
        obtain ⟨-, v, hv, -⟩ := follow_cons hrun
        rw [step_finished hstatus] at hv
        cases hv
    · rw [if_neg hlast] at hstatus
      have hnext : (ks ++ rows.take limit).getLast? = Keyset.after ks.getLast? (rows.take limit) :=
        List.getLast?_append
      have htake : (rows.take limit).length = limit := by
        rw [List.length_take]
        omega
      obtain ⟨hdel, hfin⟩ := ih hcont hstatus (by
        rw [hnext, htable, hafter, List.append_assoc, List.take_append_drop, hall]) hrun
      rw [List.length_append, htake, Nat.add_assoc] at hdel hfin
      refine ⟨hdel, hfin.trans ?_⟩
      constructor
      · exact fun hf => ⟨by simp, hf.2⟩
      · intro hf
        refine ⟨?_, hf.2⟩
        rintro rfl
        simp at hf
        omega

/-- A reader that follows the cursors. The pages are never refused; a document that the index holds
from the first page to the last is delivered once; and while no document comes or goes, the pages
are the whole result, in order, whatever their sizes. -/
theorem paging_exact (host : PageHost) (q : ParsedQuery) (t : Docs) (es : List Event) (s : Reader)
    (h : follow host q (start t) es = some s) :
    (∀ e, s.status ≠ .failed e) ∧
      (s.status = .finished → ∀ r ∈ s.kept, selected host q s.table r = true →
        s.delivered.count r.2.id = 1) ∧
      ∀ limits : List Nat, es = limits.map .page →
        s.delivered = ((result host q t).take limits.sum).map (·.id) ∧
        (s.status = .finished ↔ limits ≠ [] ∧ (result host q t).length ≤ limits.sum) := by
  obtain ⟨ks, hinv⟩ := (readInv_start t).follow h
  refine ⟨hinv.running, fun hfin r hr hsel => hinv.delivered_once hfin hr hsel, ?_⟩
  rintro limits rfl
  have hall : [] ++ Keyset.rest ([] : List (SortKey q.sorts)).getLast? (matched host q (start t).table) =
      result host q t := (remaining_eq host t none).symm
  simpa using follow_pages (readInv_start t).continues rfl hall h

/-- A note with a value of `x`. -/
def xNote (id : Text) (x : Option PropertyValue) : EvalDoc where
  id := id
  path := id ++ ".md".toList
  title := id
  props := ⟨(x.map fun v => ("x".toList, v)).toList, by cases x <;> simp⟩
  created := none
  modified := none

def xSorted (desc : Bool) : ParsedQuery where
  source _ := true
  filter := none
  sorts := [⟨.prop "x".toList, desc⟩]
  key := "1k".toList

def threeNotes : Docs where
  rows := [(1, xNote ['a'] none), (2, xNote ['b'] (some (.scalar (.num (.fin 3))))),
    (3, xNote ['c'] (some (.scalar (.text "t".toList))))]
  numbers := by decide
  ids := by decide

def threePages : List Event :=
  [.page 1, .insert 4 (xNote ['d'] (some (.scalar (.num (.fin 1))))), .remove 2, .page 1, .page 2]

def stayed (host : PageHost) (q : ParsedQuery) (s : Reader) (ids : List Text) : Bool :=
  decide (s.status = .finished) &&
    ids.all fun id => s.kept.any fun r => r.2.id = id && selected host q s.table r

theorem stayed_iff {ids : List Text} (h : stayed host q s ids = true) :
    s.status = .finished ∧
      ∀ id ∈ ids, ∃ r ∈ s.kept, r.2.id = id ∧ selected host q s.table r = true := by
  simpa [stayed] using h

/-- A note comes and another goes between the pages. -/
theorem paging_threePages : ∃ s, follow plainPageHost (xSorted false) (start threeNotes) threePages = some s ∧
    s.status = .finished ∧ s.delivered.count ['a'] = 1 ∧ s.delivered.count ['c'] = 1 := by
  have hrun : (follow plainPageHost (xSorted false) (start threeNotes) threePages).map
      (stayed plainPageHost (xSorted false) · [['a'], ['c']]) = some true := by decide +kernel
  obtain ⟨s, hs, hstayed⟩ := Option.map_eq_some_iff.1 hrun
  obtain ⟨hfin, hkept⟩ := stayed_iff hstayed
  obtain ⟨-, honce, -⟩ := paging_exact plainPageHost (xSorted false) threeNotes threePages s hs
  obtain ⟨r, hr, hid, hsel⟩ := hkept ['a'] (by simp)
  obtain ⟨r', hr', hid', hsel'⟩ := hkept ['c'] (by simp)
  have ha := honce hfin r hr hsel
  have hc := honce hfin r' hr' hsel'
  rw [hid] at ha
  rw [hid'] at hc
  exact ⟨s, hs, hfin, ha, hc⟩

def infiniteNotes : Docs where
  rows := [(1, xNote ['a'] (some (.scalar (.num .posInf)))), (2, xNote ['b'] (some (.scalar (.num (.fin 1)))))]
  numbers := by decide
  ids := by decide

/-- The cursor after an infinite key reads as an empty one, and the other rows are passed over. -/
theorem paging_fails : ¬ ∀ (host : PageHost) (q : ParsedQuery) (t : Docs) (es : List Event) (s : Reader),
    Transition.exec (step host q) (fun _ _ => True) (start t) es = some s → s.status = .finished →
      ∀ r ∈ s.kept, selected host q s.table r = true → s.delivered.count r.2.id = 1 := by
  intro h
  have hrun : (Transition.exec (step plainPageHost (xSorted true)) (fun _ _ => True) (start infiniteNotes)
      [.page 1, .page 1]).map
      (fun s => (stayed plainPageHost (xSorted true) s [['b']], s.delivered)) = some (true, [['a']]) := by
    decide +kernel
  obtain ⟨s, hs, heq⟩ := Option.map_eq_some_iff.1 hrun
  obtain ⟨hstayed, hdel⟩ := Prod.mk.inj heq
  obtain ⟨hfin, hkept⟩ := stayed_iff hstayed
  obtain ⟨r, hr, hid, hsel⟩ := hkept ['b'] (by simp)
  have hcount := h _ _ _ _ s hs hfin r hr hsel
  rw [hid, hdel] at hcount
  exact absurd hcount (by decide)

end Savoire.Query
