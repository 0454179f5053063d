import Savoire.Library.SharedMaps
import Savoire.Library.KeyedMap
import Savoire.Library.Transition
import Mathlib.Algebra.Order.Floor.Defs
import Mathlib.Data.Rat.Floor

/-! The manifest of a base, written by its clients: source, columns, views, and the marks of the lots in which
there are light rows. The first write makes the maps that it needs. -/
namespace Savoire.Manifest
open SharedMaps Transition
variable {κ : Type*} [DecidableEq κ]

inductive Primitive
  | text (s : Text)
  | number (q : ℚ)
  | bool (b : Bool)
  deriving DecidableEq

abbrev Doc (κ : Type*) := SharedMaps.Doc κ Primitive

def baseKey : Text := "base".toList
def sourceKey : Text := "source".toList
def columnsKey : Text := "columns".toList
def viewsKey : Text := "views".toList
def lotsKey : Text := "lots".toList

structure ColumnPatch where
  width : Option ℚ
  order : Option ℚ
  formula : Option Text

structure SourcePatch where
  folder : Option Text
  filters : Option Text

/-- The fields of a view that a change gives, as they are stored. -/
abbrev ViewPatch := KeyedMap Text Primitive

structure ColumnInit where
  width : ℚ
  order : ℚ
  formula : Option Text

/-- What a client shows before the first write. -/
structure Defaults where
  folder : Text
  filters : Text
  columns : KeyedMap Text ColumnInit
  views : KeyedMap Text ViewPatch
  lotCount : ℚ

def defaultWidth : ℚ := 160

/-- `viewEntries` of a default view. -/
def defaultView : List (Text × Primitive) :=
  [("name".toList, .text "Vue".toList), ("type".toList, .text "table".toList), ("order".toList, .number 0),
    ("filters".toList, .text "[]".toList), ("sorts".toList, .text "[]".toList), ("groupBy".toList, .text []),
    ("hidden".toList, .text "[]".toList), ("totals".toList, .text "\x7b\x7d".toList)]

def viewEntries (patch : ViewPatch) : List (Text × Primitive) :=
  defaultView.map fun e => (e.1, (patch.get e.1).getD e.2)

def columnEntries (c : ColumnInit) : List (Text × Primitive) :=
  [("width".toList, .number c.width), ("order".toList, .number c.order)] ++
    (c.formula.map fun f => ("formula".toList, .text f)).toList

/-- `Math.round`. -/
def round (q : ℚ) : ℚ := ⌊q + 1 / 2⌋

section Store
variable (w : LastWriter κ Primitive) (i : κ)

def setLeaves (node : Nat) (d : Doc κ) (entries : List (Text × Primitive)) : Doc κ :=
  entries.foldl (fun d e => d.set w i (some node) e.1 (.leaf e.2)) d

def setMap (node : Option Nat) (key : Text) (d : Doc κ) (entries : List (Text × Primitive)) : Doc κ :=
  setLeaves w i d.log.length (d.set w i node key .map) entries

def setMaps (node : Option Nat) (key : Text) (d : Doc κ) (maps : List (Text × List (Text × Primitive))) : Doc κ :=
  maps.foldl (fun d' e => setMap w i (some d.log.length) e.1 d' e.2) (d.set w i node key .map)

/-- The entries of a new manifest. -/
def fill (base : Nat) (defaults : Defaults) (d : Doc κ) : Doc κ :=
  let d := d.set w i (some base) "version".toList (.leaf (.number 1))
  let d := setMap w i (some base) sourceKey d
    [("folder".toList, .text defaults.folder), ("filters".toList, .text defaults.filters)]
  let d := setMaps w i (some base) columnsKey d (defaults.columns.entries.map fun e => (e.1, columnEntries e.2))
  let d := setMaps w i (some base) viewsKey d (defaults.views.entries.map fun e => (e.1, viewEntries e.2))
  let d := d.set w i (some base) "lotCount".toList (.leaf (.number defaults.lotCount))
  d.set w i (some base) lotsKey .map

def ensure (defaults : Defaults) (d : Doc κ) : Doc κ × Nat :=
  match d.get w i none baseKey with
  | some (.map base) => (d, base)
  | _ => (fill w i d.log.length defaults (d.set w i none baseKey .map), d.log.length)

def child (base : Nat) (key : Text) (d : Doc κ) : Doc κ × Nat :=
  match d.get w i (some base) key with
  | some (.map c) => (d, c)
  | _ => (d.set w i (some base) key .map, d.log.length)

def setSource (defaults : Defaults) (patch : SourcePatch) (d : Doc κ) : Doc κ :=
  let (d, base) := ensure w i defaults d
  let (d, source) := child w i base sourceKey d
  setLeaves w i source d ((patch.folder.map fun v => ("folder".toList, Primitive.text v)).toList ++
    (patch.filters.map fun v => ("filters".toList, Primitive.text v)).toList)

def maxOrder (columns : Nat) (d : Doc κ) : ℚ :=
  (d.log.zipIdx.filterMap fun x =>
    if d.known i x.2 && x.1.node == some columns then
      match d.get w i (some columns) x.1.key with
      | some (.map c) => match d.get w i (some c) "order".toList with
        | some (.leaf (.number q)) => some q
        | _ => some 0
      | _ => some 0
    else none).foldl max 0

def columnPatch (patch : ColumnPatch) : List (Text × Primitive) :=
  (patch.width.map fun v => ("width".toList, Primitive.number (round v))).toList ++
    (patch.order.map fun v => ("order".toList, Primitive.number v)).toList ++
    (patch.formula.map fun v => ("formula".toList, Primitive.text v)).toList

def setColumn (defaults : Defaults) (key : Text) (patch : ColumnPatch) (d : Doc κ) : Doc κ :=
  let (d, base) := ensure w i defaults d
  let (d, columns) := child w i base columnsKey d
  match d.get w i (some columns) key with
  | some (.map c) => setLeaves w i c d (columnPatch patch)
  | _ =>
    let entries := columnEntries ⟨defaultWidth, maxOrder w i columns d + 1, none⟩
    setLeaves w i d.log.length (setMap w i (some columns) key d entries) (columnPatch patch)

def setView (defaults : Defaults) (id : Text) (patch : ViewPatch) (d : Doc κ) : Doc κ :=
  let (d, base) := ensure w i defaults d
  let (d, views) := child w i base viewsKey d
  let given := (viewEntries patch).filter fun e => (patch.get e.1).isSome
  match d.get w i (some views) id with
  | some (.map v) => setLeaves w i v d given
  | _ => setLeaves w i d.log.length (setMap w i (some views) id d (viewEntries patch)) given

def hasMark (mark : Text) (d : Doc κ) : Bool :=
  match d.get w i none baseKey with
  | some (.map base) =>
    match d.get w i (some base) lotsKey with
    | some (.map lots) =>
      match d.get w i (some lots) mark with
      | some (.leaf v) => v == .bool true
      | _ => false
    | _ => false
  | _ => false

def markLot (defaults : Defaults) (n : Nat) (d : Doc κ) : Doc κ :=
  if hasMark w i (Nat.toDigits 10 n) d then d
  else
    let (d, base) := ensure w i defaults d
    let (d, lots) := child w i base lotsKey d
    d.set w i (some lots) (Nat.toDigits 10 n) (.leaf (.bool true))

def lots (d : Doc κ) : List Nat :=
  match d.get w i none baseKey with
  | some (.map base) =>
    match d.get w i (some base) lotsKey with
    | some (.map lots) => d.log.zipIdx.filterMap fun x =>
        if d.known i x.2 && x.1.node == some lots then some (Nat.ofDigitChars 10 x.1.key 0) else none
    | _ => []
  | _ => []

end Store

def baseLotOf (rowId : Text) (lotCount : Nat) : Nat :=
  (rowId.foldl (fun h c => Nat.xor h c.toNat * 0x01000193 % 2 ^ 32) 0x811c9dc5) % max 1 lotCount

/-- The document of the manifest and the rows in the trees of the lots, with their lots. -/
structure Base (κ : Type*) where
  doc : Doc κ
  rows : List (Nat × Text)

/-- The changes of the clients, each with what the client shows before the first write; and updates coming in. -/
inductive Event (κ : Type*)
  | setSource (i : κ) (defaults : Defaults) (patch : SourcePatch)
  | setColumn (i : κ) (defaults : Defaults) (key : Text) (patch : ColumnPatch)
  | setView (i : κ) (defaults : Defaults) (id : Text) (patch : ViewPatch)
  | add (i : κ) (defaults : Defaults) (lotCount : Nat) (id : Text)
  | receive (i : κ) (ids : List Nat)

def step (w : LastWriter κ Primitive) (s : Base κ) : Event κ → Option (Base κ)
  | .setSource i defaults patch => some { s with doc := setSource w i defaults patch s.doc }
  | .setColumn i defaults key patch => some { s with doc := setColumn w i defaults key patch s.doc }
  | .setView i defaults id patch => some { s with doc := setView w i defaults id patch s.doc }
  | .add i defaults lotCount id =>
      let n := baseLotOf id lotCount
      some ⟨markLot w i defaults n s.doc, s.rows ++ [(n, id)]⟩
  | .receive i ids => some { s with doc := s.doc.receive i ids }

structure NothingHidden (w : LastWriter κ Primitive) (i : κ) (s : Base κ) : Prop where
  rows : ∀ r ∈ s.rows, r.1 ∈ lots w i s.doc
  settings : ∀ id e path v, Written s.doc.log id e path → e.content = .leaf v →
    (∀ id' e', Written s.doc.log id' e' path → e'.client = e.client ∧ id' ≤ id) →
    s.doc.read w i none path = some (.leaf v)

/-- A client has the maps under a path that were made. -/
def Sees (d : Doc κ) (i : κ) (path : List Text) : Prop := ∀ id e, Written d.log id e path → d.known i id = true

/-- The maps in which a change writes are known to its client as soon as anyone has made them. -/
def Base.Clear (s : Base κ) : Event κ → Prop
  | .setSource i _ _ => Sees s.doc i [baseKey] ∧ Sees s.doc i [baseKey, sourceKey]
  | .setColumn i _ key _ => Sees s.doc i [baseKey] ∧ Sees s.doc i [baseKey, columnsKey] ∧
      Sees s.doc i [baseKey, columnsKey, key]
  | .setView i _ id _ => Sees s.doc i [baseKey] ∧ Sees s.doc i [baseKey, viewsKey] ∧
      Sees s.doc i [baseKey, viewsKey, id]
  | .add i _ _ _ => Sees s.doc i [baseKey] ∧ Sees s.doc i [baseKey, lotsKey]
  | .receive _ _ => True

def holdsMap : List Text → Bool
  | [a] => a == baseKey
  | [a, b] => a == baseKey && (b == sourceKey || b == columnsKey || b == viewsKey || b == lotsKey)
  | [a, b, _] => a == baseKey && (b == columnsKey || b == viewsKey)
  | _ => false

structure Good (d : Doc κ) : Prop where
  once : Once d
  typed : ∀ {id : Nat} {e : Entry κ Primitive} {path : List Text}, Written d.log id e path →
    (e.content = .map ↔ holdsMap path = true)
  marks : ∀ {id : Nat} {e : Entry κ Primitive} {key : Text}, Written d.log id e [baseKey, lotsKey, key] →
    e.content = .leaf (.bool true)

structure Wrote (i : κ) (d d' : Doc κ) : Prop where
  good : Good d'
  at_mono : ∀ {n path}, At d.log n path → At d'.log n path
  written : ∀ {id e path}, Written d.log id e path → Written d'.log id e path
  sees : ∀ {path}, Sees d i path → Sees d' i path

/-- Nothing is under a key. -/
def Free (d : Doc κ) (node : Option Nat) (key : Text) : Prop :=
  ∀ (j : Nat) (x : Entry κ Primitive), d.log[j]? = some x → x.node = node → x.key ≠ key

/-- What is new is under one key, or in a new map. -/
def OnlyAt (node : Option Nat) (key : Text) (d d' : Doc κ) : Prop :=
  d.log.length ≤ d'.log.length ∧ ∀ (j : Nat) (x : Entry κ Primitive), d'.log[j]? = some x →
    d.log[j]? = some x ∨ (x.node = node ∧ x.key = key) ∨ ∃ n, x.node = some n ∧ d.log.length ≤ n

section Good
variable {w : LastWriter κ Primitive} {i : κ} {d d' d'' : Doc κ} {node : Option Nat} {key key' : Text}
  {p : List Text} {v : Primitive} {entries : List (Text × Primitive)}

omit [DecidableEq κ] in
theorem Wrote.refl (h : Good d) : Wrote i d d :=
  ⟨h, fun h => h, fun h => h, fun h => h⟩

omit [DecidableEq κ] in
theorem Wrote.trans (h : Wrote i d d') (h' : Wrote i d' d'') : Wrote i d d'' :=
  ⟨h'.good, fun hat => h'.at_mono (h.at_mono hat), fun hw => h'.written (h.written hw), fun hs => h'.sees (h.sees hs)⟩

omit [DecidableEq κ] in
theorem lt_of_at (hat : At d.log node p) : ∀ n, node = some n → n < d.log.length := by
  rintro n rfl
  obtain ⟨hnone, -⟩ | ⟨id, e, p, hid, he, -⟩ := at_cases hat
  · cases hnone
  · cases hid
    exact (List.getElem?_eq_some_iff.mp he).1

theorem Good.set (h : Good d) {content : Content Primitive} (hat : At d.log node p)
    (hcontent : content = .map ↔ holdsMap (p ++ [key]) = true) (hfree : content = .map → Free d node key)
    (hmark : p = [baseKey, lotsKey] → content = .leaf (.bool true)) :
    Wrote i d (d.set w i node key content) := by
  have hlt := lt_of_at hat
  have hnode : ∀ n, node = some n → ∃ e, d.log[n]? = some e ∧ e.content = .map := by
    rintro n rfl
    obtain ⟨hnone, -⟩ | ⟨id, e, p, hid, he, hmap, -⟩ := at_cases hat
    · cases hnone
    · cases hid
      exact ⟨e, he, hmap⟩
  have honce : Once (d.set w i node key content) := by
    refine h.once.set hnode fun j x hx hn hk => ?_
    have hwritten : Written d.log j x (p ++ [key]) := ⟨hx, p, hn ▸ hat, by rw [hk]⟩
    by_cases hmap : content = .map
    · exact absurd hk (hfree hmap j x hx hn)
    · exact ⟨fun hxmap => hmap (hcontent.mpr ((h.typed hwritten).mp hxmap)), hmap⟩
  have hnew : ∀ {id e path}, Written (d.set w i node key content).log id e path →
      Written d.log id e path ∨ id = d.log.length ∧ e.content = content ∧ path = p ++ [key] := by
    intro id e path hw
    obtain hw | ⟨hid, rfl, p', hp', hpath⟩ := hw.of_set h.once hlt
    · exact .inl hw
    · exact .inr ⟨hid, rfl, at_unique hp' hat ▸ hpath⟩
  refine ⟨⟨honce, fun hw => ?_, fun hw => ?_⟩, fun hat => hat.set, fun hw => hw.set, fun hsees id e hw => ?_⟩
  · obtain hw | ⟨-, rfl, rfl⟩ := hnew hw
    · exact h.typed hw
    · exact hcontent
  · rename_i k
    obtain hw | ⟨-, rfl, hpath⟩ := hnew hw
    · exact h.marks hw
    · have hsplit : [baseKey, lotsKey] ++ [k] = p ++ [key] := hpath
      exact hmark (List.append_inj_left' hsplit rfl).symm
  · obtain hw | ⟨rfl, -⟩ := hnew hw
    · simp [Doc.set, hsees id e hw]
    · simp [Doc.set]

theorem Good.leaf (h : Good d) (hat : At d.log node p) (hleaf : holdsMap (p ++ [key]) = false)
    (hmark : p = [baseKey, lotsKey] → v = .bool true) : Wrote i d (d.set w i node key (.leaf v)) :=
  h.set hat (by simp [hleaf]) (fun hmap => by cases hmap) fun hp => by rw [hmark hp]

theorem Good.map (h : Good d) (hat : At d.log node p) (hmap : holdsMap (p ++ [key]) = true)
    (hfree : Free d node key) : Wrote i d (d.set w i node key .map) := by
  refine h.set hat (by simp [hmap]) (fun _ => hfree) fun hp => ?_
  rw [hp] at hmap
  exact absurd hmap (by simp [holdsMap]; decide)

theorem at_new (hat : At d.log node p) :
    At (d.set w i node key .map).log (some d.log.length) (p ++ [key]) :=
  .child (getElem?_set.mpr (.inr ⟨rfl, rfl⟩)) rfl hat.set

theorem onlyAt_set {content : Content Primitive} : OnlyAt node key d (d.set w i node key content) := by
  refine ⟨by simp [Doc.set], fun j x hx => ?_⟩
  obtain hx | ⟨-, rfl⟩ := getElem?_set.mp hx
  · exact .inl hx
  · exact .inr (.inl ⟨rfl, rfl⟩)

omit [DecidableEq κ] in
theorem OnlyAt.free (h : OnlyAt node key d d') (hfree : Free d node key') (hne : key' ≠ key)
    (hnode : ∀ n, node = some n → n < d.log.length) : Free d' node key' := by
  intro j x hx hn hk
  obtain hx | ⟨-, hkey⟩ | ⟨n, hxn, hlt⟩ := h.2 j x hx
  · exact hfree j x hx hn hk
  · exact hne (hk.symm.trans hkey)
  · have := hnode n (hn.symm.trans hxn)
    omega

theorem Good.setLeaves (h : Good d) {m : Nat} (hat : At d.log (some m) p)
    (hleaf : ∀ e ∈ entries, holdsMap (p ++ [e.1]) = false) (hp : p ≠ [baseKey, lotsKey]) :
    Wrote i d (setLeaves w i m d entries) := by
  induction entries generalizing d with
  | nil => exact .refl h
  | cons e entries ih =>
    have hset : Wrote i d (d.set w i (some m) e.1 (.leaf e.2)) :=
      h.leaf hat (hleaf e List.mem_cons_self) fun heq => absurd heq hp
    exact hset.trans (ih hset.good (hset.at_mono hat) fun e' he' => hleaf e' (List.mem_cons_of_mem e he'))

omit [DecidableEq κ] in
theorem OnlyAt.next (h : OnlyAt node key d d') {m : Nat} (hm : d.log.length ≤ m)
    (h' : OnlyAt (some m) key' d' d'') : OnlyAt node key d d'' := by
  refine ⟨h.1.trans h'.1, fun j x hx => ?_⟩
  obtain hx | ⟨hn, -⟩ | ⟨n, hn, hlt⟩ := h'.2 j x hx
  · exact h.2 j x hx
  · exact .inr (.inr ⟨m, hn, hm⟩)
  · exact .inr (.inr ⟨n, hn, h.1.trans hlt⟩)

theorem onlyAt_setLeaves {m : Nat} (hnew : d.log.length ≤ m) (h : OnlyAt node key d d') :
    OnlyAt node key d (setLeaves w i m d' entries) := by
  induction entries generalizing d' with
  | nil => exact h
  | cons e entries ih => exact ih (h.next hnew onlyAt_set)

theorem Good.setMap (h : Good d) (hat : At d.log node p) (hmap : holdsMap (p ++ [key]) = true)
    (hfree : Free d node key) (hleaf : ∀ e ∈ entries, holdsMap (p ++ [key] ++ [e.1]) = false)
    (hp : p ++ [key] ≠ [baseKey, lotsKey]) :
    Wrote i d (setMap w i node key d entries) ∧
      At (setMap w i node key d entries).log (some d.log.length) (p ++ [key]) := by
  have hset := h.map (i := i) (w := w) hat hmap hfree
  have hleaves := hset.good.setLeaves (i := i) (w := w) (at_new hat) hleaf hp
  exact ⟨hset.trans hleaves, hleaves.at_mono (at_new hat)⟩

theorem onlyAt_setMap : OnlyAt node key d (setMap w i node key d entries) :=
  onlyAt_setLeaves le_rfl onlyAt_set

theorem onlyAt_setMaps {maps : List (Text × List (Text × Primitive))} :
    OnlyAt node key d (setMaps w i node key d maps) := by
  have hfold : ∀ (maps : List (Text × List (Text × Primitive))) (d' : Doc κ), OnlyAt node key d d' →
      OnlyAt node key d (maps.foldl (fun d' e => Manifest.setMap w i (some d.log.length) e.1 d' e.2) d') := by
    intro maps
    induction maps with
    | nil => exact fun _ h => h
    | cons e maps ih => exact fun d' h => ih _ (h.next le_rfl onlyAt_setMap)
  exact hfold maps _ onlyAt_set

theorem Good.setMaps (h : Good d) (hat : At d.log node p) (hmap : holdsMap (p ++ [key]) = true)
    (hfree : Free d node key) {maps : List (Text × List (Text × Primitive))} (hnodup : (maps.map Prod.fst).Nodup)
    (hmaps : ∀ k, holdsMap (p ++ [key] ++ [k]) = true)
    (hleaf : ∀ k k', holdsMap (p ++ [key] ++ [k] ++ [k']) = false) (hp : p ++ [key] ≠ [baseKey]) :
    Wrote i d (setMaps w i node key d maps) := by
  have hset := h.map (i := i) (w := w) hat hmap hfree
  have hfold : ∀ (maps : List (Text × List (Text × Primitive))) (d' : Doc κ), (maps.map Prod.fst).Nodup →
      Good d' → At d'.log (some d.log.length) (p ++ [key]) →
      (∀ e ∈ maps, Free d' (some d.log.length) e.1) →
      Wrote i d' (maps.foldl (fun d' e => Manifest.setMap w i (some d.log.length) e.1 d' e.2) d') := by
    intro maps
    induction maps with
    | nil => exact fun d' _ hgood _ _ => .refl hgood
    | cons e maps ih =>
      intro d' hnodup hgood hat' hfree'
      obtain ⟨hnot, hnodup⟩ := List.nodup_cons.mp hnodup
      have hpath : p ++ [key] ++ [e.1] ≠ [baseKey, lotsKey] := by
        intro heq
        have hsplit : p ++ [key] ++ [e.1] = [baseKey] ++ [lotsKey] := heq
        exact hp (List.append_inj_left' hsplit rfl)
      have hone : Wrote i d' (Manifest.setMap w i (some d.log.length) e.1 d' e.2) :=
        (hgood.setMap hat' (hmaps e.1) (hfree' e List.mem_cons_self) (fun e' _ => hleaf e.1 e'.1) hpath).1
      refine hone.trans (ih _ hnodup hone.good (hone.at_mono hat') fun e' he' => ?_)
      refine onlyAt_setMap.free (hfree' e' (List.mem_cons_of_mem e he')) ?_ (lt_of_at hat')
      rintro heq
      exact hnot (heq ▸ List.mem_map_of_mem he')
  refine hset.trans (hfold maps _ hnodup hset.good (at_new hat) fun e _ j x hx hn _ => ?_)
  obtain hx | ⟨-, rfl⟩ := getElem?_set.mp hx
  · obtain ⟨e', he', -⟩ := h.once.node hx hn
    have := (List.getElem?_eq_some_iff.mp he').1
    omega
  · have := lt_of_at hat _ hn
    omega

omit [DecidableEq κ] in
theorem at_of_get {m : Nat} (hat : At d.log node p) (hget : d.get w i node key = some (.map m)) :
    At d.log (some m) (p ++ [key]) := by
  obtain ⟨id, hwinner, hvalue⟩ := Option.bind_eq_some_iff.mp hget
  obtain ⟨e, he, hcontent⟩ := Option.map_eq_some_iff.mp hvalue
  obtain ⟨e', he', rfl, rfl⟩ := winner_mem hwinner
  cases he.symm.trans he'
  cases hmap : e.content with
  | leaf v =>
    rw [hmap] at hcontent
    cases hcontent
  | map =>
    rw [hmap] at hcontent
    cases hcontent
    exact .child he hmap hat

omit [DecidableEq κ] in
theorem Good.free (h : Good d) (hat : At d.log node p) (hmap : holdsMap (p ++ [key]) = true)
    (hsees : Sees d i (p ++ [key])) (hget : ∀ m, d.get w i node key ≠ some (.map m)) : Free d node key := by
  intro j x hx hn hk
  have hwritten : Written d.log j x (p ++ [key]) := ⟨hx, p, hn ▸ hat, by rw [hk]⟩
  have hread := h.once.get_map (w := w) (i := i) hx ((h.typed hwritten).mpr hmap) (hsees j x hwritten)
  rw [hn, hk] at hread
  exact hget j hread

theorem Good.fill (h : Good d) {base : Nat} (hat : At d.log (some base) [baseKey])
    (hfree : ∀ key, Free d (some base) key) (defaults : Defaults) :
    Wrote i d (Manifest.fill w i base defaults d) := by
  unfold Manifest.fill
  extract_lets d1 d2 d3 d4 d5
  have h1 : Wrote i d d1 := h.leaf hat rfl fun heq => absurd heq (by decide)
  have hat1 := h1.at_mono hat
  have hfree1 : ∀ key, key ≠ "version".toList → Free d1 (some base) key :=
    fun key hne => onlyAt_set.free (hfree key) hne (lt_of_at hat)
  have h2 : Wrote i d1 d2 := (h1.good.setMap hat1 rfl (hfree1 _ (by decide)) (fun e _ => rfl) (by decide)).1
  have hat2 := h2.at_mono hat1
  have hfree2 : ∀ key, key ≠ "version".toList → key ≠ sourceKey → Free d2 (some base) key :=
    fun key hne hne' => onlyAt_setMap.free (hfree1 key hne) hne' (lt_of_at hat1)
  have hkeys : ∀ {β : Type} (m : KeyedMap Text β) (f : β → List (Text × Primitive)),
      ((m.entries.map fun e => (e.1, f e.2)).map Prod.fst).Nodup := by
    intro β m f
    rw [List.map_map]
    exact m.nodup
  have h3 : Wrote i d2 d3 := h2.good.setMaps hat2 rfl (hfree2 _ (by decide) (by decide)) (hkeys _ _) (fun _ => rfl)
    (fun _ _ => rfl) (by decide)
  have hat3 := h3.at_mono hat2
  have hfree3 : ∀ key, key ≠ "version".toList → key ≠ sourceKey → key ≠ columnsKey → Free d3 (some base) key :=
    fun key hne hne' hne'' => onlyAt_setMaps.free (hfree2 key hne hne') hne'' (lt_of_at hat2)
  have h4 : Wrote i d3 d4 := h3.good.setMaps hat3 rfl (hfree3 _ (by decide) (by decide) (by decide)) (hkeys _ _)
    (fun _ => rfl) (fun _ _ => rfl) (by decide)
  have hat4 := h4.at_mono hat3
  have hfree4 : Free d4 (some base) lotsKey := onlyAt_setMaps.free
    (hfree3 _ (by decide) (by decide) (by decide)) (by decide) (lt_of_at hat3)
  have h5 : Wrote i d4 d5 := h4.good.leaf hat4 rfl fun heq => absurd heq (by decide)
  have hfree5 : Free d5 (some base) lotsKey := onlyAt_set.free hfree4 (by decide) (lt_of_at hat4)
  exact h1.trans (h2.trans (h3.trans (h4.trans (h5.trans (h5.good.map (h5.at_mono hat4) rfl hfree5)))))

theorem Good.ensure (h : Good d) (defaults : Defaults) (hsees : Sees d i [baseKey]) :
    Wrote i d (Manifest.ensure w i defaults d).1 ∧
      At (Manifest.ensure w i defaults d).1.log (some (Manifest.ensure w i defaults d).2) [baseKey] := by
  unfold Manifest.ensure
  split
  · rename_i base hget
    exact ⟨.refl h, at_of_get .root hget⟩
  · rename_i hnone
    have hbase : Wrote i d (d.set w i none baseKey .map) := by
      refine h.map .root rfl (h.free (i := i) (w := w) .root rfl hsees fun m hget => ?_)
      exact hnone m hget
    have hat : At (d.set w i none baseKey .map).log (some d.log.length) [baseKey] := at_new .root
    have hfill : Wrote i (d.set w i none baseKey .map)
        (Manifest.fill w i d.log.length defaults (d.set w i none baseKey .map)) := by
      refine hbase.good.fill hat (fun key j x hx hn _ => ?_) defaults
      obtain hx | ⟨-, rfl⟩ := getElem?_set.mp hx
      · obtain ⟨e', he', -⟩ := h.once.node hx hn
        have := (List.getElem?_eq_some_iff.mp he').1
        omega
      · cases hn
    exact ⟨hbase.trans hfill, hfill.at_mono hat⟩

theorem Good.child (h : Good d) {base : Nat} (hat : At d.log (some base) [baseKey])
    (hmap : holdsMap [baseKey, key] = true) (hsees : Sees d i [baseKey, key]) :
    Wrote i d (Manifest.child w i base key d).1 ∧
      At (Manifest.child w i base key d).1.log (some (Manifest.child w i base key d).2) [baseKey, key] := by
  unfold Manifest.child
  split
  · rename_i c hget
    exact ⟨.refl h, at_of_get hat hget⟩
  · rename_i hnone
    have hset : Wrote i d (d.set w i (some base) key .map) :=
      h.map hat hmap (h.free hat hmap hsees fun m hget => hnone m hget)
    exact ⟨hset, at_new hat⟩

theorem Good.setSource (h : Good d) (defaults : Defaults) (patch : SourcePatch) (hbase : Sees d i [baseKey])
    (hsource : Sees d i [baseKey, sourceKey]) : Wrote i d (Manifest.setSource w i defaults patch d) := by
  obtain ⟨h1, hat1⟩ := h.ensure (w := w) defaults hbase
  obtain ⟨h2, hat2⟩ := h1.good.child (w := w) hat1 rfl (h1.sees hsource)
  exact h1.trans (h2.trans (h2.good.setLeaves hat2 (fun _ _ => rfl) (by decide)))

theorem Good.item (h : Good d) {c : Nat} (hat : At d.log (some c) [baseKey, key])
    (hmap : holdsMap [baseKey, key, key'] = true) (hsees : Sees d i [baseKey, key, key'])
    (given : List (Text × Primitive)) :
    Wrote i d (match d.get w i (some c) key' with
      | some (.map m) => Manifest.setLeaves w i m d given
      | _ => Manifest.setLeaves w i d.log.length (Manifest.setMap w i (some c) key' d entries) given) := by
  split
  · rename_i m hget
    exact h.setLeaves (at_of_get hat hget) (fun _ _ => rfl) (by simp)
  · rename_i hnone
    obtain ⟨hset, hat'⟩ := h.setMap (i := i) (w := w) hat hmap
      (h.free hat hmap hsees fun m hget => hnone m hget) (fun e (_ : e ∈ entries) => rfl) (by simp)
    exact hset.trans (hset.good.setLeaves hat' (fun _ _ => rfl) (by simp))

theorem Good.setColumn (h : Good d) (defaults : Defaults) (key : Text) (patch : ColumnPatch)
    (hbase : Sees d i [baseKey]) (hcolumns : Sees d i [baseKey, columnsKey])
    (hcolumn : Sees d i [baseKey, columnsKey, key]) : Wrote i d (Manifest.setColumn w i defaults key patch d) := by
  obtain ⟨h1, hat1⟩ := h.ensure (w := w) defaults hbase
  obtain ⟨h2, hat2⟩ := h1.good.child (w := w) hat1 rfl (h1.sees hcolumns)
  exact h1.trans (h2.trans (h2.good.item hat2 rfl (h2.sees (h1.sees hcolumn)) _))

theorem Good.setView (h : Good d) (defaults : Defaults) (id : Text) (patch : ViewPatch)
    (hbase : Sees d i [baseKey]) (hviews : Sees d i [baseKey, viewsKey])
    (hview : Sees d i [baseKey, viewsKey, id]) : Wrote i d (Manifest.setView w i defaults id patch d) := by
  obtain ⟨h1, hat1⟩ := h.ensure (w := w) defaults hbase
  obtain ⟨h2, hat2⟩ := h1.good.child (w := w) hat1 rfl (h1.sees hviews)
  exact h1.trans (h2.trans (h2.good.item hat2 rfl (h2.sees (h1.sees hview)) _))

def Marked (d : Doc κ) (n : Nat) : Prop :=
  ∃ id e, Written d.log id e [baseKey, lotsKey, Nat.toDigits 10 n]

theorem Good.markLot (h : Good d) (defaults : Defaults) (n : Nat) (hbase : Sees d i [baseKey])
    (hlots : Sees d i [baseKey, lotsKey]) :
    Wrote i d (Manifest.markLot w i defaults n d) ∧ Marked (Manifest.markLot w i defaults n d) n := by
  unfold Manifest.markLot
  split
  · rename_i hmark
    refine ⟨.refl h, ?_⟩
    unfold Manifest.hasMark at hmark
    split at hmark
    · rename_i base hget
      split at hmark
      · rename_i lots hget'
        split at hmark
        · rename_i v hget''
          have hat := at_of_get (at_of_get .root hget) hget'
          obtain ⟨id, hwinner, -⟩ := Option.bind_eq_some_iff.mp hget''
          obtain ⟨e, he, hn, hk⟩ := winner_mem hwinner
          exact ⟨id, e, he, _, hn ▸ hat, by rw [hk]; rfl⟩
        · cases hmark
      · cases hmark
    · cases hmark
  · obtain ⟨h1, hat1⟩ := h.ensure (w := w) defaults hbase
    obtain ⟨h2, hat2⟩ := h1.good.child (w := w) hat1 rfl (h1.sees hlots)
    have h3 := @Good.leaf _ _ w i _ _ (Nat.toDigits 10 n) _ (.bool true) h2.good hat2 rfl fun _ => rfl
    exact ⟨h1.trans (h2.trans h3), _, _, getElem?_set.mpr (.inr ⟨rfl, rfl⟩), _, h3.at_mono hat2, rfl⟩

theorem Good.receive (h : Good d) (ids : List Nat) : Good (d.receive i ids) :=
  ⟨h.once.receive ids, h.typed, h.marks⟩

end Good

section Runs
variable {w : LastWriter κ Primitive} {i : κ} {s s' : Base κ}

structure Inv (s : Base κ) : Prop where
  good : Good s.doc
  marked : ∀ r ∈ s.rows, Marked s.doc r.1

omit [DecidableEq κ] in
theorem Inv.wrote (h : Inv s) {d : Doc κ} (hd : Wrote i s.doc d) : Inv { s with doc := d } where
  good := hd.good
  marked r hr := by
    obtain ⟨id, e, hw⟩ := h.marked r hr
    exact ⟨id, e, hd.written hw⟩

theorem Inv.step (h : Inv s) {e : Event κ} (hclear : s.Clear e) (hs : step w s e = some s') : Inv s' := by
  cases e with
  | setSource i defaults patch =>
    obtain rfl := Option.some.inj hs
    exact h.wrote (h.good.setSource defaults patch hclear.1 hclear.2)
  | setColumn i defaults key patch =>
    obtain rfl := Option.some.inj hs
    exact h.wrote (h.good.setColumn defaults key patch hclear.1 hclear.2.1 hclear.2.2)
  | setView i defaults id patch =>
    obtain rfl := Option.some.inj hs
    exact h.wrote (h.good.setView defaults id patch hclear.1 hclear.2.1 hclear.2.2)
  | add i defaults lotCount id =>
    obtain rfl := Option.some.inj hs
    obtain ⟨hwrote, hmark⟩ := h.good.markLot (w := w) defaults (baseLotOf id lotCount) hclear.1 hclear.2
    refine ⟨hwrote.good, fun r hr => ?_⟩
    obtain hr | hr := List.mem_append.mp hr
    · exact (h.wrote hwrote).marked r hr
    · rw [List.mem_singleton] at hr
      rw [hr]
      exact hmark
  | receive i ids =>
    obtain rfl := Option.some.inj hs
    exact ⟨h.good.receive ids, h.marked⟩

/-- A base of which nobody has written anything. -/
def newBase : Base κ := ⟨⟨[], fun _ _ => false⟩, []⟩

omit [DecidableEq κ] in
theorem newBase_inv : Inv (newBase : Base κ) := by
  have hnone : ∀ {id : Nat} {e : Entry κ Primitive}, (newBase : Base κ).doc.log[id]? ≠ some e := by
    intro id e he
    cases he
  refine ⟨⟨⟨fun he => absurd he hnone, fun he => absurd he hnone, fun he => absurd he hnone,
    fun he => absurd he hnone, fun he => absurd he hnone⟩, fun hw => absurd hw.1 hnone, fun hw => absurd hw.1 hnone⟩,
    fun r hr => ?_⟩
  cases hr

omit [DecidableEq κ] in
theorem Inv.mem_lots (h : Inv s) (hfull : ∀ id < s.doc.log.length, s.doc.known i id = true) {n : Nat}
    (hn : Marked s.doc n) : n ∈ lots w i s.doc := by
  obtain ⟨id, e, he, p, hat, hpath⟩ := hn
  have hsplit : [baseKey, lotsKey] ++ [Nat.toDigits 10 n] = p ++ [e.key] := hpath
  obtain ⟨rfl, hkey⟩ := List.append_inj' hsplit rfl
  have hknown : ∀ {j : Nat} {x : Entry κ Primitive}, s.doc.log[j]? = some x → s.doc.known i j = true :=
    fun hx => hfull _ (List.getElem?_eq_some_iff.mp hx).1
  have hlots : At s.doc.log e.node ([baseKey] ++ [lotsKey]) := hat
  obtain ⟨l, el, hl, hel, hlmap, hbase, hlkey⟩ := at_snoc hlots
  have hbase : At s.doc.log el.node ([] ++ [baseKey]) := hbase
  obtain ⟨b, eb, hb, heb, hbmap, hroot, hbkey⟩ := at_snoc hbase
  obtain ⟨hroot, -⟩ | ⟨_, _, p, -, -, -, -, hp⟩ := at_cases hroot
  · have hgetBase := h.good.once.get_map (w := w) (i := i) heb hbmap (hknown heb)
    have hgetLots := h.good.once.get_map (w := w) (i := i) hel hlmap (hknown hel)
    rw [hroot, hbkey] at hgetBase
    rw [hb, hlkey] at hgetLots
    unfold lots
    simp only [hgetBase, hgetLots]
    refine List.mem_filterMap.mpr ⟨(e, id), List.mem_zipIdx_iff_getElem?.mpr he, ?_⟩
    rw [hknown he, hl, ← List.singleton_inj.mp hkey]
    simp
  · simp at hp

/-- While every client has the maps that it writes in, no row is hidden and no setting of one client is lost. -/
theorem nothing_hidden (w : LastWriter κ Primitive)
    (hrun : Run (step w) (fun s e => s.Clear e) (newBase : Base κ) s) (i : κ)
    (hfull : ∀ id < s.doc.log.length, s.doc.known i id = true) : NothingHidden w i s := by
  have hinv : Inv s := hrun.invariant Inv newBase_inv fun _ _ _ h hclear hs => h.step hclear hs
  refine ⟨fun r hr => hinv.mem_lots hfull (hinv.marked r hr), fun id e path v hw hv honly => ?_⟩
  have hread := hinv.good.once.read_written (w := w) hfull hw honly
  rw [hv] at hread
  exact hread

end Runs

/-! Two clients that each add a row, to two lots. -/

omit [DecidableEq κ] in
theorem sees_of_known {d : Doc κ} {i : κ} {path : List Text} (h : ∀ id < d.log.length, d.known i id = true) :
    Sees d i path :=
  fun id _ hw => h id (List.getElem?_eq_some_iff.mp hw.1).1

def noDefaults : Defaults := ⟨[], [], .empty, .empty, 64⟩

/-- The second client has the first row when it adds its own. -/
def oneAfterTheOther : List (Event Nat) :=
  [.add 1 noDefaults 64 ['a'], .receive 2 (List.range 10), .add 2 noDefaults 64 ['b']]

theorem nothing_hidden_oneAfterTheOther : ∃ s,
    exec (step greatestClient) (fun _ _ => True) newBase oneAfterTheOther = some s ∧
    lots greatestClient 2 s.doc = [44, 37] ∧ NothingHidden greatestClient 2 s := by
  refine ⟨_, rfl, by decide +kernel, nothing_hidden greatestClient ?_ 2 (by decide +kernel)⟩
  refine .tail (Event.add 2 noDefaults 64 ['b']) (.tail (Event.receive 2 (List.range 10))
    (.tail (Event.add 1 noDefaults 64 ['a']) .refl ?_ rfl) ?_ rfl) ?_ rfl
  · exact ⟨sees_of_known (by decide), sees_of_known (by decide)⟩
  · trivial
  · exact ⟨sees_of_known (by decide +kernel), sees_of_known (by decide +kernel)⟩

/-- Neither has the row of the other when it adds its own. -/
def atTheSameTime : List (Event Nat) :=
  [.add 1 noDefaults 64 ['a'], .add 2 noDefaults 64 ['b'], .receive 1 (List.range 20), .receive 2 (List.range 20)]

/-- The manifest of the second client takes the place of the first one: its row is in a lot without a mark. -/
theorem row_hidden : ¬ ∀ (w : LastWriter Nat Primitive) (s : Base Nat) (i : Nat),
    Run (step w) (fun _ _ => True) newBase s → (∀ id < s.doc.log.length, s.doc.known i id = true) →
    NothingHidden w i s := by
  intro hall
  obtain ⟨s, hs, hfull, hrows, hlots⟩ : ∃ s,
      exec (step greatestClient) (fun _ _ => True) newBase atTheSameTime = some s ∧
      (∀ id < s.doc.log.length, s.doc.known 1 id = true) ∧ (44, ['a']) ∈ s.rows ∧
      lots greatestClient 1 s.doc = [37] :=
    ⟨_, rfl, by decide +kernel, by decide +kernel, by decide +kernel⟩
  have hfound := (hall greatestClient s 1 (run_of_exec _ _ _ hs) hfull).rows _ hrows
  rw [hlots] at hfound
  simp at hfound

end Savoire.Manifest
