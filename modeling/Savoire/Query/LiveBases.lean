import Savoire.Query.LightRows
import Savoire.Library.Transition

/-! The light rows of the bases in the local query engine: lots are read whole when they open, and row by
row as they change; a base that nobody looks at closes its lots and leaves its rows in the engine. -/
namespace Savoire.Query
open Transition

/-- What a key of the root of an open lot holds; the handle of a row is the node itself. -/
inductive RootEntry
  | row (handle : Nat) (fields : RowMap)
  | other

/-- An open lot, as its shared tree shows it: a node stands under one key. -/
structure LotTree where
  root : KeyedMap Text RootEntry
  handle_inj : ∀ {k k' h f f'}, root.get k = some (.row h f) → root.get k' = some (.row h f') → k = k'

inductive LotChange
  | root (keys : List Text)
  | inside (nodes : List Nat)

structure LotState where
  tree : LotTree
  rows : List Text
  keyOf : Nat → Option Text

structure BaseState where
  /-- The marks of the manifest, once the tree of the base is open. -/
  tree : Option (List Text)
  /-- How many openings of the tree are under way. -/
  treeOpening : Nat
  lots : KeyedMap Int LotState
  opening : List Int
  lastUsed : Nat
  watchers : Nat
  live : Bool

abbrev Engine := KeyedMap Text LocalIndexedDoc

/-- Where the rows go; of the mirror, what was last sent for each lot. -/
structure Sinks where
  engine : Engine
  mirror : Option (Text × Int → Text → Option LocalIndexedDoc)

structure Provider where
  types : Settings
  sinks : Sinks
  bases : KeyedMap Text BaseState
  now : Nat

inductive BaseEvent
  | ensure (b : Text)
  | watch (b : Text)
  | unwatch (b : Text)
  | treeOpened (b : Text) (marks : List Text)
  | treeFailed (b : Text)
  | manifest (b : Text) (marks : List Text)
  | lotOpened (b : Text) (n : Int) (tree : LotTree)
  | lotFailed (b : Text) (n : Int)
  | lotChanged (b : Text) (n : Int) (tree : LotTree) (changes : List LotChange)
  | retype (types : Settings)
  | setMirror (on : Bool)
  | release
  | tick (ms : Nat)
  | attach (types : Settings)

/-- The host, and the numbers that keys stand for, when these are integers. -/
structure BaseSetting where
  host : Host
  number : Text → Num
  integer : Text → Option Int
  baseIdleMs : Nat

def rowKey (id : Text) : Text := baseRowPrefix ++ id

def LotTree.row (t : LotTree) (id : Text) : Option (Nat × RowMap) :=
  match t.root.get (rowKey id) with
  | some (.row h fields) => some (h, fields)
  | _ => none

def readEntry (e : Text × RootEntry) : Option (Text × Nat × RowMap) :=
  match e.2 with
  | .row h fields =>
      if baseRowPrefix.isPrefixOf e.1 then some (e.1.drop baseRowPrefix.length, h, fields) else none
  | .other => none

/-- The rows in the order of their keys. -/
def LotTree.rows (t : LotTree) : List (Text × Nat × RowMap) := t.root.entries.filterMap readEntry

section Read
variable (c : BaseSetting) (types : Settings) (b : Text) (n : Int)

def register (keyOf : Nat → Option Text) (r : Text × Nat × RowMap) : Nat → Option Text :=
  Function.update keyOf r.2.1 (some (rowKey r.1))

def LotState.read (lot : LotState) : LotState :=
  { lot with rows := lot.tree.rows.map Prod.fst, keyOf := lot.tree.rows.foldl register lot.keyOf }

def docOf (r : Text × Nat × RowMap) : LocalIndexedDoc := rowDoc c.host c.number types b r.1 r.2.2

/-- `readLot`, what it does to the engine and the mirror. -/
def Sinks.readLot (lot : LotState) (s : Sinks) : Sinks where
  engine := (lot.rows.filter fun id => (lot.tree.row id).isNone).foldl KeyedMap.delete
    (lot.tree.rows.foldl (fun engine r => engine.set r.1 (docOf c types b r)) s.engine)
  mirror := s.mirror.map fun sent =>
    Function.update sent (b, n) fun id => (lot.tree.row id).map fun r => docOf c types b (id, r)

/-- The node under the root that a change is in. -/
def climb (nodes : List Nat) : Option Nat := nodes.getLast?

def touched (keyOf : Nat → Option Text) (changes : List LotChange) : List Text :=
  (changes.flatMap fun
    | .root keys => keys.filter baseRowPrefix.isPrefixOf
    | .inside nodes => ((climb nodes).bind keyOf).toList).eraseDups

def LotState.touch (lot : LotState) (key : Text) : LotState :=
  let id := key.drop baseRowPrefix.length
  match lot.tree.row id with
  | some (h, _) =>
      { lot with rows := id :: lot.rows.filter (· != id), keyOf := Function.update lot.keyOf h (some key) }
  | none => { lot with rows := lot.rows.filter (· != id) }

def touchEngine (tree : LotTree) (engine : Engine) (key : Text) : Engine :=
  let id := key.drop baseRowPrefix.length
  match tree.row id with
  | some r => engine.set id (docOf c types b (id, r))
  | none => engine.delete id

def touchMirror (tree : LotTree) (sent : Text → Option LocalIndexedDoc) (key : Text) : Text → Option LocalIndexedDoc :=
  let id := key.drop baseRowPrefix.length
  Function.update sent id ((tree.row id).map fun r => docOf c types b (id, r))

/-- `applyLotChanges`, what it does to the engine and the mirror. -/
def Sinks.applyLotChanges (lot : LotState) (changes : List LotChange) (s : Sinks) : Sinks where
  engine := (touched lot.keyOf changes).foldl (touchEngine c types b lot.tree) s.engine
  mirror := s.mirror.map fun sent => Function.update sent (b, n)
    ((touched lot.keyOf changes).foldl (touchMirror c types b lot.tree) (sent (b, n)))

end Read

section Bases
variable (c : BaseSetting)

/-- The lots that a manifest marks. -/
def marked (marks : List Text) : List Int := marks.filterMap c.integer

def BaseState.openLots (st : BaseState) : BaseState :=
  match st.tree with
  | none => st
  | some marks => (marked c marks).foldl (fun st n =>
      if st.lots.has n || n ∈ st.opening then st else { st with opening := st.opening ++ [n] }) st

def BaseState.close (st : BaseState) : BaseState := { st with live := false, tree := none, lots := .empty }

namespace Provider

def setBase (s : Provider) (b : Text) (st : BaseState) : Provider := { s with bases := s.bases.set b st }

def ensureBase (s : Provider) (b : Text) : Provider :=
  let st := (s.bases.get b).getD ⟨none, 0, .empty, [], s.now, 0, false⟩
  s.setBase b (if st.live then { st with lastUsed := s.now }
    else { st with lastUsed := s.now, live := true, treeOpening := st.treeOpening + 1 })

def openLots (s : Provider) : List (Text × Int × LotState) :=
  s.bases.entries.flatMap fun e => e.2.lots.entries.map fun l => (e.1, l.1, l.2)

def readLots (s : Provider) : Provider :=
  { s with sinks := s.openLots.foldl (fun sinks l => sinks.readLot c s.types l.1 l.2.1 l.2.2) s.sinks
           bases := s.bases.map fun _ st => { st with lots := st.lots.map fun _ lot => lot.read } }

def step (s : Provider) : BaseEvent → Option Provider
  | .ensure b => some (s.ensureBase b)
  | .watch b =>
      let s := s.ensureBase b
      (s.bases.get b).map fun st => s.setBase b { st with watchers := st.watchers + 1 }
  | .unwatch b =>
      match s.bases.get b with
      | none => none
      | some st =>
        if st.watchers = 0 then none
        else some (s.setBase b { st with watchers := st.watchers - 1, lastUsed := s.now })
  | .treeOpened b marks =>
      match s.bases.get b with
      | none => none
      | some st =>
        if st.treeOpening = 0 then none
        else
          let st := { st with treeOpening := st.treeOpening - 1 }
          some (s.setBase b (if st.live then { st with tree := some marks }.openLots c else st))
  | .treeFailed b =>
      match s.bases.get b with
      | none => none
      | some st =>
        if st.treeOpening = 0 then none
        else some (s.setBase b { st with treeOpening := st.treeOpening - 1 })
  | .manifest b marks =>
      match s.bases.get b with
      | none => none
      | some st =>
        if st.tree.isNone then none else some (s.setBase b ({ st with tree := some marks }.openLots c))
  | .lotOpened b n tree =>
      match s.bases.get b with
      | none => none
      | some st =>
        if n ∉ st.opening then none
        else
          let st := { st with opening := st.opening.filter (· != n) }
          if st.live then
            let lot : LotState := ⟨tree, [], fun _ => none⟩
            some { s.setBase b { st with lots := st.lots.set n lot.read } with
              sinks := s.sinks.readLot c s.types b n lot }
          else some (s.setBase b st)
  | .lotFailed b n =>
      match s.bases.get b with
      | none => none
      | some st =>
        if n ∉ st.opening then none
        else some (s.setBase b { st with opening := st.opening.filter (· != n) })
  | .lotChanged b n tree changes =>
      match s.bases.get b with
      | none => none
      | some st =>
        match st.lots.get n with
        | none => none
        | some lot =>
          let lot := { lot with tree := tree }
          let lot' := (touched lot.keyOf changes).foldl LotState.touch lot
          some { s.setBase b { st with lots := st.lots.set n lot' } with
            sinks := s.sinks.applyLotChanges c s.types b n lot changes }
  | .retype types => some ({ s with types := types }.readLots c)
  | .setMirror on =>
      if on then some ({ s with sinks := { s.sinks with mirror := some fun _ _ => none } }.readLots c)
      else some { s with sinks := { s.sinks with mirror := none } }
  | .release =>
      some { s with bases := s.bases.map fun _ st =>
        if st.live && st.watchers == 0 && c.baseIdleMs < s.now - st.lastUsed then st.close else st }
  | .tick ms => some { s with now := s.now + ms }
  | .attach types => some { s with types := types, bases := .empty, sinks := { s.sinks with engine := .empty } }

end Provider
end Bases

def Describes (old new : LotTree) (changes : List LotChange) : Prop :=
  ∀ id, (∃ keys, .root keys ∈ changes ∧ rowKey id ∈ keys) ∨
    match new.row id with
    | none => old.row id = none
    | some (h, fields) => ∃ fields', old.row id = some (h, fields') ∧
        (fields' = fields ∨ ∃ nodes, .inside nodes ∈ changes ∧ climb nodes = some h)

def Provider.Contract (s : Provider) : BaseEvent → Prop
  | .lotChanged b n tree changes => ∀ st lot, s.bases.get b = some st → st.lots.get n = some lot →
      Describes lot.tree tree changes
  | _ => True

/-- The events that come without a batch. -/
def BaseEvent.Plain : BaseEvent → Prop
  | .lotChanged .. => False
  | _ => True

instance : DecidablePred BaseEvent.Plain
  | .lotChanged .. => .isFalse id
  | .ensure _ | .watch _ | .unwatch _ | .treeOpened .. | .treeFailed _ | .manifest .. | .lotOpened .. | .lotFailed ..
  | .retype _ | .setMirror _ | .release | .tick _ | .attach _ => .isTrue trivial

theorem contract_of_plain (s : Provider) {e : BaseEvent} (h : e.Plain) : s.Contract e := by
  cases e with
  | lotChanged => exact h.elim
  | _ => trivial

def LotTree.Of (home : Text → Text × Int) (b : Text) (n : Int) (t : LotTree) : Prop :=
  ∀ id, (t.row id).isSome → home id = (b, n)

/-- What the engine has kept of a lot is still there when the lot is read again, what it has kept of a base is
in lots that are still marked, and a row key is of one lot for ever: `home` says which. -/
def Provider.Kept (c : BaseSetting) (home : Text → Text × Int) (s : Provider) : BaseEvent → Prop
  | .lotOpened b n tree => tree.Of home b n ∧
      ∀ id, (s.sinks.engine.get id).isSome → home id = (b, n) → (tree.row id).isSome
  | .lotChanged b n tree changes => tree.Of home b n ∧
      ∀ keys, .root keys ∈ changes → ∀ id, rowKey id ∈ keys → home id = (b, n)
  | .treeOpened b marks | .manifest b marks => ∀ st, s.bases.get b = some st →
      ∀ id n, (s.sinks.engine.get id).isSome → home id = (b, n) → n ∈ marked c marks ∨ st.lots.has n = true
  | _ => True

def Provider.RowsEqualLots (c : BaseSetting) (s : Provider) : Prop :=
  ∀ b st marks, s.bases.get b = some st → st.live → st.tree = some marks →
    (∀ n ∈ marked c marks, st.lots.has n = true) →
    (∀ id d, s.sinks.engine.get id = some d ∧ d.base = b ↔
      ∃ n lot r, st.lots.get n = some lot ∧ lot.tree.row id = some r ∧ d = docOf c s.types b (id, r)) ∧
    ∀ sent, s.sinks.mirror = some sent → ∀ n lot, st.lots.get n = some lot →
      ∀ id, sent (b, n) id = (lot.tree.row id).map fun r => docOf c s.types b (id, r)

section Rows
variable {t : LotTree} {id : Text} {h : Nat} {fields : RowMap} {r : Nat × RowMap}

theorem drop_rowKey (id : Text) : (rowKey id).drop baseRowPrefix.length = id := List.drop_left

theorem rowKey_drop {key : Text} (hkey : baseRowPrefix.isPrefixOf key = true) :
    rowKey (key.drop baseRowPrefix.length) = key := by
  obtain ⟨rest, rfl⟩ := List.isPrefixOf_iff_prefix.mp hkey
  rw [rowKey, List.drop_left]

theorem row_eq_some : t.row id = some (h, fields) ↔ t.root.get (rowKey id) = some (.row h fields) := by
  unfold LotTree.row
  split
  · rename_i h' fields' heq
    simp [heq]
  · rename_i hno
    constructor
    · intro hnone
      cases hnone
    · intro heq
      exact absurd heq (hno h fields)

theorem readEntry_eq_some {e : Text × RootEntry} {r : Text × Nat × RowMap} :
    readEntry e = some r ↔ e = (rowKey r.1, .row r.2.1 r.2.2) := by
  obtain ⟨key, v⟩ := e
  obtain ⟨id, h, fields⟩ := r
  constructor
  · intro hread
    unfold readEntry at hread
    cases v with
    | row h' fields' =>
      dsimp only at hread
      split at hread
      · rename_i hkey
        cases hread
        rw [rowKey_drop hkey]
      · cases hread
    | other => cases hread
  · intro heq
    cases heq
    have hprefix : baseRowPrefix.isPrefixOf (rowKey id) = true :=
      List.isPrefixOf_iff_prefix.mpr (List.prefix_append _ _)
    simp only [readEntry, if_pos hprefix, drop_rowKey]

theorem mem_rows : (id, h, fields) ∈ t.rows ↔ t.row id = some (h, fields) := by
  rw [row_eq_some, LotTree.rows, List.mem_filterMap]
  constructor
  · rintro ⟨e, hmem, hread⟩
    exact KeyedMap.mem_iff.mp (readEntry_eq_some.mp hread ▸ hmem)
  · intro hget
    exact ⟨_, KeyedMap.mem_iff.mpr hget, readEntry_eq_some.mpr rfl⟩

theorem mem_rows' : (id, r) ∈ t.rows ↔ t.row id = some r := mem_rows

theorem mem_ids : id ∈ t.rows.map Prod.fst ↔ (t.row id).isSome := by
  rw [List.mem_map, Option.isSome_iff_exists]
  constructor
  · rintro ⟨⟨id', r⟩, hmem, rfl⟩
    exact ⟨r, mem_rows'.mp hmem⟩
  · rintro ⟨r, hr⟩
    exact ⟨(id, r), mem_rows'.mpr hr, rfl⟩

theorem nodup_ids (t : LotTree) : (t.rows.map Prod.fst).Nodup := by
  have hsub : ∀ l : List (Text × RootEntry),
      (((l.filterMap readEntry).map Prod.fst).map rowKey).Sublist (l.map Prod.fst) := by
    intro l
    induction l with
    | nil => exact List.Sublist.refl _
    | cons e l ih =>
      cases hread : readEntry e with
      | none =>
        rw [List.filterMap_cons_none hread]
        exact ih.cons e.1
      | some r =>
        rw [List.filterMap_cons_some hread, List.map_cons, List.map_cons, List.map_cons,
          readEntry_eq_some.mp hread]
        exact ih.cons_cons (rowKey r.1)
  exact (t.root.nodup.sublist (hsub _)).of_map rowKey

theorem row_inj {id' : Text} {fields' : RowMap} (hr : t.row id = some (h, fields))
    (hr' : t.row id' = some (h, fields')) : id = id' :=
  List.append_cancel_left (t.handle_inj (row_eq_some.mp hr) (row_eq_some.mp hr'))

end Rows

structure LotState.OK (home : Text → Text × Int) (b : Text) (n : Int) (lot : LotState) : Prop where
  rows : ∀ id, id ∈ lot.rows ↔ (lot.tree.row id).isSome
  keyOf : ∀ id h fields, lot.tree.row id = some (h, fields) → lot.keyOf h = some (rowKey id)
  owned : ∀ h key, lot.keyOf h = some key → ∃ id, key = rowKey id ∧ home id = (b, n)
  ofLot : lot.tree.Of home b n

structure Sinks.Show (c : BaseSetting) (home : Text → Text × Int) (types : Settings) (b : Text) (n : Int)
    (tree : LotTree) (s : Sinks) : Prop where
  engine : ∀ id, home id = (b, n) → s.engine.get id = (tree.row id).map fun r => docOf c types b (id, r)
  mirror : ∀ sent, s.mirror = some sent → ∀ id, sent (b, n) id = (tree.row id).map fun r => docOf c types b (id, r)

/-- Nothing changes but the rows of one lot. -/
structure Sinks.Off (home : Text → Text × Int) (p : Text × Int) (s s' : Sinks) : Prop where
  engine : ∀ id, home id ≠ p → s'.engine.get id = s.engine.get id
  mirror : ∀ sent', s'.mirror = some sent' → ∃ sent, s.mirror = some sent ∧ ∀ q, q ≠ p → sent' q = sent q

section Sinks
variable {c : BaseSetting} {home : Text → Text × Int} {types : Settings} {b : Text} {n : Int} {lot : LotState}
  {s s' : Sinks} {id : Text} {tree : LotTree}

theorem Sinks.Show.off {b' : Text} {n' : Int} (h : s.Show c home types b' n' tree) (hoff : s.Off home (b, n) s')
    (hne : (b', n') ≠ (b, n)) : s'.Show c home types b' n' tree where
  engine id hid := by
    rw [hoff.engine id (hid ▸ hne)]
    exact h.engine id hid
  mirror sent' hsent' id := by
    obtain ⟨sent, hsent, hsame⟩ := hoff.mirror sent' hsent'
    rw [hsame _ hne]
    exact h.mirror sent hsent id

theorem register_spec (l : List (Text × Nat × RowMap)) (keyOf : Nat → Option Text) (h : Nat) :
    (l.foldl register keyOf h = keyOf h ∧ ∀ r ∈ l, r.2.1 ≠ h) ∨
    ∃ r ∈ l, r.2.1 = h ∧ l.foldl register keyOf h = some (rowKey r.1) := by
  induction l generalizing keyOf with
  | nil => exact .inl ⟨rfl, by simp⟩
  | cons r l ih =>
    rw [List.foldl_cons]
    obtain ⟨heq, hnone⟩ | ⟨r', hr', hh, heq⟩ := ih (register keyOf r)
    · by_cases hr : r.2.1 = h
      · refine .inr ⟨r, List.mem_cons_self, hr, ?_⟩
        rw [heq, register, hr, Function.update_self]
      · refine .inl ⟨?_, fun r' hmem => ?_⟩
        · rw [heq, register, Function.update_of_ne fun heq => hr heq.symm]
        · obtain rfl | hmem := List.mem_cons.mp hmem
          · exact hr
          · exact hnone r' hmem
    · exact .inr ⟨r', List.mem_cons_of_mem _ hr', hh, heq⟩

theorem LotState.OK.read (howned : ∀ h key, lot.keyOf h = some key → ∃ id, key = rowKey id ∧ home id = (b, n))
    (hof : lot.tree.Of home b n) : lot.read.OK home b n := by
  refine ⟨fun id => mem_ids, fun id h fields hr => ?_, fun h key hkey => ?_, hof⟩
  · obtain ⟨-, hnone⟩ | ⟨⟨id', h', fields'⟩, hmem, rfl, heq⟩ := register_spec lot.tree.rows lot.keyOf h
    · exact absurd rfl (hnone (id, h, fields) (mem_rows.mpr hr))
    · rw [row_inj hr (mem_rows.mp hmem)]
      exact heq
  · obtain ⟨heq, -⟩ | ⟨⟨id', h', fields'⟩, hmem, rfl, heq⟩ := register_spec lot.tree.rows lot.keyOf h
    · exact howned h key (heq ▸ hkey)
    · exact ⟨id', (Option.some.inj (heq.symm.trans hkey)).symm, hof id' (by rw [mem_rows.mp hmem]; rfl)⟩

theorem engine_readLot : (s.readLot c types b n lot).engine.get id =
    match lot.tree.row id with
    | some r => some (docOf c types b (id, r))
    | none => if id ∈ lot.rows then none else s.engine.get id := by
  rw [Sinks.readLot, KeyedMap.get_foldl_delete_keys]
  ext d
  cases hr : lot.tree.row id with
  | none =>
    have hgone : id ∈ lot.rows.filter (fun id => (lot.tree.row id).isNone) ↔ id ∈ lot.rows := by
      simp [List.mem_filter, hr]
    have hno : ∀ x ∈ lot.tree.rows, x.1 ≠ id := by
      rintro x hx rfl
      rw [mem_rows'.mp hx] at hr
      cases hr
    simp only [hgone]
    split
    · rfl
    · rw [KeyedMap.get_foldl_set Prod.fst (docOf c types b) (nodup_ids _)]
      have hkeys : id ∉ lot.tree.rows.map Prod.fst := by
        rintro hmem
        obtain ⟨x, hx, rfl⟩ := List.mem_map.mp hmem
        exact hno x hx rfl
      simp only [hkeys, not_false_eq_true, true_and, or_iff_right_iff_imp]
      rintro ⟨x, hx, hid, -⟩
      exact absurd hid (hno x hx)
  | some r =>
    have hkept : id ∉ lot.rows.filter (fun id => (lot.tree.row id).isNone) := by simp [List.mem_filter, hr]
    rw [if_neg hkept, KeyedMap.get_foldl_set Prod.fst (docOf c types b) (nodup_ids _)]
    constructor
    · rintro (⟨⟨id', r'⟩, hx, rfl, rfl⟩ | ⟨hkeys, -⟩)
      · obtain rfl : r' = r := Option.some.inj ((mem_rows'.mp hx).symm.trans hr)
        rfl
      · exact absurd (List.mem_map.mpr ⟨(id, r), mem_rows'.mpr hr, rfl⟩) hkeys
    · intro hd
      exact .inl ⟨(id, r), mem_rows'.mpr hr, rfl, Option.some.inj hd⟩

theorem show_readLot
    (hkept : ∀ id, home id = (b, n) → (s.engine.get id).isSome → (lot.tree.row id).isSome ∨ id ∈ lot.rows) :
    (s.readLot c types b n lot).Show c home types b n lot.tree where
  engine id hid := by
    rw [engine_readLot]
    cases hr : lot.tree.row id with
    | some r => rfl
    | none =>
      dsimp only
      split
      · rfl
      · rename_i hrows
        cases hg : s.engine.get id with
        | none => rfl
        | some d =>
          have := hkept id hid (by rw [hg]; rfl)
          simp [hr, hrows] at this
  mirror sent' hsent' id := by
    obtain ⟨sent, -, rfl⟩ := Option.map_eq_some_iff.mp hsent'
    rw [Function.update_self]

theorem off_readLot (hof : lot.tree.Of home b n) (hrows : ∀ id ∈ lot.rows, home id = (b, n)) :
    s.Off home (b, n) (s.readLot c types b n lot) where
  engine id hid := by
    rw [engine_readLot]
    cases hr : lot.tree.row id with
    | some r => exact absurd (hof id (by rw [hr]; rfl)) hid
    | none => exact if_neg fun hmem => hid (hrows id hmem)
  mirror sent' hsent' := by
    obtain ⟨sent, hsent, rfl⟩ := Option.map_eq_some_iff.mp hsent'
    exact ⟨sent, hsent, fun q hq => Function.update_of_ne hq _ _⟩

theorem LotState.OK.off_readLot (hok : lot.OK home b n) : s.Off home (b, n) (s.readLot c types b n lot) :=
  Query.off_readLot hok.ofLot fun id hid => hok.ofLot id ((hok.rows id).mp hid)

end Sinks

section Changes
variable {c : BaseSetting} {home : Text → Text × Int} {types : Settings} {b : Text} {n : Int} {lot : LotState}
  {s : Sinks} {id : Text} {tree : LotTree} {keys : List Text} {changes : List LotChange}

def idsOf (keys : List Text) : List Text := keys.map (List.drop baseRowPrefix.length)

theorem mem_idsOf_cons {key : Text} : id ∈ idsOf (key :: keys) ↔
    id = key.drop baseRowPrefix.length ∨ id ∈ idsOf keys := List.mem_cons

theorem get_touchEngine (engine : Engine) : (keys.foldl (touchEngine c types b tree) engine).get id =
    if id ∈ idsOf keys then (tree.row id).map fun r => docOf c types b (id, r) else engine.get id := by
  induction keys generalizing engine with
  | nil => rfl
  | cons key keys ih =>
    rw [List.foldl_cons, ih]
    by_cases hkeys : id ∈ idsOf keys
    · rw [if_pos hkeys, if_pos (mem_idsOf_cons.mpr (.inr hkeys))]
    · rw [if_neg hkeys, touchEngine]
      by_cases hid : id = key.drop baseRowPrefix.length
      · rw [if_pos (mem_idsOf_cons.mpr (.inl hid)), ← hid]
        cases hr : tree.row id with
        | some r => exact KeyedMap.get_set_self
        | none => exact KeyedMap.get_delete.trans (if_pos rfl)
      · rw [if_neg (mem_idsOf_cons.not.mpr (not_or.mpr ⟨hid, hkeys⟩))]
        split
        · exact KeyedMap.get_set_ne hid
        · exact KeyedMap.get_delete.trans (if_neg hid)

theorem touchMirror_eq (sent : Text → Option LocalIndexedDoc) : keys.foldl (touchMirror c types b tree) sent id =
    if id ∈ idsOf keys then (tree.row id).map fun r => docOf c types b (id, r) else sent id := by
  induction keys generalizing sent with
  | nil => rfl
  | cons key keys ih =>
    rw [List.foldl_cons, ih]
    by_cases hkeys : id ∈ idsOf keys
    · rw [if_pos hkeys, if_pos (mem_idsOf_cons.mpr (.inr hkeys))]
    · rw [if_neg hkeys, touchMirror]
      by_cases hid : id = key.drop baseRowPrefix.length
      · rw [if_pos (mem_idsOf_cons.mpr (.inl hid)), ← hid, Function.update_self]
      · rw [if_neg (mem_idsOf_cons.not.mpr (not_or.mpr ⟨hid, hkeys⟩)), Function.update_of_ne hid]

@[simp] theorem tree_touch (lot : LotState) (key : Text) : (lot.touch key).tree = lot.tree := by
  unfold LotState.touch
  dsimp only
  split <;> rfl

@[simp] theorem tree_touches (lot : LotState) : (keys.foldl LotState.touch lot).tree = lot.tree := by
  induction keys generalizing lot with
  | nil => rfl
  | cons key keys ih => rw [List.foldl_cons, ih, tree_touch]

theorem mem_rows_touch (lot : LotState) (key : Text) : id ∈ (lot.touch key).rows ↔
    if id = key.drop baseRowPrefix.length then (lot.tree.row id).isSome = true else id ∈ lot.rows := by
  unfold LotState.touch
  dsimp only
  by_cases hid : id = key.drop baseRowPrefix.length
  · rw [if_pos hid, ← hid]
    cases hr : lot.tree.row id with
    | some r => simp
    | none => simp
  · split <;> simp [hid]

theorem mem_rows_touches (lot : LotState) : id ∈ (keys.foldl LotState.touch lot).rows ↔
    if id ∈ idsOf keys then (lot.tree.row id).isSome = true else id ∈ lot.rows := by
  induction keys generalizing lot with
  | nil => exact Iff.rfl
  | cons key keys ih =>
    rw [List.foldl_cons, ih, tree_touch]
    by_cases hkeys : id ∈ idsOf keys
    · rw [if_pos hkeys, if_pos (mem_idsOf_cons.mpr (.inr hkeys))]
    · rw [if_neg hkeys, mem_rows_touch]
      by_cases hid : id = key.drop baseRowPrefix.length
      · rw [if_pos hid, if_pos (mem_idsOf_cons.mpr (.inl hid))]
      · rw [if_neg hid, if_neg (mem_idsOf_cons.not.mpr (not_or.mpr ⟨hid, hkeys⟩))]

theorem keyOf_touches (keys : List Text) (lot : LotState) (h : Nat) :
    ((keys.foldl LotState.touch lot).keyOf h = lot.keyOf h ∧
      ∀ id ∈ idsOf keys, ∀ fields, lot.tree.row id ≠ some (h, fields)) ∨
    ∃ key ∈ keys, ∃ fields, lot.tree.row (key.drop baseRowPrefix.length) = some (h, fields) ∧
      (keys.foldl LotState.touch lot).keyOf h = some key := by
  induction keys generalizing lot with
  | nil => exact .inl ⟨rfl, by simp [idsOf]⟩
  | cons key keys ih =>
    rw [List.foldl_cons]
    obtain ⟨heq, hnone⟩ | ⟨key', hkey', fields, hr, heq⟩ := ih (lot.touch key)
    · rw [tree_touch] at hnone
      cases hr : lot.tree.row (key.drop baseRowPrefix.length) with
      | some r =>
        obtain ⟨h', fields⟩ := r
        have htouch : (lot.touch key).keyOf = Function.update lot.keyOf h' (some key) := by
          unfold LotState.touch
          simp only [hr]
        by_cases hh : h = h'
        · subst hh
          exact .inr ⟨key, List.mem_cons_self, fields, hr, by rw [heq, htouch, Function.update_self]⟩
        · refine .inl ⟨by rw [heq, htouch, Function.update_of_ne hh], fun id hid fields' => ?_⟩
          obtain rfl | hid := List.mem_cons.mp hid
          · rw [hr]
            intro hsome
            cases hsome
            exact hh rfl
          · exact hnone id hid fields'
      | none =>
        have htouch : (lot.touch key).keyOf = lot.keyOf := by
          unfold LotState.touch
          simp only [hr]
        refine .inl ⟨by rw [heq, htouch], fun id hid fields' => ?_⟩
        obtain rfl | hid := List.mem_cons.mp hid
        · rw [hr]
          exact (Option.some_ne_none _).symm
        · exact hnone id hid fields'
    · rw [tree_touch] at hr
      exact .inr ⟨key', List.mem_cons_of_mem _ hkey', fields, hr, heq⟩

theorem mem_touched {keyOf : Nat → Option Text} {key : Text} : key ∈ touched keyOf changes ↔
    (∃ keys, .root keys ∈ changes ∧ key ∈ keys ∧ baseRowPrefix.isPrefixOf key = true) ∨
    ∃ nodes h, .inside nodes ∈ changes ∧ climb nodes = some h ∧ keyOf h = some key := by
  rw [touched, List.mem_eraseDups, List.mem_flatMap]
  constructor
  · rintro ⟨change, hmem, hkey⟩
    cases change with
    | root keys => exact .inl ⟨keys, hmem, List.mem_filter.mp hkey⟩
    | inside nodes =>
      obtain ⟨h, hclimb, hkeyOf⟩ := Option.bind_eq_some_iff.mp (Option.mem_toList.mp hkey)
      exact .inr ⟨nodes, h, hmem, hclimb, hkeyOf⟩
  · rintro (⟨keys, hmem, hkey⟩ | ⟨nodes, h, hmem, hclimb, hkeyOf⟩)
    · exact ⟨.root keys, hmem, List.mem_filter.mpr hkey⟩
    · exact ⟨.inside nodes, hmem, Option.mem_toList.mpr (Option.bind_eq_some_iff.mpr ⟨h, hclimb, hkeyOf⟩)⟩

theorem touched_owned (hok : lot.OK home b n)
    (hroot : ∀ keys, .root keys ∈ changes → ∀ id, rowKey id ∈ keys → home id = (b, n)) {key : Text}
    (hkey : key ∈ touched lot.keyOf changes) : ∃ id, key = rowKey id ∧ home id = (b, n) := by
  obtain ⟨keys, hmem, hin, hprefix⟩ | ⟨nodes, h, -, -, hkeyOf⟩ := mem_touched.mp hkey
  · exact ⟨_, (rowKey_drop hprefix).symm, hroot keys hmem _ ((rowKey_drop hprefix).symm ▸ hin)⟩
  · exact hok.owned h key hkeyOf

theorem mem_idsOf_of_key (h : rowKey id ∈ keys) : id ∈ idsOf keys :=
  List.mem_map.mpr ⟨rowKey id, h, drop_rowKey id⟩

theorem row_of_untouched (hok : lot.OK home b n) (hdescribes : Describes lot.tree tree changes)
    (hid : id ∉ idsOf (touched lot.keyOf changes)) : tree.row id = lot.tree.row id := by
  have hprefix : baseRowPrefix.isPrefixOf (rowKey id) = true :=
    List.isPrefixOf_iff_prefix.mpr (List.prefix_append _ _)
  obtain ⟨keys, hmem, hin⟩ | hsame := hdescribes id
  · exact absurd (mem_idsOf_of_key (mem_touched.mpr (.inl ⟨keys, hmem, hin, hprefix⟩))) hid
  · cases hr : tree.row id with
    | none =>
      rw [hr] at hsame
      exact hsame.symm
    | some r =>
      obtain ⟨h, fields⟩ := r
      rw [hr] at hsame
      obtain ⟨fields', hold, rfl | ⟨nodes, hmem, hclimb⟩⟩ := hsame
      · exact hold.symm
      · have hkeyOf := hok.keyOf id h fields' hold
        exact absurd (mem_idsOf_of_key (mem_touched.mpr (.inr ⟨nodes, h, hmem, hclimb, hkeyOf⟩))) hid

end Changes

section Changes
variable {c : BaseSetting} {home : Text → Text × Int} {types : Settings} {b : Text} {n : Int} {lot : LotState}
  {s : Sinks} {tree : LotTree} {changes : List LotChange}

theorem LotState.OK.change (hok : lot.OK home b n) (hdescribes : Describes lot.tree tree changes)
    (hof : tree.Of home b n)
    (hroot : ∀ keys, .root keys ∈ changes → ∀ id, rowKey id ∈ keys → home id = (b, n)) :
    ((touched lot.keyOf changes).foldl LotState.touch { lot with tree := tree }).OK home b n where
  rows id := by
    rw [mem_rows_touches, tree_touches]
    split
    · rfl
    · rename_i hid
      rw [hok.rows, row_of_untouched hok hdescribes hid]
  keyOf id h fields hr := by
    rw [tree_touches] at hr
    obtain ⟨heq, hnone⟩ | ⟨key, hkey, fields', hrow, heq⟩ :=
      keyOf_touches (touched lot.keyOf changes) { lot with tree := tree } h
    · have hid : id ∉ idsOf (touched lot.keyOf changes) := fun hid => hnone id hid fields hr
      rw [heq]
      exact hok.keyOf id h fields (row_of_untouched hok hdescribes hid ▸ hr)
    · obtain ⟨id', rfl, -⟩ := touched_owned hok hroot hkey
      rw [drop_rowKey] at hrow
      rw [heq, row_inj hr hrow]
  owned h key hkey := by
    obtain ⟨heq, -⟩ | ⟨key', hkey', -, -, heq⟩ :=
      keyOf_touches (touched lot.keyOf changes) { lot with tree := tree } h
    · exact hok.owned h key (heq ▸ hkey)
    · obtain rfl := Option.some.inj (heq.symm.trans hkey)
      exact touched_owned hok hroot hkey'
  ofLot := by
    rw [tree_touches]
    exact hof

theorem show_applyLotChanges (hok : lot.OK home b n) (hdescribes : Describes lot.tree tree changes)
    (hshow : s.Show c home types b n lot.tree) :
    (s.applyLotChanges c types b n { lot with tree := tree } changes).Show c home types b n tree where
  engine id hid := by
    rw [Sinks.applyLotChanges, get_touchEngine]
    split
    · rfl
    · rename_i huntouched
      rw [hshow.engine id hid, row_of_untouched hok hdescribes huntouched]
  mirror sent' hsent' id := by
    obtain ⟨sent, hsent, rfl⟩ := Option.map_eq_some_iff.mp hsent'
    rw [Function.update_self, touchMirror_eq]
    split
    · rfl
    · rename_i huntouched
      rw [hshow.mirror sent hsent id, row_of_untouched hok hdescribes huntouched]

theorem off_applyLotChanges (hok : lot.OK home b n)
    (hroot : ∀ keys, .root keys ∈ changes → ∀ id, rowKey id ∈ keys → home id = (b, n)) :
    s.Off home (b, n) (s.applyLotChanges c types b n { lot with tree := tree } changes) where
  engine id hid := by
    rw [Sinks.applyLotChanges, get_touchEngine, if_neg]
    intro htouched
    obtain ⟨key, hkey, rfl⟩ := List.mem_map.mp htouched
    obtain ⟨id', rfl, hhome⟩ := touched_owned hok hroot hkey
    exact hid (drop_rowKey id' ▸ hhome)
  mirror sent' hsent' := by
    obtain ⟨sent, hsent, rfl⟩ := Option.map_eq_some_iff.mp hsent'
    exact ⟨sent, hsent, fun q hq => Function.update_of_ne hq _ _⟩

end Changes

section Run
variable {c : BaseSetting} {home : Text → Text × Int} {s : Provider} {b : Text} {n : Int} {st st' : BaseState}
  {lot : LotState} {sinks : Sinks}

structure Provider.Inv (c : BaseSetting) (home : Text → Text × Int) (s : Provider) : Prop where
  base : ∀ id d, s.sinks.engine.get id = some d → d.base = (home id).1
  lots : ∀ b st n lot, s.bases.get b = some st → st.lots.get n = some lot → lot.OK home b n
  shown : ∀ b st n lot, s.bases.get b = some st → st.lots.get n = some lot →
    s.sinks.Show c home s.types b n lot.tree
  marks : ∀ b st marks, s.bases.get b = some st → st.tree = some marks → ∀ id n,
    (s.sinks.engine.get id).isSome → home id = (b, n) → n ∈ marked c marks ∨ st.lots.has n = true

theorem base_docOf {types : Settings} {r : Text × Nat × RowMap} : (docOf c types b r).base = b := rfl

theorem Provider.Inv.rowsEqualLots (h : s.Inv c home) : s.RowsEqualLots c := by
  intro b st marks hst hlive htree hopen
  refine ⟨fun id d => ⟨?_, ?_⟩, fun sent hsent n lot hlot id => (h.shown b st n lot hst hlot).mirror sent hsent id⟩
  · rintro ⟨hget, hbase⟩
    rcases hhome : home id with ⟨b', n⟩
    have hb : b' = b := by rw [← hbase, h.base id d hget, hhome]
    subst hb
    have hhas : st.lots.has n = true :=
      (h.marks _ st marks hst htree id n (by rw [hget]; rfl) hhome).elim (hopen n) fun hn => hn
    obtain ⟨lot, hlot⟩ := KeyedMap.has_iff.mp hhas
    have heq := (h.shown _ st n lot hst hlot).engine id hhome
    rw [hget] at heq
    obtain ⟨r, hr, hd⟩ := Option.map_eq_some_iff.mp heq.symm
    exact ⟨n, lot, r, hlot, hr, hd.symm⟩
  · rintro ⟨n, lot, r, hlot, hr, rfl⟩
    have hhome := (h.lots b st n lot hst hlot).ofLot id (by rw [hr]; rfl)
    refine ⟨?_, base_docOf⟩
    rw [(h.shown b st n lot hst hlot).engine id hhome, hr]
    rfl

theorem Provider.Inv.setBase (h : s.Inv c home)
    (hlots : ∀ n lot, st'.lots.get n = some lot → ∃ st, s.bases.get b = some st ∧ st.lots.get n = some lot)
    (htree : ∀ marks, st'.tree = some marks → ∀ id n, (s.sinks.engine.get id).isSome → home id = (b, n) →
      n ∈ marked c marks ∨ st'.lots.has n = true) : (s.setBase b st').Inv c home where
  base := h.base
  lots b' st'' n lot hst hlot := by
    rw [Provider.setBase, KeyedMap.get_set] at hst
    split at hst
    · rename_i hb
      obtain rfl := Option.some.inj hst
      obtain ⟨st, hst, hold⟩ := hlots n lot hlot
      exact hb ▸ h.lots b st n lot hst hold
    · exact h.lots b' st'' n lot hst hlot
  shown b' st'' n lot hst hlot := by
    rw [Provider.setBase, KeyedMap.get_set] at hst
    split at hst
    · rename_i hb
      obtain rfl := Option.some.inj hst
      obtain ⟨st, hst, hold⟩ := hlots n lot hlot
      exact hb ▸ h.shown b st n lot hst hold
    · exact h.shown b' st'' n lot hst hlot
  marks b' st'' marks hst hmarks id n hid hhome := by
    rw [Provider.setBase, KeyedMap.get_set] at hst
    split at hst
    · rename_i hb
      obtain rfl := Option.some.inj hst
      exact htree marks hmarks id n hid (hb ▸ hhome)
    · exact h.marks b' st'' marks hst hmarks id n hid hhome

theorem Provider.Inv.keep (h : s.Inv c home) (hst : s.bases.get b = some st) (hlots : st'.lots = st.lots)
    (htree : st'.tree = st.tree) : (s.setBase b st').Inv c home :=
  h.setBase (fun _ _ hlot => ⟨st, hst, hlots ▸ hlot⟩) fun marks hmarks id n hid hhome =>
    hlots ▸ h.marks b st marks hst (htree ▸ hmarks) id n hid hhome

theorem lots_openLots (st : BaseState) : (st.openLots c).lots = st.lots ∧ (st.openLots c).tree = st.tree := by
  have hfold : ∀ (ns : List Int) (st : BaseState), (ns.foldl (fun st n =>
      if st.lots.has n || n ∈ st.opening then st else { st with opening := st.opening ++ [n] }) st).lots = st.lots ∧
      (ns.foldl (fun st n =>
        if st.lots.has n || n ∈ st.opening then st else { st with opening := st.opening ++ [n] }) st).tree =
      st.tree := by
    intro ns
    induction ns with
    | nil => exact fun st => ⟨rfl, rfl⟩
    | cons n ns ih =>
      intro st
      rw [List.foldl_cons, (ih _).1, (ih _).2]
      split <;> exact ⟨rfl, rfl⟩
  unfold BaseState.openLots
  split
  · exact ⟨rfl, rfl⟩
  · rename_i marks heq
    obtain ⟨hlots, htree⟩ := hfold (marked c marks) st
    exact ⟨hlots, htree⟩

end Run

section Run
variable {c : BaseSetting} {home : Text → Text × Int} {s : Provider} {b : Text} {n : Int} {st st' : BaseState}
  {lot : LotState} {sinks : Sinks} {types : Settings}

theorem Provider.Inv.setLot (h : s.Inv c home) (hst : s.bases.get b = some st) (hok : lot.OK home b n)
    (hlots : st'.lots = st.lots.set n lot) (htree : st'.tree = st.tree)
    (hoff : s.sinks.Off home (b, n) sinks) (hshow : sinks.Show c home s.types b n lot.tree) :
    ({ s.setBase b st' with sinks := sinks } : Provider).Inv c home where
  base id d hget := by
    by_cases hid : home id = (b, n)
    · rw [hshow.engine id hid] at hget
      obtain ⟨r, -, rfl⟩ := Option.map_eq_some_iff.mp hget
      rw [hid, base_docOf]
    · exact h.base id d (hoff.engine id hid ▸ hget)
  lots b' st'' n' lot' hst' hlot' := by
    rw [Provider.setBase, KeyedMap.get_set] at hst'
    split at hst'
    · rename_i hb
      obtain rfl := Option.some.inj hst'
      rw [hlots, KeyedMap.get_set] at hlot'
      split at hlot'
      · rename_i hn
        obtain rfl := Option.some.inj hlot'
        exact hb ▸ hn ▸ hok
      · exact hb ▸ h.lots b st n' lot' hst hlot'
    · exact h.lots b' st'' n' lot' hst' hlot'
  shown b' st'' n' lot' hst' hlot' := by
    rw [Provider.setBase, KeyedMap.get_set] at hst'
    split at hst'
    · rename_i hb
      subst hb
      obtain rfl := Option.some.inj hst'
      rw [hlots, KeyedMap.get_set] at hlot'
      split at hlot'
      · rename_i hn
        obtain rfl := Option.some.inj hlot'
        exact hn ▸ hshow
      · rename_i hn
        exact (h.shown b' st n' lot' hst hlot').off hoff fun heq => hn (Prod.ext_iff.mp heq).2
    · rename_i hb
      exact (h.shown b' st'' n' lot' hst' hlot').off hoff fun heq => hb (Prod.ext_iff.mp heq).1
  marks b' st'' marks hst' hmarks id n' hid hhome := by
    rw [Provider.setBase, KeyedMap.get_set] at hst'
    split at hst'
    · rename_i hb
      obtain rfl := Option.some.inj hst'
      by_cases hn : n' = n
      · right
        rw [hlots, KeyedMap.has, KeyedMap.get_set, if_pos hn]
        rfl
      · have hne : home id ≠ (b, n) := fun heq => hn (Prod.ext_iff.mp (hhome.symm.trans heq)).2
        rw [hoff.engine id hne] at hid
        refine (h.marks b st marks hst (htree ▸ hmarks) id n' hid (hb ▸ hhome)).imp_right fun hhas => ?_
        rw [hlots, KeyedMap.has, KeyedMap.get_set, if_neg hn]
        exact hhas
    · rename_i hb
      have hne : home id ≠ (b, n) := fun heq => hb (Prod.ext_iff.mp (hhome.symm.trans heq)).1
      exact h.marks b' st'' marks hst' hmarks id n' (hoff.engine id hne ▸ hid) hhome

theorem show_readLots {l : List (Text × Int × LotState)} (hok : ∀ x ∈ l, x.2.2.OK home x.1 x.2.1)
    (hsame : ∀ x ∈ l, ∀ y ∈ l, (x.1, x.2.1) = (y.1, y.2.1) → x = y)
    (hkept : ∀ x ∈ l, ∀ id, home id = (x.1, x.2.1) → (sinks.engine.get id).isSome → (x.2.2.tree.row id).isSome) :
    ∀ x ∈ l, (l.foldl (fun sinks x => sinks.readLot c types x.1 x.2.1 x.2.2) sinks).Show c home types
      x.1 x.2.1 x.2.2.tree := by
  -- A lot that is shown stays so: the next one is the same, or another place.
  have hstay : ∀ (l' : List (Text × Int × LotState)) (sinks : Sinks), (∀ y ∈ l', y ∈ l) → ∀ x ∈ l,
      sinks.Show c home types x.1 x.2.1 x.2.2.tree →
      (l'.foldl (fun sinks x => sinks.readLot c types x.1 x.2.1 x.2.2) sinks).Show c home types
        x.1 x.2.1 x.2.2.tree := by
    intro l'
    induction l' with
    | nil => exact fun _ _ _ _ hshow => hshow
    | cons y l' ih =>
      intro sinks hsub x hx hshow
      have hy := hsub y List.mem_cons_self
      refine ih _ (fun z hz => hsub z (List.mem_cons_of_mem y hz)) x hx ?_
      by_cases hp : (x.1, x.2.1) = (y.1, y.2.1)
      · rw [← hsame x hx y hy hp]
        refine show_readLot fun id hid hsome => .inl ?_
        rw [hshow.engine id hid] at hsome
        simpa using hsome
      · exact hshow.off (hok y hy).off_readLot hp
  -- A lot that is not read yet holds what the engine has kept of it.
  have hall : ∀ (l' : List (Text × Int × LotState)) (sinks : Sinks), (∀ y ∈ l', y ∈ l) →
      (∀ x ∈ l, ∀ id, home id = (x.1, x.2.1) → (sinks.engine.get id).isSome → (x.2.2.tree.row id).isSome) →
      ∀ x ∈ l', (l'.foldl (fun sinks x => sinks.readLot c types x.1 x.2.1 x.2.2) sinks).Show c home types
        x.1 x.2.1 x.2.2.tree := by
    intro l'
    induction l' with
    | nil => intro _ _ _ x hx; cases hx
    | cons y l' ih =>
      intro sinks hsub hkept x hx
      have hy := hsub y List.mem_cons_self
      have hshow : (sinks.readLot c types y.1 y.2.1 y.2.2).Show c home types y.1 y.2.1 y.2.2.tree :=
        show_readLot fun id hid hsome => .inl (hkept y hy id hid hsome)
      have hoff : sinks.Off home (y.1, y.2.1) (sinks.readLot c types y.1 y.2.1 y.2.2) := (hok y hy).off_readLot
      have hsub' := fun z hz => hsub z (List.mem_cons_of_mem y hz)
      obtain rfl | hx := List.mem_cons.mp hx
      · exact hstay l' _ hsub' x hy hshow
      · refine ih _ hsub' (fun z hz id hid hsome => ?_) x hx
        by_cases hp : (z.1, z.2.1) = (y.1, y.2.1)
        · rw [hsame z hz y hy hp]
          rw [hshow.engine id (hid.trans hp)] at hsome
          simpa using hsome
        · rw [hoff.engine id (hid ▸ hp)] at hsome
          exact hkept z hz id hid hsome
  exact hall l sinks (fun _ hy => hy) hkept

theorem mem_openLots {x : Text × Int × LotState} : x ∈ s.openLots ↔
    ∃ st, s.bases.get x.1 = some st ∧ st.lots.get x.2.1 = some x.2.2 := by
  obtain ⟨b, n, lot⟩ := x
  rw [Provider.openLots, List.mem_flatMap]
  constructor
  · rintro ⟨⟨b', st⟩, hst, hmem⟩
    obtain ⟨⟨n', lot'⟩, hlot, heq⟩ := List.mem_map.mp hmem
    cases heq
    exact ⟨st, KeyedMap.mem_iff.mp hst, KeyedMap.mem_iff.mp hlot⟩
  · rintro ⟨st, hst, hlot⟩
    exact ⟨(b, st), KeyedMap.mem_iff.mpr hst, List.mem_map.mpr ⟨(n, lot), KeyedMap.mem_iff.mpr hlot, rfl⟩⟩

end Run

section Run
variable {c : BaseSetting} {home : Text → Text × Int} {s s' : Provider} {b : Text} {n : Int} {st st' : BaseState}
  {lot : LotState} {sinks : Sinks} {types : Settings}

theorem off_readLots {l : List (Text × Int × LotState)} (hok : ∀ x ∈ l, x.2.2.OK home x.1 x.2.1) {id : Text}
    (hid : ∀ x ∈ l, home id ≠ (x.1, x.2.1)) :
    (l.foldl (fun sinks x => sinks.readLot c types x.1 x.2.1 x.2.2) sinks).engine.get id = sinks.engine.get id := by
  induction l generalizing sinks with
  | nil => rfl
  | cons y l ih =>
    have hoff : sinks.Off home (y.1, y.2.1) (sinks.readLot c types y.1 y.2.1 y.2.2) :=
      (hok y List.mem_cons_self).off_readLot
    rw [List.foldl_cons, ih (fun x hx => hok x (List.mem_cons_of_mem y hx))
      fun x hx => hid x (List.mem_cons_of_mem y hx), hoff.engine id (hid y List.mem_cons_self)]

def BaseState.reread (st : BaseState) : BaseState := { st with lots := st.lots.map fun _ lot => lot.read }

theorem get_reread : st.reread.lots.get n = (st.lots.get n).map LotState.read := KeyedMap.get_map _

theorem has_reread : st.reread.lots.has n = st.lots.has n := by
  rw [KeyedMap.has, get_reread, Option.isSome_map, KeyedMap.has]

theorem Provider.Inv.reread (h : s.Inv c home)
    (hshow : ∀ x ∈ s.openLots, sinks.Show c home types x.1 x.2.1 x.2.2.tree)
    (hoff : ∀ id, (∀ x ∈ s.openLots, home id ≠ (x.1, x.2.1)) → sinks.engine.get id = s.sinks.engine.get id) :
    (⟨types, sinks, s.bases.map fun _ st => st.reread, s.now⟩ : Provider).Inv c home := by
  constructor
  case base =>
    intro id d hget
    by_cases hin : ∃ x ∈ s.openLots, home id = (x.1, x.2.1)
    · obtain ⟨x, hx, hid⟩ := hin
      have hrow := (hshow x hx).engine id hid
      rw [hget] at hrow
      obtain ⟨r, -, rfl⟩ := Option.map_eq_some_iff.mp hrow.symm
      rw [hid, base_docOf]
    · exact h.base id d (hoff id (fun x hx hid => hin ⟨x, hx, hid⟩) ▸ hget)
  case lots =>
    intro b st n lot hst hlot
    rw [KeyedMap.get_map] at hst
    obtain ⟨old, hold, rfl⟩ := Option.map_eq_some_iff.mp hst
    rw [get_reread] at hlot
    obtain ⟨lot', hlot', rfl⟩ := Option.map_eq_some_iff.mp hlot
    have hok := h.lots b old n lot' hold hlot'
    exact LotState.OK.read hok.owned hok.ofLot
  case shown =>
    intro b st n lot hst hlot
    rw [KeyedMap.get_map] at hst
    obtain ⟨old, hold, rfl⟩ := Option.map_eq_some_iff.mp hst
    rw [get_reread] at hlot
    obtain ⟨lot', hlot', rfl⟩ := Option.map_eq_some_iff.mp hlot
    exact hshow (b, n, lot') (mem_openLots.mpr ⟨old, hold, hlot'⟩)
  case marks =>
    intro b st marks hst hmarks id n hid hhome
    rw [KeyedMap.get_map] at hst
    obtain ⟨old, hold, rfl⟩ := Option.map_eq_some_iff.mp hst
    rw [has_reread]
    by_cases hhas : old.lots.has n = true
    · exact .inr hhas
    · have hclosed : ∀ x ∈ s.openLots, home id ≠ (x.1, x.2.1) := by
        rintro ⟨b', n', lot⟩ hx hid'
        obtain ⟨st', hst', hlot⟩ := mem_openLots.mp hx
        cases hhome.symm.trans hid'
        obtain rfl := Option.some.inj (hold.symm.trans hst')
        exact hhas (KeyedMap.has_iff.mpr ⟨lot, hlot⟩)
      exact h.marks b old marks hold hmarks id n (hoff id hclosed ▸ hid) hhome

theorem Provider.Inv.readLots (h : s.Inv c home) (hengine : sinks.engine = s.sinks.engine) :
    (({ s with types := types, sinks := sinks } : Provider).readLots c).Inv c home := by
  have hok : ∀ x ∈ s.openLots, x.2.2.OK home x.1 x.2.1 := by
    intro x hx
    obtain ⟨st, hst, hlot⟩ := mem_openLots.mp hx
    exact h.lots x.1 st x.2.1 x.2.2 hst hlot
  have hsame : ∀ x ∈ s.openLots, ∀ y ∈ s.openLots, (x.1, x.2.1) = (y.1, y.2.1) → x = y := by
    rintro ⟨b, n, lot⟩ hx ⟨b', n', lot'⟩ hy heq
    cases heq
    obtain ⟨st, hst, hlot⟩ := mem_openLots.mp hx
    obtain ⟨st', hst', hlot'⟩ := mem_openLots.mp hy
    obtain rfl := Option.some.inj (hst.symm.trans hst')
    obtain rfl := Option.some.inj (hlot.symm.trans hlot')
    rfl
  have hkept : ∀ x ∈ s.openLots, ∀ id, home id = (x.1, x.2.1) → (sinks.engine.get id).isSome →
      (x.2.2.tree.row id).isSome := by
    intro x hx id hid hsome
    obtain ⟨st, hst, hlot⟩ := mem_openLots.mp hx
    rw [hengine, (h.shown x.1 st x.2.1 x.2.2 hst hlot).engine id hid] at hsome
    simpa using hsome
  exact h.reread (show_readLots hok hsame hkept) fun id hid => (off_readLots hok hid).trans (hengine ▸ rfl)

theorem Provider.Inv.ensureBase (h : s.Inv c home) (b : Text) : (s.ensureBase b).Inv c home := by
  have hnew : ∀ st : BaseState, st.lots = ((s.bases.get b).getD ⟨none, 0, .empty, [], s.now, 0, false⟩).lots →
      st.tree = ((s.bases.get b).getD ⟨none, 0, .empty, [], s.now, 0, false⟩).tree →
      (s.setBase b st).Inv c home := by
    intro st hlots htree
    cases hb : s.bases.get b with
    | some old =>
      rw [hb] at hlots htree
      exact h.keep hb hlots htree
    | none =>
      rw [hb] at hlots htree
      refine h.setBase (fun n lot hlot => ?_) fun marks hmarks => ?_
      · rw [hlots] at hlot
        cases hlot
      · rw [htree] at hmarks
        cases hmarks
  unfold Provider.ensureBase
  dsimp only
  split
  · exact hnew _ rfl rfl
  · exact hnew _ rfl rfl

theorem lots_release {f : BaseState → Bool}
    (hst : (s.bases.map fun _ st => if f st then st.close else st).get b = some st)
    (hlot : st.lots.get n = some lot) : ∃ old, s.bases.get b = some old ∧ old.lots.get n = some lot := by
  rw [KeyedMap.get_map] at hst
  obtain ⟨old, hold, heq⟩ := Option.map_eq_some_iff.mp hst
  split at heq
  · subst heq
    cases hlot
  · subst heq
    exact ⟨old, hold, hlot⟩

theorem Provider.inv_empty (types : Settings) (mirror : Option (Text × Int → Text → Option LocalIndexedDoc))
    (now : Nat) : (⟨types, ⟨.empty, mirror⟩, .empty, now⟩ : Provider).Inv c home := by
  constructor
  case base =>
    intro id d hget
    cases hget
  case lots =>
    intro b st n lot hst
    cases hst
  case shown =>
    intro b st n lot hst
    cases hst
  case marks =>
    intro b st marks hst
    cases hst

/-- An event of a base that passes its guard. -/
theorem Provider.guarded {b : Text} {p : BaseState → Prop} [DecidablePred p] {f : BaseState → Option Provider}
    (hs : (match s.bases.get b with
      | none => none
      | some st => if p st then none else f st) = some s') : ∃ st, s.bases.get b = some st ∧ f st = some s' := by
  cases hst : s.bases.get b with
  | none => simp [hst] at hs
  | some st =>
    simp only [hst] at hs
    split at hs
    · cases hs
    · exact ⟨st, rfl, hs⟩

/-- What one step keeps. -/
theorem Provider.Inv.step (h : s.Inv c home) {e : BaseEvent} (hcontract : s.Contract e) (hkept : s.Kept c home e)
    (hs : s.step c e = some s') : s'.Inv c home := by
  cases e with
  | ensure b =>
    obtain rfl := Option.some.inj hs
    exact h.ensureBase b
  | watch b =>
    obtain ⟨st, hst, rfl⟩ := Option.map_eq_some_iff.mp hs
    exact (h.ensureBase b).keep hst rfl rfl
  | unwatch b =>
    obtain ⟨st, hst, hs⟩ := Provider.guarded hs
    obtain rfl := Option.some.inj hs
    exact h.keep hst rfl rfl
  | treeOpened b marks =>
    obtain ⟨st, hst, hs⟩ := Provider.guarded hs
    obtain rfl := Option.some.inj hs
    split
    · obtain ⟨hlots, htree⟩ := lots_openLots (c := c)
        { st with treeOpening := st.treeOpening - 1, tree := some marks }
      refine h.setBase (fun n lot hlot => ⟨st, hst, hlots ▸ hlot⟩) fun marks' hmarks id n hid hhome => ?_
      obtain rfl : marks = marks' := Option.some.inj (htree.symm.trans hmarks)
      rw [hlots]
      exact hkept st hst id n hid hhome
    · exact h.keep hst rfl rfl
  | treeFailed b =>
    obtain ⟨st, hst, hs⟩ := Provider.guarded hs
    obtain rfl := Option.some.inj hs
    exact h.keep hst rfl rfl
  | manifest b marks =>
    obtain ⟨st, hst, hs⟩ := Provider.guarded hs
    obtain rfl := Option.some.inj hs
    obtain ⟨hlots, htree⟩ := lots_openLots (c := c) { st with tree := some marks }
    refine h.setBase (fun n lot hlot => ⟨st, hst, hlots ▸ hlot⟩) fun marks' hmarks id n hid hhome => ?_
    obtain rfl : marks = marks' := Option.some.inj (htree.symm.trans hmarks)
    rw [hlots]
    exact hkept st hst id n hid hhome
  | lotOpened b n tree =>
    obtain ⟨st, hst, hs⟩ := Provider.guarded hs
    dsimp only at hs
    split at hs
    · obtain rfl := Option.some.inj hs
      obtain ⟨hof, hleft⟩ := hkept
      let lot : LotState := ⟨tree, [], fun _ => none⟩
      have hshow : (s.sinks.readLot c s.types b n lot).Show c home s.types b n lot.tree :=
        show_readLot fun id hid hsome => .inl (hleft id hsome hid)
      have hoff : s.sinks.Off home (b, n) (s.sinks.readLot c s.types b n lot) :=
        off_readLot hof (by simp [lot])
      have hok : lot.read.OK home b n := LotState.OK.read (by simp [lot]) hof
      exact h.setLot hst hok rfl rfl hoff hshow
    · obtain rfl := Option.some.inj hs
      exact h.keep hst rfl rfl
  | lotFailed b n =>
    obtain ⟨st, hst, hs⟩ := Provider.guarded hs
    obtain rfl := Option.some.inj hs
    exact h.keep hst rfl rfl
  | lotChanged b n tree changes =>
    dsimp only [Provider.step] at hs
    cases hst : s.bases.get b with
    | none => simp [hst] at hs
    | some st =>
      simp only [hst] at hs
      cases hlot : st.lots.get n with
      | none => simp [hlot] at hs
      | some lot =>
        simp only [hlot] at hs
        obtain rfl := Option.some.inj hs
        obtain ⟨hof, hroot⟩ := hkept
        have hok := h.lots b st n lot hst hlot
        have hdescribes := hcontract st lot hst hlot
        refine h.setLot hst (hok.change hdescribes hof hroot) rfl rfl (off_applyLotChanges hok hroot) ?_
        rw [tree_touches]
        exact show_applyLotChanges hok hdescribes (h.shown b st n lot hst hlot)
  | retype types =>
    obtain rfl := Option.some.inj hs
    exact h.readLots rfl
  | setMirror on =>
    dsimp only [Provider.step] at hs
    split at hs
    · obtain rfl := Option.some.inj hs
      exact h.readLots rfl
    · obtain rfl := Option.some.inj hs
      exact ⟨h.base, h.lots, fun b st n lot hst hlot => ⟨(h.shown b st n lot hst hlot).engine, by simp⟩, h.marks⟩
  | release =>
    obtain rfl := Option.some.inj hs
    constructor
    case base => exact h.base
    case lots =>
      intro b st n lot hst hlot
      obtain ⟨old, hold, hlot'⟩ := lots_release hst hlot
      exact h.lots b old n lot hold hlot'
    case shown =>
      intro b st n lot hst hlot
      obtain ⟨old, hold, hlot'⟩ := lots_release hst hlot
      exact h.shown b old n lot hold hlot'
    case marks =>
      intro b st marks hst hmarks id n hid hhome
      rw [KeyedMap.get_map] at hst
      obtain ⟨old, hold, heq⟩ := Option.map_eq_some_iff.mp hst
      split at heq
      · subst heq
        cases hmarks
      · subst heq
        exact h.marks b old marks hold hmarks id n hid hhome
  | tick ms =>
    obtain rfl := Option.some.inj hs
    exact ⟨h.base, h.lots, h.shown, h.marks⟩
  | attach types =>
    obtain rfl := Option.some.inj hs
    exact Provider.inv_empty types s.sinks.mirror s.now

def Provider.start (types : Settings) : Provider := ⟨types, ⟨.empty, none⟩, .empty, 0⟩

/-- While what the engine has kept of lots and bases that were closed is still there when they open again, the
rows of a base are those of its lots. -/
theorem Provider.rows_equal_lots (c : BaseSetting) (home : Text → Text × Int) (types : Settings) {s : Provider}
    (hrun : Run (Provider.step c) (fun s e => s.Contract e ∧ s.Kept c home e) (Provider.start types) s) :
    s.RowsEqualLots c :=
  (hrun.invariant (Provider.Inv c home) (Provider.inv_empty types none 0)
    fun _ _ _ h hok hs => h.step hok.1 hok.2 hs).rowsEqualLots

/-! One base with one lot, which holds one row or none. -/

def oneLot : BaseSetting where
  host := plainHost
  number _ := .nan
  integer key := if key = ['0'] then some 0 else none
  baseIdleMs := 60000

def rowTree : LotTree where
  root := KeyedMap.empty.set (rowKey ['r']) (.row 1 .empty)
  handle_inj := by
    intro k k' h f f' hk hk'
    rw [KeyedMap.get_set] at hk hk'
    split at hk
    · split at hk'
      · rename_i heq heq'
        rw [heq, heq']
      · cases hk'
    · cases hk

def emptyTree : LotTree := ⟨.empty, fun hk => by cases hk⟩

def newProvider : Provider := Provider.start .empty

def opening : List BaseEvent := [.ensure ['b'], .treeOpened ['b'] [['0']], .lotOpened ['b'] 0 rowTree]

theorem rows_equal_lots_opened : ∃ s, exec (Provider.step oneLot) (fun _ e => e.Plain) newProvider opening = some s ∧
    (s.sinks.engine.get ['r']).isSome ∧ s.RowsEqualLots oneLot := by
  refine ⟨_, rfl, rfl, Provider.rows_equal_lots oneLot (fun _ => (['b'], 0)) .empty ?_⟩
  refine .tail (BaseEvent.lotOpened ['b'] 0 rowTree) (.tail (BaseEvent.treeOpened ['b'] [['0']])
    (.tail (BaseEvent.ensure ['b']) .refl ?_ rfl) ?_ rfl) ?_ rfl
  · exact ⟨trivial, trivial⟩
  · exact ⟨trivial, fun _ _ _ _ hid => by cases hid⟩
  · exact ⟨trivial, fun _ _ => rfl, fun _ hid => by cases hid⟩

/-- A row is deleted elsewhere while the base is closed here. -/
def reopening : List BaseEvent :=
  [.tick 60001, .release, .ensure ['b'], .treeOpened ['b'] [['0']], .lotOpened ['b'] 0 emptyTree]

/-- The row is still in the engine. -/
theorem deleted_row_remains : ¬ ∀ (c : BaseSetting) (types : Settings) (s : Provider),
    Run (Provider.step c) Provider.Contract (Provider.start types) s → s.RowsEqualLots c := by
  intro hall
  have hexec : (exec (Provider.step oneLot) (fun _ e => e.Plain) newProvider (opening ++ reopening)).map (fun s =>
      ((s.sinks.engine.get ['r']).map fun d => d.base, (s.bases.get ['b']).map fun st =>
        (st.live, st.tree, st.lots.entries.map fun l => (l.1, l.2.tree.root.entries.length)))) =
      some (some ['b'], some (true, some [['0']], [(0, 0)])) := by rfl
  obtain ⟨s, hs, heq⟩ := Option.map_eq_some_iff.mp hexec
  obtain ⟨hrow, hbase⟩ := Prod.ext_iff.mp heq
  obtain ⟨d, hget, hd⟩ := Option.map_eq_some_iff.mp hrow
  obtain ⟨st, hst, heq⟩ := Option.map_eq_some_iff.mp hbase
  obtain ⟨hlive, htree, hlots⟩ : st.live = true ∧ st.tree = some [['0']] ∧
      st.lots.entries.map (fun l => (l.1, l.2.tree.root.entries.length)) = [(0, 0)] := by simpa using heq
  have hopen : ∀ n ∈ marked oneLot [['0']], st.lots.has n = true := by
    intro n hn
    obtain rfl : n = 0 := by simpa [marked, oneLot] using hn
    obtain ⟨⟨n, lot⟩, hl, hn⟩ : ∃ l ∈ st.lots.entries, (l.1, l.2.tree.root.entries.length) = (0, 0) :=
      List.mem_map.mp (hlots ▸ List.mem_singleton_self _)
    obtain ⟨rfl, -⟩ := Prod.ext_iff.mp hn
    exact KeyedMap.has_iff.mpr ⟨lot, KeyedMap.mem_iff.mp hl⟩
  have hrun := (run_of_exec _ _ _ hs).weaken fun s e (he : e.Plain) => contract_of_plain s he
  obtain ⟨hrows, -⟩ := hall oneLot .empty s hrun ['b'] st [['0']] hst hlive htree hopen
  obtain ⟨n, lot, r, hlot, hr, -⟩ := (hrows ['r'] d).mp ⟨hget, hd⟩
  have hmem : (n, lot.tree.root.entries.length) ∈ [((0 : Int), 0)] :=
    hlots ▸ List.mem_map_of_mem (KeyedMap.mem_iff.mpr hlot)
  obtain ⟨-, hlength⟩ := Prod.ext_iff.mp (List.mem_singleton.mp hmem)
  have hempty : lot.tree.root.get (rowKey ['r']) = none := by
    rw [KeyedMap.get, List.length_eq_zero_iff.mp hlength]
    rfl
  rw [LotTree.row, hempty] at hr
  cases hr

end Run
end Savoire.Query
