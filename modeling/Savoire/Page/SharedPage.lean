import Savoire.Library.SharedMaps
import Savoire.Library.SharedSequence
import Savoire.Library.Transition

/-! A page that several members edit: the element under 'doc' of the shared tree, its children, and the
mirror between each member's private document and the tree. A child of the page is of any kind. -/
namespace Savoire.PageMirror
open SharedMaps SharedSequence Transition

def docKey : Text := "doc".toList

/-- A child of an element under 'doc': its place among the others, and the insertion that it shows (a number,
which a copy of the page keeps). -/
structure Block (α : Type*) where
  parent : Nat
  place : Place
  label : Nat
  content : α

structure Mirror (α : Type*) where
  /-- The children of the private document, with the insertions that they show. -/
  fragment : List (Nat × α)
  /-- The element that the fragment is bound to. -/
  bound : Option Nat
  deriving DecidableEq

/-- What is written in the shared tree, what each member has of it, and the mirrors of those who have opened
the page. `inserted` and `removed` record what was done. -/
structure Page (κ α : Type*) where
  tree : Doc κ Unit
  blocks : List (Block α)
  deleted : List Nat
  known : κ → Nat → Bool
  gone : κ → Nat → Bool
  mirrors : κ → Option (Mirror α)
  inserted : List α
  removed : List Nat

/-- A batch of the shared tree about the children of an element. -/
inductive ChildEdit (α : Type*)
  | retain (n : Nat)
  | delete (n : Nat)
  | insert (children : List (Nat × α))

def applyEdits {α : Type*} : List (Nat × α) → List (ChildEdit α) → List (Nat × α)
  | l, [] => l
  | l, .retain n :: edits => l.take n ++ applyEdits (l.drop n) edits
  | l, .delete n :: edits => applyEdits (l.drop n) edits
  | l, .insert children :: edits => children ++ applyEdits l edits

inductive Event (κ α : Type*)
  | attach (i : κ)
  | insert (i : κ) (index : Nat) (content : α)
  | remove (i : κ) (index : Nat)
  /-- Writes of 'doc', children and deletions come in, with the batch that tells of the children. -/
  | receive (i : κ) (docs blocks gone : List Nat) (batch : List (ChildEdit α))

variable {κ α : Type*}

namespace Page
variable (w : LastWriter κ Unit) (q : Sequence) (i : κ) (s : Page κ α)

def treeDoc : Option Nat :=
  match s.tree.get w i none docKey with
  | some (.map d) => some d
  | _ => none

def places (n : Nat) : Place := (s.blocks[n]?).elim ⟨none, none⟩ Block.place

/-- The children of an element that the member has, in the order of their making. -/
def items (d : Nat) : List Nat :=
  (List.range s.blocks.length).filter fun n => s.known i n && (s.blocks[n]?).any fun b => b.parent == d

def order (d : Nat) : List Nat := q.arrange s.places (s.items i d)

def children (d : Nat) : List Nat := (s.order q i d).filter fun n => !(s.gone i n)

def shown (d : Nat) : List (Nat × α) :=
  (s.children q i d).filterMap fun n => (s.blocks[n]?).map fun b => (b.label, b.content)

variable [DecidableEq κ]

/-- `t.insert(index, [init])` -/
def insertBlock (d index : Nat) (x : Nat × α) : Page κ α :=
  let order := s.order q i d
  { s with
    blocks := s.blocks ++ [⟨d, placeAt order (slot (fun n => !(s.gone i n)) order index), x.1, x.2⟩]
    known := fun j n => s.known j n || (decide (j = i) && n == s.blocks.length) }

/-- `t.delete(index, 1)` -/
def deleteBlock (d index : Nat) : Page κ α :=
  match (s.children q i d)[index]? with
  | none => s
  | some n =>
    { s with deleted := n :: s.deleted, gone := fun j m => s.gone j m || (decide (j = i) && m == n) }

/-- `root.set('doc', init)`: a new element, which is then filled. -/
def setDoc (children : List (Nat × α)) : Page κ α :=
  let d := s.tree.log.length
  children.zipIdx.foldl (fun s x => s.insertBlock q i d x.2 x.1) { s with tree := s.tree.set w i none docKey .map }

def setMirror (m : Mirror α) : Page κ α := { s with mirrors := Function.update s.mirrors i (some m) }

def writeWholeDoc (fragment : List (Nat × α)) : Page κ α :=
  (s.setDoc w q i fragment).setMirror i ⟨fragment, some s.tree.log.length⟩

/-- `attach`, and what a changed 'doc' does: the private document is that of the tree. -/
def loadFromTree : Page κ α :=
  match s.treeDoc w i with
  | some d => s.setMirror i ⟨s.shown q i d, some d⟩
  | none => s.setMirror i ⟨[], none⟩

/-- `pushToTree` for a change of the fragment's children: `edit` is the same change of the element. -/
def pushToTree (m : Mirror α) (fragment : List (Nat × α)) (edit : Nat → Page κ α) : Page κ α :=
  match s.treeDoc w i, m.bound with
  | some d, some t =>
    -- The element that the fragment is bound to was deleted when another one took its place.
    if d ≠ t then s.writeWholeDoc w q i fragment else (edit t).setMirror i ⟨fragment, some t⟩
  | _, _ => s.writeWholeDoc w q i fragment

/-- `pullFromTree`: a write of 'doc' among the changes makes the mirror start again. -/
def pullFromTree (docChanged : Bool) (batch : List (ChildEdit α)) : Page κ α :=
  match s.mirrors i with
  | none => s
  | some m =>
    if docChanged then s.loadFromTree w q i
    else match m.bound with
      | none => s
      | some t => s.setMirror i ⟨applyEdits m.fragment batch, some t⟩

/-- What comes in. -/
def learn (docs blocks gone : List Nat) : Page κ α :=
  { s with
    tree := s.tree.receive i docs
    known := fun j n => s.known j n || (decide (j = i) && decide (n ∈ blocks))
    gone := fun j n => s.gone j n || (decide (j = i) && decide (n ∈ gone)) }

end Page

/-- A step: what comes in was written, and the batch leads from the children before to those after. -/
def step [DecidableEq κ] [DecidableEq α] (w : LastWriter κ Unit) (q : Sequence) (s : Page κ α) :
    Event κ α → Option (Page κ α)
  | .attach i => match s.mirrors i with
    | none => some (s.loadFromTree w q i)
    | some _ => none
  | .insert i index content => match s.mirrors i with
    | none => none
    | some m =>
      if index ≤ m.fragment.length then
        let x := (s.inserted.length, content)
        some ({ s with inserted := s.inserted ++ [content] }.pushToTree w q i m (m.fragment.insertIdx index x)
          fun t => { s with inserted := s.inserted ++ [content] }.insertBlock q i t index x)
      else none
  | .remove i index => match s.mirrors i with
    | none => none
    | some m => match m.fragment[index]? with
      | none => none
      | some x =>
        some ({ s with removed := x.1 :: s.removed }.pushToTree w q i m (m.fragment.eraseIdx index)
          fun t => { s with removed := x.1 :: s.removed }.deleteBlock q i t index)
  | .receive i docs blocks gone batch =>
    let s' := s.learn i docs blocks gone
    let new := docs.any fun n => !(s.tree.known i n)
    if (docs.all fun n => decide (n < s.tree.log.length)) && (blocks.all fun n => decide (n < s.blocks.length)) &&
        (gone.all fun n => decide (n ∈ s.deleted)) && (s.treeDoc w i).all fun d =>
          applyEdits (s.shown q i d) batch == s'.shown q i d then
      some (s'.pullFromTree w q i new batch)
    else none

section Shown
variable {w : LastWriter κ Unit} {q : Sequence} {i j : κ} {s : Page κ α} {d index n : Nat} {x : Nat × α}

/-- What is known of and deleted has been made. -/
structure Bounded (s : Page κ α) : Prop where
  known : ∀ {i : κ} {n : Nat}, s.known i n = true → n < s.blocks.length
  gone : ∀ {i : κ} {n : Nat}, s.gone i n = true → n < s.blocks.length

theorem mem_items : n ∈ s.items i d ↔ ∃ b, s.blocks[n]? = some b ∧ s.known i n = true ∧ b.parent = d := by
  rw [Page.items, List.mem_filter, List.mem_range]
  constructor
  · rintro ⟨hn, h⟩
    rw [List.getElem?_eq_getElem hn] at h ⊢
    simpa using h
  · rintro ⟨b, hb, hknown, hparent⟩
    exact ⟨(List.getElem?_eq_some_iff.mp hb).1, by simp [hb, hknown, hparent]⟩

theorem items_lt (h : n ∈ s.items i d) : n < s.blocks.length := by
  obtain ⟨b, hb, -⟩ := mem_items.mp h
  exact (List.getElem?_eq_some_iff.mp hb).1

theorem items_pairwise : (s.items i d).Pairwise (· < ·) := List.pairwise_lt_range.filter _

theorem mem_order : n ∈ s.order q i d ↔ n ∈ s.items i d := (q.perm _ _).mem_iff

theorem order_nodup : (s.order q i d).Nodup :=
  (q.perm _ _).nodup_iff.mpr (items_pairwise.imp fun h => Nat.ne_of_lt h)

theorem mem_children : n ∈ s.children q i d ↔ n ∈ s.items i d ∧ s.gone i n = false := by
  rw [Page.children, List.mem_filter, mem_order]
  simp

theorem children_block (h : n ∈ s.children q i d) : ∃ b, s.blocks[n]? = some b := by
  obtain ⟨b, hb, -⟩ := mem_items.mp (mem_children.mp h).1
  exact ⟨b, hb⟩

theorem mem_shown : x ∈ s.shown q i d ↔
    ∃ n b, n ∈ s.children q i d ∧ s.blocks[n]? = some b ∧ x = (b.label, b.content) := by
  rw [Page.shown, List.mem_filterMap]
  constructor
  · rintro ⟨n, hn, hx⟩
    obtain ⟨b, hb, rfl⟩ := Option.map_eq_some_iff.mp hx
    exact ⟨n, b, hn, hb, rfl⟩
  · rintro ⟨n, b, hn, hb, rfl⟩
    exact ⟨n, hn, by rw [hb, Option.map_some]⟩

theorem shown_getElem? (k : Nat) :
    (s.shown q i d)[k]? = ((s.children q i d)[k]?).bind fun n => (s.blocks[n]?).map fun b => (b.label, b.content) := by
  have hall : ∀ n ∈ s.children q i d, ∃ b, s.blocks[n]? = some b := fun n => children_block
  unfold Page.shown
  generalize s.children q i d = l at hall
  induction l generalizing k with
  | nil => rfl
  | cons n l ih =>
    obtain ⟨b, hb⟩ := hall n List.mem_cons_self
    rw [List.filterMap_cons_some (b := (b.label, b.content)) (by rw [hb, Option.map_some])]
    cases k with
    | zero => simp [hb]
    | succ k => simpa using ih k fun n hn => hall n (List.mem_cons_of_mem _ hn)

theorem shown_length : (s.shown q i d).length = (s.children q i d).length := by
  have hall : ∀ n ∈ s.children q i d, ∃ b, s.blocks[n]? = some b := fun n => children_block
  unfold Page.shown
  generalize s.children q i d = l at hall
  induction l with
  | nil => rfl
  | cons n l ih =>
    obtain ⟨b, hb⟩ := hall n List.mem_cons_self
    rw [List.filterMap_cons_some (b := (b.label, b.content)) (by rw [hb, Option.map_some]), List.length_cons,
      List.length_cons, ih fun n hn => hall n (List.mem_cons_of_mem _ hn)]

theorem shown_congr {s' : Page κ α} (hitems : s'.items i d = s.items i d)
    (hgone : ∀ n ∈ s.items i d, s'.gone i n = s.gone i n)
    (hblocks : ∀ n ∈ s.items i d, s'.blocks[n]? = s.blocks[n]?) : s'.shown q i d = s.shown q i d := by
  have hplaces : ∀ n ∈ s.items i d, s'.places n = s.places n := fun n hn => by
    rw [Page.places, Page.places, hblocks n hn]
  have horder : s'.order q i d = s.order q i d := by
    rw [Page.order, Page.order, hitems, q.congr _ _ _ hplaces]
  have hchildren : s'.children q i d = s.children q i d := by
    rw [Page.children, Page.children, horder]
    exact List.filter_congr fun n hn => by rw [hgone n (mem_order.mp hn)]
  rw [Page.shown, Page.shown, hchildren]
  exact List.filterMap_congr fun n hn => by rw [hblocks n (mem_children.mp hn).1]

variable [DecidableEq κ]

theorem blocks_insertBlock_old (h : n < s.blocks.length) :
    (s.insertBlock q i d index x).blocks[n]? = s.blocks[n]? := List.getElem?_append_left h

theorem items_insertBlock (h : Bounded s) (j : κ) :
    (s.insertBlock q i d index x).items j d = if j = i then s.items j d ++ [s.blocks.length] else s.items j d := by
  have hnew : s.known j s.blocks.length = false :=
    Bool.eq_false_iff.mpr fun hknown => Nat.lt_irrefl _ (h.known hknown)
  have hold : ∀ n ∈ List.range s.blocks.length,
      ((s.insertBlock q i d index x).known j n &&
        ((s.insertBlock q i d index x).blocks[n]?).any fun b => b.parent == d) =
      (s.known j n && (s.blocks[n]?).any fun b => b.parent == d) := by
    intro n hn
    have hlt := List.mem_range.mp hn
    rw [blocks_insertBlock_old hlt]
    have hne : (n == s.blocks.length) = false := beq_false_of_ne (Nat.ne_of_lt hlt)
    simp only [Page.insertBlock, hne, Bool.and_false, Bool.or_false]
  have hlength : (s.insertBlock q i d index x).blocks.length = s.blocks.length + 1 := by simp [Page.insertBlock]
  rw [Page.items, Page.items, hlength, List.range_succ, List.filter_append, List.filter_congr hold]
  split
  · rename_i hj
    simp [Page.insertBlock, hj]
  · rename_i hj
    simp [Page.insertBlock, hj, hnew]

theorem shown_insertBlock_of_ne (h : Bounded s) (hj : j ≠ i) :
    (s.insertBlock q i d index x).shown q j d = s.shown q j d := by
  refine shown_congr (by rw [items_insertBlock h, if_neg hj]) (fun _ _ => rfl) fun n hn => ?_
  exact blocks_insertBlock_old (items_lt hn)

theorem children_insertBlock (h : Bounded s) (hindex : index ≤ (s.children q i d).length) :
    (s.insertBlock q i d index x).children q i d = (s.children q i d).insertIdx index s.blocks.length := by
  let s' := s.insertBlock q i d index x
  let at' := slot (fun n => !(s.gone i n)) (s.order q i d) index
  have hplaces : ∀ n ∈ s.items i d, s'.places n = s.places n := fun n hn => by
    rw [Page.places, Page.places, blocks_insertBlock_old (items_lt hn)]
  have hbefore : q.arrange s'.places (s.items i d) = s.order q i d := q.congr _ _ _ hplaces
  have hplace : s'.places s.blocks.length = placeAt (s.order q i d) at' := by
    simp [s', Page.places, Page.insertBlock, at']
  have hslot : at' ≤ (s.items i d).length := by
    have hle := slot_le (fun n => !(s.gone i n)) (s.order q i d) index
    rwa [Page.order, (q.perm _ _).length_eq] at hle
  have horder : s'.order q i d = (s.order q i d).insertIdx at' s.blocks.length := by
    rw [Page.order, items_insertBlock h, if_pos rfl]
    rw [q.newest s'.places _ _ at' items_pairwise (fun m hm => items_lt hm) hslot (by rw [hbefore, hplace]), hbefore]
  have hnew : s.gone i s.blocks.length = false :=
    Bool.eq_false_iff.mpr fun hgone => Nat.lt_irrefl _ (h.gone hgone)
  calc s'.children q i d = ((s.order q i d).insertIdx at' s.blocks.length).filter fun n => !(s.gone i n) := by
        rw [Page.children, horder]
        rfl
    _ = (s.children q i d).insertIdx index s.blocks.length :=
        filter_insertIdx_slot _ _ (by simp [hnew]) _ _ hindex

theorem shown_insertBlock (h : Bounded s) (hindex : index ≤ (s.shown q i d).length) :
    (s.insertBlock q i d index x).shown q i d = (s.shown q i d).insertIdx index x := by
  rw [shown_length] at hindex
  have hnew : (s.insertBlock q i d index x).blocks[s.blocks.length]? =
      some ⟨d, placeAt (s.order q i d) (slot (fun n => !(s.gone i n)) (s.order q i d) index), x.1, x.2⟩ := by
    simp [Page.insertBlock]
  have hold : ∀ n ∈ s.children q i d, (s.insertBlock q i d index x).blocks[n]? = s.blocks[n]? := fun n hn =>
    blocks_insertBlock_old (items_lt (mem_children.mp hn).1)
  refine List.ext_getElem? fun k => ?_
  rw [shown_getElem?, children_insertBlock h hindex]
  rw [List.getElem?_insertIdx, List.getElem?_insertIdx, shown_getElem?, shown_getElem?, shown_length]
  obtain hlt | rfl | hgt := Nat.lt_trichotomy k index
  · rw [if_pos hlt, if_pos hlt]
    cases hn : (s.children q i d)[k]? with
    | none => rfl
    | some n => simp [hold n (List.mem_of_getElem? hn)]
  · simp [hindex, hnew]
  · rw [if_neg (by omega), if_neg (by omega), if_neg (by omega), if_neg (by omega)]
    cases hn : (s.children q i d)[k - 1]? with
    | none => rfl
    | some n => simp [hold n (List.mem_of_getElem? hn)]

theorem Bounded.insertBlock (h : Bounded s) : Bounded (s.insertBlock q i d index x) where
  known := by
    intro j n hn
    have hn : s.known j n = true ∨ j = i ∧ n = s.blocks.length := by simpa [Page.insertBlock] using hn
    rw [Page.insertBlock, List.length_append, List.length_singleton]
    obtain hn | ⟨-, rfl⟩ := hn
    · have hlt := h.known hn
      omega
    · omega
  gone hn := by
    rw [Page.insertBlock, List.length_append, List.length_singleton]
    exact Nat.lt_succ_of_lt (h.gone hn)

theorem deleteBlock_eq (h : (s.children q i d)[index]? = some n) : s.deleteBlock q i d index =
    { s with deleted := n :: s.deleted, gone := fun j m => s.gone j m || (decide (j = i) && m == n) } := by
  rw [Page.deleteBlock, h]

theorem deleteBlock_frame (q : Sequence) (i : κ) (s : Page κ α) (d index : Nat) :
    (s.deleteBlock q i d index).tree = s.tree ∧ (s.deleteBlock q i d index).blocks = s.blocks ∧
      (s.deleteBlock q i d index).mirrors = s.mirrors ∧ (s.deleteBlock q i d index).inserted = s.inserted := by
  unfold Page.deleteBlock
  split
  · exact ⟨rfl, rfl, rfl, rfl⟩
  · exact ⟨rfl, rfl, rfl, rfl⟩

theorem shown_deleteBlock_of_ne (hj : j ≠ i) (h : (s.children q i d)[index]? = some n) :
    (s.deleteBlock q i d index).shown q j d = s.shown q j d := by
  rw [deleteBlock_eq h]
  exact shown_congr rfl (fun _ _ => by simp [hj]) fun _ _ => rfl

theorem shown_deleteBlock (h : (s.children q i d)[index]? = some n) :
    (s.deleteBlock q i d index).shown q i d = (s.shown q i d).eraseIdx index := by
  have hnodup : (s.children q i d).Nodup := order_nodup.filter _
  obtain ⟨hlt, rfl⟩ := List.getElem?_eq_some_iff.mp h
  have hchildren : (s.deleteBlock q i d index).children q i d = (s.children q i d).eraseIdx index := by
    rw [← hnodup.erase_getElem index hlt, hnodup.erase_eq_filter, deleteBlock_eq h]
    simp only [Page.children, List.filter_filter]
    exact List.filter_congr fun m _ => by simp [Bool.and_comm, bne]
  refine List.ext_getElem? fun k => ?_
  rw [shown_getElem?, hchildren, deleteBlock_eq h, List.getElem?_eraseIdx, List.getElem?_eraseIdx]
  split
  · rw [shown_getElem?]
  · rw [shown_getElem?]

end Shown

end Savoire.PageMirror
