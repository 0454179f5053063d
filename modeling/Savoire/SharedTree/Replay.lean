import Savoire.SharedTree.Frame

/-! The batch of changes of a transaction, replayed on what was there before it. -/
namespace Savoire.SharedTree

def applyList : List TreeValue → ListDelta → List TreeValue
  | items, [] => items
  | items, .retain n :: delta => items.take n ++ applyList (items.drop n) delta
  | items, .insert values :: delta => values ++ applyList items delta
  | items, .delete n :: delta => applyList (items.drop n) delta

def TreeChange.target : TreeChange → Id
  | map target _ | list target _ | text target _ | element target .. => target

def readKey {β : Type} (now : List (Text × β)) (entries : List (Text × β)) (key : Text) : List (Text × β) :=
  match now.lookup key with
  | some v => Entries.set key v entries
  | none => Entries.erase key entries

def Content.entries : Content → List (Text × TreeValue)
  | .map entries => entries
  | _ => []

def Content.attrs : Content → List (Text × JsonValue)
  | .element _ attrs _ => attrs
  | _ => []

def Content.items : Content → List TreeValue
  | .list items | .element _ _ items => items
  | _ => []

/-- A change of a node, applied to a mirror of it; `now` is what the node holds. -/
def replayChange (now : Content) : TreeChange → Content → Content
  | .map _ keys, .map entries => .map (keys.foldl (readKey now.entries) entries)
  | .list _ delta, .list items => .list (applyList items delta)
  | .text _ delta, .text chars => .text (applyRich chars delta)
  | .element _ names delta, .element name attrs items =>
    .element name (names.foldl (readKey now.attrs) attrs) (applyList items delta)
  | _, mirror => mirror

/-- The changes of a batch in order, applied to a mirror; a node that is deleted is left as it is. -/
def replay (after : Nodes) (changes : List TreeChange) (mirror : Contents) : Contents :=
  changes.foldl (fun m change =>
    match contents after change.target with
    | some now => if deleted after change.target then m
      else Function.update m change.target ((m change.target).map (replayChange now change))
    | none => m) mirror

def mirrored (before after : Nodes) (created : List Id) : Contents := fun id =>
  if id ∈ created then contents after id else contents before id

def Same : Content → Content → Prop
  | .map m, .map c => ∀ k, m.lookup k = c.lookup k
  | .list m, .list c => m = c
  | .text m, .text c => m = c
  | .element name m items, .element name' c items' => name = name' ∧ (∀ k, m.lookup k = c.lookup k) ∧ items = items'
  | _, _ => False

def Exact (t : MemTree) (calls : List Call) : Prop :=
  let (t', tx) := transact t calls
  ∀ id c, deleted t'.nodes id = false → contents t'.nodes id = some c →
    ∃ m, replay t'.nodes tx.changes (mirrored t.nodes t'.nodes tx.created) id = some m ∧ Same m c

/-- The elements before the removed ones come again as many places on as are removed. -/
def Recurs (items : List TreeValue) (start length : Nat) : Prop :=
  ∀ i < start, items[i]? = items[i + min length (items.length - start)]?

instance (items : List TreeValue) (start length : Nat) : Decidable (Recurs items start length) :=
  inferInstanceAs (Decidable (∀ i < start, _))

theorem drop_eq_iff {items : List TreeValue} {start length : Nat} (hstart : start ≤ items.length) :
    items.drop (min length (items.length - start)) = items.take start ++ items.drop (start + length) ↔
      Recurs items start length := by
  have htake : (items.take start).length = start := by simpa using hstart
  have hright : ∀ i, (items.take start ++ items.drop (start + length))[i]? =
      if i < start then items[i]? else items[i + length]? := by
    intro i
    by_cases hi : i < start
    · rw [List.getElem?_append_left (by omega), List.getElem?_take_of_lt hi, if_pos hi]
    · rw [List.getElem?_append_right (by omega), List.getElem?_drop, if_neg hi, htake]
      congr 1
      omega
  rw [List.ext_getElem?_iff]
  simp only [List.getElem?_drop, hright]
  constructor
  · intro h i hi
    have := h i
    rw [if_pos hi] at this
    rw [← this, Nat.add_comm]
  · intro h i
    by_cases hi : i < start
    · rw [if_pos hi, h i hi, Nat.add_comm]
    · rw [if_neg hi]
      by_cases hlen : length ≤ items.length - start
      · rw [Nat.min_eq_left hlen, Nat.add_comm]
      · rw [List.getElem?_eq_none (by omega), List.getElem?_eq_none (by omega)]

theorem applyList_retained (items : List TreeValue) (n : Nat) (delta : ListDelta) :
    applyList items (retained n ++ delta) = items.take n ++ applyList (items.drop n) delta := by
  unfold retained
  split
  · rfl
  · obtain rfl : n = 0 := by omega
    simp

/-- The change that a sequence tells of an operation, if any, applied to its items. -/
def mirrorItems (items : List TreeValue) : Option ListDelta → List TreeValue
  | some delta => applyList items delta
  | none => items

theorem mirrorItems_delete {items items' : List TreeValue} {dropped : List TreeValue} {created : Nodes}
    {delta : Option ListDelta} {id : Id} {index : Int} {length : Nat}
    (h : applySeq items (.listDel id index length) = some (items', dropped, created, delta)) :
    mirrorItems items delta = items' ↔
      (index < 0 → Recurs items (spliceStart items.length index) length) := by
  obtain ⟨rfl, -, -, rfl⟩ := h
  have hstart : spliceStart items.length index ≤ items.length := by
    unfold spliceStart
    split <;> omega
  have hcount : ((items.drop (spliceStart items.length index)).take length).length =
      min length (items.length - spliceStart items.length index) := by
    rw [List.length_take, List.length_drop]
  by_cases hnil : (items.drop (spliceStart items.length index)).take length = []
  · -- Nothing is removed.
    rw [hnil, List.length_nil] at hcount
    rw [if_pos hnil, mirrorItems]
    have hkeep : items = items.take (spliceStart items.length index) ++
        items.drop (spliceStart items.length index + length) := by
      by_cases hl : length = 0
      · rw [hl, Nat.add_zero, List.take_append_drop]
      · have hle : items.length ≤ spliceStart items.length index := by omega
        rw [List.take_of_length_le hle, List.drop_of_length_le (by omega), List.append_nil]
    refine ⟨fun _ _ i _ => ?_, fun _ => hkeep⟩
    rw [← hcount, Nat.add_zero]
  · rw [if_neg hnil, mirrorItems, applyList_retained]
    simp only [applyList]
    rw [hcount]
    by_cases hneg : index < 0
    · have hzero : index.toNat = 0 := by omega
      rw [hzero, List.take_zero, List.drop_zero, List.nil_append, drop_eq_iff hstart]
      exact ⟨fun h _ => h, fun h => h hneg⟩
    · refine ⟨fun _ hlt => absurd hlt hneg, fun _ => ?_⟩
      have hlt : spliceStart items.length index < items.length := by
        by_contra hge
        exact hnil (by rw [List.drop_of_length_le (by omega), List.take_nil])
      have hidx : spliceStart items.length index = index.toNat := by
        unfold spliceStart at hlt ⊢
        rw [if_neg hneg] at hlt ⊢
        omega
      rw [hidx, List.drop_drop]
      by_cases hl : length ≤ items.length - index.toNat
      · rw [Nat.min_eq_left hl]
      · rw [List.drop_of_length_le (by omega), List.drop_of_length_le (by omega)]

/-- The operation deletes nothing at a negative index, but where this makes no difference. -/
def Op.Straight (items : List TreeValue) : Op → Prop
  | listDel _ index length => index < 0 → Recurs items (spliceStart items.length index) length
  | _ => True

theorem mirrorItems_eq {items items' : List TreeValue} {dropped : List TreeValue} {created : Nodes}
    {delta : Option ListDelta} {op : Op} (h : applySeq items op = some (items', dropped, created, delta))
    (hs : op.Straight items) : mirrorItems items delta = items' := by
  cases op with
  | listIns id index values =>
    obtain ⟨rfl, -, -, rfl⟩ := h
    simp only [mirrorItems, applyList_retained, applyList, List.append_assoc]
  | listDel id index length => exact (mirrorItems_delete h).2 hs
  | _ => simp [applySeq] at h

/-- A mirror of a node that is as the node, but for keys that are already as they will be. -/
def Ahead (now : Content) : Content → Content → Prop
  | .map m, .map c => ∀ k, m.lookup k = c.lookup k ∨ m.lookup k = now.entries.lookup k
  | .list m, .list c => m = c
  | .text m, .text c => m = c
  | .element name m items, .element name' c items' => name = name' ∧
      (∀ k, m.lookup k = c.lookup k ∨ m.lookup k = now.attrs.lookup k) ∧ items = items'
  | _, _ => False

theorem Ahead.refl (now c : Content) : Ahead now c c := by
  cases c with
  | map entries => exact fun _ => .inl rfl
  | list items => rfl
  | text chars => rfl
  | element name attrs items => exact ⟨rfl, fun _ => .inl rfl, rfl⟩

theorem Ahead.same {now m : Content} (h : Ahead now m now) : Same m now := by
  cases now <;> cases m <;> first | exact h.elim | skip
  · exact fun k => (h k).elim id id
  · exact h
  · exact h
  · exact ⟨h.1, fun k => (h.2.1 k).elim id id, h.2.2⟩

theorem lookup_readKey {β : Type} (now entries : List (Text × β)) (key k : Text) :
    (readKey now entries key).lookup k = if k == key then now.lookup key else entries.lookup k := by
  unfold readKey
  cases h : now.lookup key with
  | none => rw [Entries.lookup_erase]
  | some v => rw [Entries.lookup_set]

theorem ahead_key {β : Type} {now m c c' : List (Text × β)} {key : Text} {v : Option β}
    (h : ∀ k, m.lookup k = c.lookup k ∨ m.lookup k = now.lookup k)
    (hc : ∀ k, c'.lookup k = if k == key then v else c.lookup k) (k : Text) :
    (readKey now m key).lookup k = c'.lookup k ∨ (readKey now m key).lookup k = now.lookup k := by
  rw [lookup_readKey, hc]
  by_cases hk : k == key
  · obtain rfl := eq_of_beq hk
    simp
  · simp only [hk, Bool.false_eq_true, ↓reduceIte]
    exact h k

theorem ahead_applyOp {now m c : Content} {op : Op} {e : Effect} (h : applyOp op c = some e)
    (hm : Ahead now m c) (hs : op.Straight c.items) :
    Ahead now (match e.change with | some change => replayChange now change m | none => m) e.content := by
  cases c with
  | map entries =>
    cases m <;> first | exact hm.elim | skip
    cases op <;> simp only [applyOp, Option.some.injEq, reduceCtorEq] at h
    · subst h
      exact ahead_key hm fun k => Entries.lookup_set
    · subst h
      exact ahead_key hm fun k => Entries.lookup_erase
  | list items =>
    cases m <;> first | exact hm.elim | skip
    obtain ⟨⟨items', dropped, created, delta⟩, hseq, rfl⟩ := Option.map_eq_some_iff.1 h
    have heq := mirrorItems_eq hseq hs
    obtain rfl := hm
    cases delta with
    | none => exact heq
    | some delta => exact heq
  | text chars =>
    cases m <;> first | exact hm.elim | skip
    cases op <;> simp only [applyOp, Option.some.injEq, reduceCtorEq] at h
    subst h
    obtain rfl := hm
    rfl
  | element name attrs items =>
    obtain ⟨mattrs, rfl, hattrs⟩ : ∃ mattrs, m = .element name mattrs items ∧
        ∀ k, mattrs.lookup k = attrs.lookup k ∨ mattrs.lookup k = now.attrs.lookup k := by
      cases m <;> first | exact hm.elim | skip
      obtain ⟨hname, hattrs, hitems⟩ := hm
      exact ⟨_, by rw [hname, hitems], hattrs⟩
    have hseq : ((applySeq items op).map fun r =>
          (⟨.element name attrs r.1, r.2.1, r.2.2.1, r.2.2.2.map (.element op.id [])⟩ : Effect)) = some e →
        Ahead now (match e.change with
          | some change => replayChange now change (.element name mattrs items)
          | none => .element name mattrs items) e.content := by
      intro h
      obtain ⟨⟨items', dropped, created, delta⟩, hseq, rfl⟩ := Option.map_eq_some_iff.1 h
      have heq := mirrorItems_eq hseq hs
      cases delta with
      | none => exact ⟨rfl, hattrs, heq⟩
      | some delta => exact ⟨rfl, hattrs, heq⟩
    cases op with
    | attr id key value =>
      cases value with
      | none =>
        obtain rfl := Option.some.inj h
        exact ⟨rfl, ahead_key hattrs fun k => Entries.lookup_erase, rfl⟩
      | some value =>
        obtain rfl := Option.some.inj h
        exact ⟨rfl, ahead_key hattrs fun k => Entries.lookup_set, rfl⟩
    | _ => exact hseq h

end Savoire.SharedTree
