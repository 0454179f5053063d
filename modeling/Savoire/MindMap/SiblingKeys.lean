import Savoire.MindMap.Reorder

/-! What the sort keys are for: there is always a key to insert, and siblings are put in order with the keys of a
longest increasing run kept. -/
namespace Savoire.MindMap
open Query (textLt)

def insertKey (keys : List Text) (place : Nat) : Except Text (List Text) := do
  let k ← keyBetween (keys.take place).getLast? (keys.drop place).head?
  return keys.take place ++ k :: keys.drop place

structure InOrder (keys : List Text) : Prop where
  valid : ∀ k ∈ keys, IsKey k
  sorted : keys.Pairwise fun a b => textLt a b = true

theorem inOrder_append {u v : List Text} : InOrder (u ++ v) ↔
    InOrder u ∧ InOrder v ∧ ∀ a ∈ u, ∀ b ∈ v, textLt a b = true := by
  constructor
  · rintro ⟨hvalid, hsorted⟩
    obtain ⟨hu, hv, huv⟩ := List.pairwise_append.1 hsorted
    exact ⟨⟨fun k hk => hvalid k (List.mem_append_left v hk), hu⟩,
      ⟨fun k hk => hvalid k (List.mem_append_right u hk), hv⟩, huv⟩
  · rintro ⟨hu, hv, huv⟩
    exact ⟨fun k hk => (List.mem_append.1 hk).elim (hu.valid k) (hv.valid k),
      List.pairwise_append.2 ⟨hu.sorted, hv.sorted, huv⟩⟩

theorem InOrder.above {u : List Text} {k : Text} (h : InOrder u) (hk : ∀ a ∈ u.getLast?, textLt a k = true) :
    ∀ a ∈ u, textLt a k = true := by
  obtain rfl | ⟨init, last, rfl⟩ := u.eq_nil_or_concat
  · simp
  · have hlast : textLt last k = true := hk last (by simp)
    intro a ha
    rw [List.concat_eq_append, List.mem_append, List.mem_singleton] at ha
    obtain ha | rfl := ha
    · rw [List.concat_eq_append] at h
      exact textLt_trans ((inOrder_append.1 h).2.2 a ha last (by simp)) hlast
    · exact hlast

theorem InOrder.below {v : List Text} {k : Text} (h : InOrder v) (hk : ∀ b ∈ v.head?, textLt k b = true) :
    ∀ b ∈ v, textLt k b = true := by
  cases v with
  | nil => simp
  | cons first v =>
    have hfirst : textLt k first = true := hk first rfl
    intro b hb
    obtain rfl | hb := List.mem_cons.1 hb
    · exact hfirst
    · exact textLt_trans hfirst (List.rel_of_pairwise_cons h.sorted hb)

theorem insertKey_eq_ok {keys keys' : List Text} {place : Nat} : insertKey keys place = .ok keys' ↔
    ∃ k, keyBetween (keys.take place).getLast? (keys.drop place).head? = .ok k ∧
      keys' = keys.take place ++ k :: keys.drop place := by
  rw [insertKey]
  cases keyBetween (keys.take place).getLast? (keys.drop place).head? with
  | error e => simp [bind, Except.bind]
  | ok k => simp [bind, Except.bind, pure, Except.pure, eq_comm]

theorem InOrder.insert {keys : List Text} (h : InOrder keys) (place : Nat) :
    ∃ keys', insertKey keys place = .ok keys' ∧ InOrder keys' := by
  rw [← List.take_append_drop place keys] at h
  obtain ⟨hu, hv, huv⟩ := inOrder_append.1 h
  have hbefore : ∀ a ∈ (keys.take place).getLast?, a ∈ keys.take place := fun a ha => List.mem_of_getLast? ha
  have hafter : ∀ b ∈ (keys.drop place).head?, b ∈ keys.drop place := fun b hb => List.mem_of_head? hb
  have hlt : ∀ a ∈ (keys.take place).getLast?, ∀ b ∈ (keys.drop place).head?, textLt a b = true :=
    fun a ha b hb => huv a (hbefore a ha) b (hafter b hb)
  obtain ⟨k, hk, hkey⟩ := keyBetween_isKey (fun a ha => hu.valid a (hbefore a ha))
    (fun b hb => hv.valid b (hafter b hb)) hlt
  obtain ⟨-, habove, hbelow⟩ := keyBetween_spec hk hlt
  have hbelow' := hv.below hbelow
  have hcons : InOrder (k :: keys.drop place) := by
    refine ⟨?_, List.pairwise_cons.2 ⟨hbelow', hv.sorted⟩⟩
    rw [List.forall_mem_cons]
    exact ⟨hkey, hv.valid⟩
  refine ⟨_, insertKey_eq_ok.2 ⟨k, hk, rfl⟩, inOrder_append.2 ⟨hu, hcons, fun a ha b hb => ?_⟩⟩
  obtain rfl | hb := List.mem_cons.1 hb
  · exact hu.above habove a ha
  · exact huv a ha b hb

/-- Siblings inserted one after the other, each at a place among those there are. -/
def insertKeys : List Text → List Nat → Except Text (List Text)
  | keys, [] => .ok keys
  | keys, place :: places => do insertKeys (← insertKey keys place) places

theorem InOrder.insertKeys {keys : List Text} (h : InOrder keys) (places : List Nat) :
    ∃ keys', insertKeys keys places = .ok keys' ∧ InOrder keys' ∧ keys'.length = keys.length + places.length := by
  induction places generalizing keys with
  | nil => exact ⟨keys, rfl, h, rfl⟩
  | cons place places ih =>
    obtain ⟨next, hnext, horder⟩ := h.insert place
    obtain ⟨keys', hkeys', horder', hlen⟩ := ih horder
    refine ⟨keys', by simp [MindMap.insertKeys, hnext, bind, Except.bind, hkeys'], horder', ?_⟩
    have hnextlen : next.length = keys.length + 1 := by
      obtain ⟨k, -, rfl⟩ := insertKey_eq_ok.1 hnext
      rw [List.length_append, List.length_cons, ← Nat.add_assoc, ← List.length_append, List.take_append_drop]
    rw [hlen, hnextlen, List.length_cons]
    omega

/-- The places of `stay` keep their keys, no increasing run of keys is longer, and with the new keys all are in
order. -/
structure Reordered (keys : List (Option Text)) (out : List (Nat × Text)) (stay : List Nat) : Prop where
  places : stay.Sublist (List.range keys.length)
  key : ∀ i ∈ stay, keyAt keys i = some (keyAfter keys out i)
  written : ∀ i < keys.length, i ∉ stay → ∃ k, (i, k) ∈ out
  untouched : ∀ e ∈ out, e.1 < keys.length ∧ e.1 ∉ stay
  longest : ∀ c : List Nat, c.Sublist (List.range keys.length) → (∀ i ∈ c, (keyAt keys i).isSome) →
    (c.Pairwise fun i j => textLt ((keyAt keys i).getD []) ((keyAt keys j).getD []) = true) → c.length ≤ stay.length
  sorted : ((List.range keys.length).map (keyAfter keys out)).Pairwise fun a b => textLt a b = true

theorem reorderKeys_reordered {keys : List (Option Text)} {out : List (Nat × Text)} (h : reorderKeys keys = .ok out) :
    Reordered keys out (kept keys).reverse := by
  obtain ⟨hsub, -, hlongest⟩ := kept_spec keys
  have hout := newKeys_places h
  have hmem : ∀ i, i ∈ out.map Prod.fst ↔ i < keys.length ∧ i ∉ (kept keys).reverse := by
    intro i
    rw [hout, List.mem_filter, List.mem_range, List.mem_reverse, decide_eq_true_eq]
  refine ⟨hsub.trans List.filter_sublist, fun i hi => ?_, fun i hi hnot => ?_, fun e he => ?_, fun c hc hkeys hinc => ?_,
    (reorderKeys_spec h).2.2.1⟩
  · rw [keyAfter_of_notMem fun hi' => ((hmem i).1 hi').2 hi]
    obtain ⟨k, hk⟩ := Option.isSome_iff_exists.1 (List.mem_filter.1 (hsub.subset hi)).2
    rw [hk]
    rfl
  · obtain ⟨⟨j, k⟩, hj, rfl⟩ := List.mem_map.1 ((hmem i).2 ⟨hi, hnot⟩)
    exact ⟨k, hj⟩
  · exact (hmem e.1).1 (List.mem_map_of_mem he)
  · rw [List.length_reverse]
    refine hlongest c ?_ (hinc.imp fun hlt => by simpa [keyUnits, textLt] using hlt)
    have hfilter := hc.filter fun i => (keyAt keys i).isSome
    rwa [List.filter_eq_self.2 hkeys] at hfilter

/-- Between two keys in order, or beyond one, there is a key; so siblings can be inserted for ever; and siblings
with any keys are put in order unless a malformed key is in the way. -/
theorem sibling_keys :
    (∀ before after : Option Text, (∀ a ∈ before, IsKey a) → (∀ b ∈ after, IsKey b) →
      (∀ a ∈ before, ∀ b ∈ after, textLt a b = true) →
      ∃ k, keyBetween before after = .ok k ∧ IsKey k ∧ (∀ a ∈ before, textLt a k = true) ∧
        ∀ b ∈ after, textLt k b = true) ∧
    (∀ keys : List Text, InOrder keys → ∀ places : List Nat,
      ∃ keys', insertKeys keys places = .ok keys' ∧ InOrder keys' ∧ keys'.length = keys.length + places.length) ∧
    ∀ keys : List (Option Text),
      (∀ out, reorderKeys keys = .ok out → ∃ stay, Reordered keys out stay) ∧
      ((∀ i k, keyAt keys i = some k → IsKey k) → ∃ out, reorderKeys keys = .ok out) := by
  refine ⟨fun before after hbefore hafter hlt => ?_, fun keys h places => h.insertKeys places, fun keys =>
    ⟨fun out hout => ⟨_, reorderKeys_reordered hout⟩, reorderKeys_ok⟩⟩
  obtain ⟨k, hk, hkey⟩ := keyBetween_isKey hbefore hafter hlt
  exact ⟨k, hk, hkey, (keyBetween_spec hk hlt).2⟩

/-- A key that is no text over the digits stays where it is, and the key after it cannot be made. -/
theorem malformed_key_refused : reorderKeys [some "!".toList, none] = .error "cle de tri invalide : !".toList ∧
    ¬ ∃ out stay, reorderKeys [some "!".toList, none] = .ok out ∧ Reordered [some "!".toList, none] out stay := by
  have h : reorderKeys [some "!".toList, none] = .error "cle de tri invalide : !".toList := by decide +kernel
  refine ⟨h, ?_⟩
  rintro ⟨out, stay, hout, -⟩
  cases hout

end Savoire.MindMap
