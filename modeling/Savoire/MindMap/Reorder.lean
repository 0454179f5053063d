import Savoire.MindMap.Order

/-! The new keys of siblings to put in order: the keys of a longest increasing run stay. -/
namespace Savoire.MindMap
open Query (textLt)

section Keys
variable (keys : List (Option Text))

def keyAt (i : Nat) : Option Text := keys[i]?.join

def keyUnits (i : Nat) : List Nat := ((keyAt keys i).getD []).flatMap Utf.utf16

/-- The places whose keys stay. -/
def kept : List Nat :=
  Increasing.longest (keyUnits keys) ((List.range keys.length).filter fun i => (keyAt keys i).isSome)

/-- The keys to write at the places that are left, after the key `before`. -/
def newKeys (kept : List Nat) : Option Text → List Nat → Except Text (List (Nat × Text))
  | _, [] => .ok []
  | before, i :: rest =>
    if i ∈ kept then newKeys kept (keyAt keys i) rest
    else do
      let k ← keyBetween before ((rest.find? (· ∈ kept)).bind (keyAt keys))
      return (i, k) :: (← newKeys kept (some k) rest)

def reorderKeys : Except Text (List (Nat × Text)) := newKeys keys (kept keys) none (List.range keys.length)

/-- The key at a place once the new ones are written. -/
def keyAfter (out : List (Nat × Text)) (i : Nat) : Text := (out.lookup i).getD ((keyAt keys i).getD [])

end Keys

variable {keys : List (Option Text)} {out : List (Nat × Text)}

section New
variable {kept : List Nat} {before : Option Text}

/-- Places whose keys are in order after `before`. -/
structure Kept (keys : List (Option Text)) (kept : List Nat) (before : Option Text) (places : List Nat) : Prop where
  nodup : places.Nodup
  key : ∀ i ∈ places, i ∈ kept → ∃ k, keyAt keys i = some k
  sorted : places.Pairwise fun i j => i ∈ kept → j ∈ kept →
    textLt ((keyAt keys i).getD []) ((keyAt keys j).getD []) = true
  above : ∀ b ∈ before, ∀ i ∈ places, i ∈ kept → textLt b ((keyAt keys i).getD []) = true

section Step
variable {i : Nat} {rest : List Nat}

theorem Kept.tail (h : Kept keys kept before (i :: rest)) (hi : i ∈ kept) : Kept keys kept (keyAt keys i) rest where
  nodup := h.nodup.of_cons
  key j hj := h.key j (List.mem_cons_of_mem i hj)
  sorted := h.sorted.of_cons
  above b hb j hj hk := by
    have hlt := List.rel_of_pairwise_cons h.sorted hj hi hk
    rwa [hb] at hlt

theorem Kept.next (h : Kept keys kept before (i :: rest)) :
    ∀ a ∈ before, ∀ b ∈ (rest.find? (· ∈ kept)).bind (keyAt keys), textLt a b = true := by
  intro a ha b hb
  obtain ⟨f, hf, hfb⟩ := Option.bind_eq_some_iff.1 hb
  have hlt := h.above a ha f (List.mem_cons_of_mem i (List.mem_of_find?_eq_some hf)) (by simpa using List.find?_some hf)
  rwa [hfb] at hlt

theorem Kept.new (h : Kept keys kept before (i :: rest)) {k : Text}
    (hk : ∀ b ∈ (rest.find? (· ∈ kept)).bind (keyAt keys), textLt k b = true) : Kept keys kept (some k) rest where
  nodup := h.nodup.of_cons
  key j hj := h.key j (List.mem_cons_of_mem i hj)
  sorted := h.sorted.of_cons
  above b hb j hj hjk := by
    cases hb
    have hsome : (rest.find? (· ∈ kept)).isSome := by
      rw [List.find?_isSome]
      exact ⟨j, hj, by simpa using hjk⟩
    obtain ⟨f, hf⟩ := Option.isSome_iff_exists.1 hsome
    have hfk : f ∈ kept := by simpa using List.find?_some hf
    obtain ⟨b, hb⟩ := h.key f (List.mem_cons_of_mem i (List.mem_of_find?_eq_some hf)) hfk
    have hlt := hk b (by simp [hf, hb])
    obtain ⟨u, v, huv, hu⟩ := (List.find?_eq_some_iff_append.1 hf).2
    have hsorted := h.sorted.of_cons
    rw [huv, List.pairwise_append, List.pairwise_cons] at hsorted
    rw [huv, List.mem_append, List.mem_cons] at hj
    obtain hju | rfl | hjv := hj
    · simpa [hjk] using hu j hju
    · rwa [hb]
    · have hnext := hsorted.2.1.1 j hjv hfk hjk
      rw [hb] at hnext
      exact textLt_trans hlt hnext

end Step

theorem newKeys_cons_of_mem {i : Nat} {rest : List Nat} (hi : i ∈ kept) :
    newKeys keys kept before (i :: rest) = newKeys keys kept (keyAt keys i) rest := by
  rw [newKeys, if_pos hi]

theorem newKeys_cons_of_notMem {i : Nat} {rest : List Nat} (hi : i ∉ kept) :
    newKeys keys kept before (i :: rest) = .ok out ↔
      ∃ k out', keyBetween before ((rest.find? (· ∈ kept)).bind (keyAt keys)) = .ok k ∧
        newKeys keys kept (some k) rest = .ok out' ∧ out = (i, k) :: out' := by
  rw [newKeys, if_neg hi]
  cases keyBetween before ((rest.find? (· ∈ kept)).bind (keyAt keys)) with
  | error e => simp [bind, Except.bind]
  | ok k => cases hrest : newKeys keys kept (some k) rest with
    | error e => simp [bind, Except.bind, hrest]
    | ok out' => simp [bind, Except.bind, hrest, pure, Except.pure, eq_comm]

theorem newKeys_places {places : List Nat} (h : newKeys keys kept before places = .ok out) :
    out.map Prod.fst = places.filter (· ∉ kept) := by
  induction places generalizing before out with
  | nil => cases h; rfl
  | cons i rest ih =>
    by_cases hi : i ∈ kept
    · rw [newKeys_cons_of_mem hi] at h
      rw [ih h, List.filter_cons_of_neg (by simpa using hi)]
    · obtain ⟨k, out', -, hout, rfl⟩ := (newKeys_cons_of_notMem hi).1 h
      rw [List.map_cons, ih hout, List.filter_cons_of_pos (by simpa using hi)]

theorem keyAfter_of_notMem {i : Nat} (h : i ∉ out.map Prod.fst) : keyAfter keys out i = (keyAt keys i).getD [] := by
  rw [keyAfter, List.lookup_eq_none_iff.2]
  · rfl
  · rintro ⟨j, k⟩ hmem
    simpa using fun hij : i = j => h (hij ▸ List.mem_map_of_mem hmem)

theorem newKeys_sorted {places : List Nat} (hkept : Kept keys kept before places)
    (h : newKeys keys kept before places = .ok out) :
    (places.map (keyAfter keys out)).Pairwise (fun a b => textLt a b = true) ∧
      (∀ b ∈ before, ∀ i ∈ places, textLt b (keyAfter keys out i) = true) ∧ ∀ e ∈ out, e.2 ≠ [] := by
  induction places generalizing before out with
  | nil => cases h; simp
  | cons i rest ih =>
    have hnotin : i ∉ rest := (List.nodup_cons.1 hkept.nodup).1
    by_cases hi : i ∈ kept
    · rw [newKeys_cons_of_mem hi] at h
      obtain ⟨hsorted, habove, hne⟩ := ih (hkept.tail hi) h
      obtain ⟨k, hk⟩ := hkept.key i List.mem_cons_self hi
      have hself : keyAfter keys out i = k := by
        rw [keyAfter_of_notMem, hk]
        · rfl
        · rw [newKeys_places h]
          exact fun hmem => hnotin (List.mem_of_mem_filter hmem)
      have hbefore : ∀ b ∈ before, textLt b k = true := fun b hb => by
        have := hkept.above b hb i List.mem_cons_self hi
        rwa [hk] at this
      refine ⟨?_, fun b hb j hj => ?_, hne⟩
      · rw [List.map_cons, List.pairwise_cons]
        refine ⟨fun a ha => ?_, hsorted⟩
        obtain ⟨j, hj, rfl⟩ := List.mem_map.1 ha
        exact hself ▸ habove k hk j hj
      · obtain rfl | hj := List.mem_cons.1 hj
        · exact hself ▸ hbefore b hb
        · exact textLt_trans (hbefore b hb) (habove k hk j hj)
    · obtain ⟨k, out', hk, hout, rfl⟩ := (newKeys_cons_of_notMem hi).1 h
      obtain ⟨hkne, hbefore, hafter⟩ := keyBetween_spec hk hkept.next
      obtain ⟨hsorted, habove, hne⟩ := ih (hkept.new hafter) hout
      have hself : keyAfter keys ((i, k) :: out') i = k := by simp [keyAfter]
      have hothers : ∀ j ∈ rest, keyAfter keys ((i, k) :: out') j = keyAfter keys out' j := fun j hj => by
        have hji : (j == i) = false := by simpa using fun hji : j = i => hnotin (hji ▸ hj)
        rw [keyAfter, List.lookup_cons, hji, keyAfter]
      refine ⟨?_, fun b hb j hj => ?_, fun e he => ?_⟩
      · rw [List.map_cons, List.pairwise_cons, hself, List.map_congr_left hothers]
        refine ⟨fun a ha => ?_, hsorted⟩
        obtain ⟨j, hj, rfl⟩ := List.mem_map.1 ha
        exact habove k rfl j hj
      · obtain rfl | hj := List.mem_cons.1 hj
        · rw [hself]
          exact hbefore b hb
        · rw [hothers j hj]
          exact textLt_trans (hbefore b hb) (habove k rfl j hj)
      · obtain rfl | he := List.mem_cons.1 he
        · exact hkne
        · exact hne e he

theorem newKeys_ok {places : List Nat} (hkept : Kept keys kept before places) (hbefore : ∀ b ∈ before, IsKey b)
    (hkey : ∀ i k, keyAt keys i = some k → IsKey k) : ∃ out, newKeys keys kept before places = .ok out := by
  induction places generalizing before with
  | nil => exact ⟨[], rfl⟩
  | cons i rest ih =>
    by_cases hi : i ∈ kept
    · rw [newKeys_cons_of_mem hi]
      exact ih (hkept.tail hi) fun b hb => hkey i b hb
    · have hafter : ∀ b ∈ (rest.find? (· ∈ kept)).bind (keyAt keys), IsKey b := fun b hb => by
        obtain ⟨f, -, hf⟩ := Option.bind_eq_some_iff.1 hb
        exact hkey f b hf
      obtain ⟨k, hk, hkKey⟩ := keyBetween_isKey hbefore hafter hkept.next
      obtain ⟨-, -, hlt⟩ := keyBetween_spec hk hkept.next
      obtain ⟨out, hout⟩ := ih (hkept.new hlt) (by rintro b ⟨⟩; exact hkKey)
      exact ⟨_, (newKeys_cons_of_notMem hi).2 ⟨k, out, hk, hout, rfl⟩⟩

end New

variable (keys) in
theorem kept_spec : (kept keys).reverse.Sublist ((List.range keys.length).filter fun i => (keyAt keys i).isSome) ∧
    ((kept keys).reverse.Pairwise fun i j => keyUnits keys i < keyUnits keys j) ∧
    ∀ c : List Nat, c.Sublist ((List.range keys.length).filter fun i => (keyAt keys i).isSome) →
      (c.Pairwise fun i j => keyUnits keys i < keyUnits keys j) → c.length ≤ (kept keys).length :=
  Increasing.longest_spec (List.nodup_range.filter _)

variable (keys) in
theorem kept_kept : Kept keys (kept keys) none (List.range keys.length) where
  nodup := List.nodup_range
  key i _ hk := by
    have hmem := (kept_spec keys).1.subset (List.mem_reverse.2 hk)
    exact Option.isSome_iff_exists.1 (List.mem_filter.1 hmem).2
  sorted := by
    have hfilter : (List.range keys.length).filter (· ∈ (kept keys).reverse) = (kept keys).reverse :=
      Increasing.filter_mem_of_sublist ((kept_spec keys).1.trans List.filter_sublist) List.nodup_range
    have hsorted := (kept_spec keys).2.1
    rw [← hfilter, List.pairwise_filter] at hsorted
    refine hsorted.imp fun h hi hj => ?_
    simpa [keyUnits, textLt] using h (by simpa using hi) (by simpa using hj)
  above b hb := by cases hb

theorem reorderKeys_spec (h : reorderKeys keys = .ok out) :
    (out.map Prod.fst).Sublist (List.range keys.length) ∧ (∀ i < keys.length, i ∉ out.map Prod.fst → (keyAt keys i).isSome) ∧
      ((List.range keys.length).map (keyAfter keys out)).Pairwise (fun a b => textLt a b = true) ∧ ∀ e ∈ out, e.2 ≠ [] := by
  obtain ⟨hsorted, -, hne⟩ := newKeys_sorted (kept_kept keys) h
  refine ⟨?_, fun i hi hnot => ?_, hsorted, hne⟩
  · rw [newKeys_places h]
    exact List.filter_sublist
  · have hk : i ∈ kept keys := by
      by_contra hk
      rw [newKeys_places h] at hnot
      exact hnot (List.mem_filter.2 ⟨List.mem_range.2 hi, by simpa using hk⟩)
    obtain ⟨k, hk⟩ := (kept_kept keys).key i (List.mem_range.2 hi) hk
    simp [hk]

theorem reorderKeys_ok (hkey : ∀ i k, keyAt keys i = some k → IsKey k) : ∃ out, reorderKeys keys = .ok out :=
  newKeys_ok (kept_kept keys) (by simp) hkey

/-- One key of four is moved to the front. -/
example : (reorderKeys [some "m".toList, some "a".toList, some "c".toList, some "d".toList]).toOption =
    some [(0, "I".toList)] := by decide +kernel

end Savoire.MindMap
