import Savoire.Base.Comparisons

/-! The rows of documents, sorted and grouped by the client as the documents are by the engine. -/
namespace Savoire.Base
open Query InMemory
open StableSort (Sorter Consistent)

def FirstPresent (v : Option PropertyValue) : Prop :=
  ∀ x xs, v = some (.list (x :: xs)) → isEmptyValue (some (.scalar x)) = false

structure SortSafe (host : ClientHost) (formula : FormulaLookup host.toEngineHost) (docs : List IndexedDoc)
    (s : QuerySort) : Prop where
  readable : ∀ d ∈ docs, Readable host d.toEvalDoc s.field
  first : ∀ d ∈ docs, FirstPresent (InMemory.fieldOf host.toEngineHost d.toEvalDoc (toEngineField host formula s.field))
  apart : ∀ d ∈ docs, ∀ d' ∈ docs, ∀ x t,
    (sortKey host.toHost (InMemory.fieldOf host.toEngineHost d.toEvalDoc (toEngineField host formula s.field))).raw =
      .num x →
    (sortKey host.toHost (InMemory.fieldOf host.toEngineHost d'.toEvalDoc (toEngineField host formula s.field))).raw =
      .text t → readsAsNumber host t = false

variable {v w : Option PropertyValue} {docs : List IndexedDoc}

section Sorting
variable {host : ClientHost} {formula : FormulaLookup host.toEngineHost}

theorem firstValue_key (host : ClientHost) (h : Alike v w) (hfirst : FirstPresent w) :
    isEmptyValue (firstValue v) = (sortKey host.toHost w).empty ∧
      ((sortKey host.toHost w).empty = false → scalarOf (firstValue v) = (sortKey host.toHost w).raw) := by
  have hvoid : ∀ v : Option PropertyValue, isEmptyValue v = true →
      isEmptyValue (firstValue v) = true ∧ (sortKey host.toHost v).empty = true := by
    intro v hv
    match v with
    | none => exact ⟨rfl, rfl⟩
    | some (.scalar .null) => exact ⟨rfl, rfl⟩
    | some (.scalar (.text [])) => exact ⟨rfl, rfl⟩
    | some (.list []) => exact ⟨rfl, rfl⟩
  obtain rfl | ⟨hv, hw⟩ := h
  · match v with
    | none => exact ⟨rfl, nofun⟩
    | some (.scalar .null) => exact ⟨rfl, nofun⟩
    | some (.scalar (.text [])) => exact ⟨rfl, nofun⟩
    | some (.scalar (.text (c :: cs))) => exact ⟨rfl, fun _ => rfl⟩
    | some (.scalar (.num n)) => exact ⟨rfl, fun _ => rfl⟩
    | some (.scalar (.bool b)) => exact ⟨rfl, fun _ => rfl⟩
    | some (.list []) => exact ⟨rfl, nofun⟩
    | some (.list (x :: xs)) => exact ⟨hfirst x xs rfl, fun _ => rfl⟩
  · rw [(hvoid v hv).1, (hvoid w hw).2]
    exact ⟨rfl, nofun⟩

theorem key_text (w : Option PropertyValue) (h : (sortKey host.toHost w).empty = false) :
    (sortKey host.toHost w).text host.toHost = foldText host.toHost ((sortKey host.toHost w).raw.str host.toHost) := by
  obtain ⟨hempty, -⟩ | ⟨-, htext, -⟩ := key_place host.toHost w
  · simp [h] at hempty
  · exact htext

theorem compareKeys_eq (hv : (sortKey host.toHost v).empty = false) (hw : (sortKey host.toHost w).empty = false)
    (hapart : ∀ x t, (sortKey host.toHost v).raw = .num x → (sortKey host.toHost w).raw = .text t →
      readsAsNumber host t = false) :
    compareScalar host (sortKey host.toHost v).raw (.scalar (sortKey host.toHost w).raw) =
      compareKeys host.toHost (sortKey host.toHost v) (sortKey host.toHost w) := by
  have hengine : compareScalar host (sortKey host.toHost v).raw (.scalar (sortKey host.toHost w).raw) =
      Query.compareScalar host.toHost (sortKey host.toHost v).raw (.scalar (sortKey host.toHost w).raw) := by
    cases hb : (sortKey host.toHost w).raw with
    | text t =>
      by_cases hnum : ∃ x, (sortKey host.toHost v).raw = .num x
      · obtain ⟨x, hx⟩ := hnum
        exact compareScalar_of_unread (hapart x t hx hb)
      · exact compareScalar_of_not_num fun x hx => hnum ⟨x, hx⟩
    | _ => exact compareScalar_of_not_text (by simp)
  rw [hengine]
  unfold compareKeys
  split
  next x y hx hy => rw [hx, hy]; rfl
  next x y hx hy => rw [hx, hy]; rfl
  next hnum hbool =>
    rw [compareScalar_eq_textSign, key_text v hv, key_text w hw]
    · rfl
    · rintro x y ⟨hx, hy⟩
      exact hnum x y hx (PropertyValue.scalar.inj hy)
    · rintro x y ⟨hx, hy⟩
      exact hbool x y hx (PropertyValue.scalar.inj hy)

theorem compareFrom_cons {s s' : QuerySort} {sorts sorts' : List QuerySort}
    {vs ws : List (Option PropertyValue)} {j k : SortKey} {js ks : List SortKey} {ids : Query.Num}
    (hdesc : s'.desc = s.desc) (hv : isEmptyValue v = j.empty) (hw : isEmptyValue w = k.empty)
    (hcompare : j.empty = false → k.empty = false →
      compareScalar host (scalarOf v) (.scalar (scalarOf w)) = compareKeys host.toHost j k)
    (hrest : compareFrom host ids sorts vs ws = InMemory.compareFrom host.toHost ids sorts' js ks) :
    compareFrom host ids (s :: sorts) (v :: vs) (w :: ws) =
      InMemory.compareFrom host.toHost ids (s' :: sorts') (j :: js) (k :: ks) := by
  simp only [compareFrom, InMemory.compareFrom, hrest, hv, hw, hdesc]
  by_cases hj : j.empty = true
  · by_cases hk : k.empty = true <;> simp [hj, hk]
  · by_cases hk : k.empty = true
    · simp [hj, hk]
    · rw [Bool.not_eq_true] at hj hk
      rw [hcompare hj hk]
      simp [hj, hk]

theorem compareFrom_eq {sorts : List QuerySort}
    (hsafe : ∀ s ∈ sorts, SortSafe host formula docs s) {d d' : IndexedDoc} (hd : d ∈ docs) (hd' : d' ∈ docs)
    {row row' : QueryRow} (hrow : Shows row d.toEvalDoc) (hrow' : Shows row' d'.toEvalDoc) (ids : Query.Num) :
    compareFrom host ids sorts (keysOf host formula sorts row) (keysOf host formula sorts row') =
      InMemory.compareFrom host.toHost ids (sorts.map (toEngineSort host formula))
        (InMemory.keysOf host.toEngineHost (sorts.map (toEngineSort host formula)) d)
        (InMemory.keysOf host.toEngineHost (sorts.map (toEngineSort host formula)) d') := by
  induction sorts with
  | nil => rfl
  | cons s sorts ih =>
    have hs := hsafe s List.mem_cons_self
    have hkey := firstValue_key host (hrow.fieldOf formula (hs.readable d hd)) (hs.first d hd)
    have hkey' := firstValue_key host (hrow'.fieldOf formula (hs.readable d' hd')) (hs.first d' hd')
    refine compareFrom_cons rfl hkey.1 hkey'.1 (fun he he' => ?_) (ih fun s hs => hsafe s (List.mem_cons_of_mem _ hs))
    rw [hkey.2 he, hkey'.2 he']
    exact compareKeys_eq he he' (hs.apart d hd d' hd')

theorem sortRows_eq (sorter : Sorter) {docs' : List IndexedDoc} {sorts : List QuerySort}
    {row : IndexedDoc → QueryRow} (hids : (docs.map (·.id)).Nodup)
    (horder : Orderly host.toHost (sorts.map (toEngineSort host formula))
      (docs.map (rowFor host.toEngineHost (sorts.map (toEngineSort host formula)))))
    (hsafe : ∀ s ∈ sorts, SortSafe host formula docs s) (hp : docs'.Perm docs)
    (hrow : ∀ d ∈ docs, Shows (row d) d.toEvalDoc) :
    sortRows host formula sorter (docs'.map row) sorts =
      (sortDocs host.toEngineHost sorter docs (sorts.map (toEngineSort host formula))).map row := by
  let keyed : IndexedDoc → KeyedRow := fun d => (row d, keysOf host formula sorts (row d))
  have hcmp : ∀ a ∈ docs, ∀ b ∈ docs, compareKeyed host sorts (keyed a) (keyed b) =
      InMemory.compareKeyed host.toEngineHost (sorts.map (toEngineSort host formula))
        (a, InMemory.keysOf host.toEngineHost (sorts.map (toEngineSort host formula)) a)
        (b, InMemory.keysOf host.toEngineHost (sorts.map (toEngineSort host formula)) b) := by
    intro a ha b hb
    have hrows := compareFrom_eq hsafe ha hb (hrow a ha) (hrow b hb) (compareIds a.id b.id)
    rw [compareKeyed, InMemory.compareKeyed, (hrow a ha).id, (hrow b hb).id, hrows]
  obtain ⟨hcons, hstrict⟩ := (orderly_iff_consistent hids).1 horder
  have hinj : ∀ a ∈ docs, ∀ b ∈ docs, keyed a = keyed b → a = b := by
    intro a ha b hb hab
    have hid := congrArg (fun k => k.1.id) hab
    rw [(hrow a ha).id, (hrow b hb).id] at hid
    exact List.inj_on_of_nodup_map hids ha hb hid
  have hsorted := sorter.apply_eq_of_strict (l := docs'.map keyed)
    (m := (sortDocs host.toEngineHost sorter docs (sorts.map (toEngineSort host formula))).map keyed)
    ?_ ((hcons.map hcmp).perm (hp.map keyed)) ?_
    (((sortDocs_perm sorter docs _).trans hp.symm).map keyed) ?_
  · rw [sortRows, List.map_map]
    exact (congrArg (List.map Prod.fst) hsorted).trans List.map_map
  · exact (hp.nodup_iff.2 hids.of_map).map_on fun a ha b hb => hinj a (hp.subset ha) b (hp.subset hb)
  · rw [List.forall_mem_map]
    intro a ha
    rw [List.forall_mem_map]
    intro b hb hne
    rw [hcmp a (hp.subset ha) b (hp.subset hb)]
    refine hstrict _ (List.mem_map_of_mem (hp.subset ha)) _ (List.mem_map_of_mem (hp.subset hb)) fun hab => hne ?_
    exact congrArg keyed (congrArg Prod.fst hab)
  · rw [List.pairwise_map]
    refine (sortDocs_pairwise sorter hids horder).imp_of_mem fun {a b} ha hb hab => ?_
    rwa [hcmp a (mem_sortDocs ha) b (mem_sortDocs hb), compareKeyed_eq]

end Sorting

section Groups
variable {host : ClientHost} {formula : FormulaLookup host.toEngineHost}

def groupsInOrder (host : EngineHost) (docs : List IndexedDoc) (field : Field) : List QueryGroup :=
  ((docs.flatMap fun d => groupKeys (InMemory.fieldOf host d.toEvalDoc field)).foldl (countKey host) []).map (·.2)

/-- The documents have a field that the client reads, and of two keys that are as frequent, the one
that the engine puts first appears first. -/
structure GroupSafe (host : ClientHost) (formula : FormulaLookup host.toEngineHost) (docs : List IndexedDoc)
    (field : Field) : Prop where
  readable : ∀ d ∈ docs, Readable host d.toEvalDoc field
  consistent : Consistent (fun a b => sign (compareGroups host.toEngineHost a b))
    (groupsInOrder host.toEngineHost docs (toEngineField host formula field))
  ties : ∀ a b, [a, b].Sublist (groupsInOrder host.toEngineHost docs (toEngineField host formula field)) →
    a.count = b.count → sign (compareGroups host.toEngineHost a b) ≠ .gt

theorem groupKeys_alike (h : Alike v w) : groupKeys v = groupKeys w := by
  obtain rfl | ⟨hv, hw⟩ := h
  · rfl
  · simp only [groupKeys, hv, hw, if_true]

structure Counts (host : EngineHost) (counts : List (Text × QueryGroup)) : Prop where
  ids : ∀ e ∈ counts, e.1 = groupId host e.2.key
  nodup : (counts.map (·.1)).Nodup

theorem Counts.countKey {host : EngineHost} {counts : List (Text × QueryGroup)} (h : Counts host counts)
    (key : Scalar) : Counts host (countKey host counts key) := by
  unfold InMemory.countKey
  dsimp only
  split
  next hmem =>
    have hfst : (counts.map fun e => if e.1 = groupId host key then
        (groupId host key, { e.2 with count := e.2.count + 1 }) else e).map (·.1) = counts.map (·.1) := by
      rw [List.map_map]
      refine List.map_congr_left fun e _ => ?_
      by_cases he : e.1 = groupId host key <;> simp [he]
    refine ⟨?_, hfst ▸ h.nodup⟩
    intro e he
    obtain ⟨e, he', rfl⟩ := List.mem_map.1 he
    have hid := h.ids e he'
    by_cases hkey : e.1 = groupId host key
    · rw [if_pos hkey]
      exact hkey.symm.trans hid
    · rw [if_neg hkey]
      exact hid
  next hmem =>
    refine ⟨?_, ?_⟩
    · intro e he
      obtain he | he := List.mem_append.1 he
      · exact h.ids e he
      · rw [List.mem_singleton.1 he]
    · rw [List.map_append]
      exact h.nodup.append (List.nodup_singleton _) (by simpa using hmem)

theorem groupsInOrder_nodup (host : EngineHost) (docs : List IndexedDoc) (field : Field) :
    (groupsInOrder host docs field).Nodup := by
  have hcounts : ∀ (keys : List Scalar) counts, Counts host counts →
      Counts host (keys.foldl (countKey host) counts) := by
    intro keys
    induction keys with
    | nil => exact fun _ h => h
    | cons key keys ih => exact fun counts h => ih _ (h.countKey key)
  have h := hcounts (docs.flatMap fun d => groupKeys (InMemory.fieldOf host d.toEvalDoc field)) []
    ⟨by simp, List.nodup_nil⟩
  refine h.nodup.of_map.map_on fun a ha b hb hab => ?_
  have hid : a.1 = b.1 := by rw [h.ids a ha, h.ids b hb, hab]
  exact List.inj_on_of_nodup_map h.nodup ha hb hid

theorem consistent_counts (groups : List QueryGroup) :
    Consistent (fun a b : QueryGroup => sign (.fin ((b.count : ℚ) - a.count))) groups where
  swap a _ b _ := by
    have hneg : (a.count : ℚ) - b.count = -((b.count : ℚ) - a.count) := (neg_sub _ _).symm
    have hswap := sign_negate (.fin ((b.count : ℚ) - a.count))
    rw [hneg]
    exact hswap
  trans a _ b _ c _ hab hbc := by
    simp only [sign, ne_eq, compare_gt_iff_gt, sub_pos, Nat.cast_lt, not_lt] at hab hbc ⊢
    exact hbc.trans hab

theorem compareGroups_of_count {host : EngineHost} {a b : QueryGroup}
    (h : sign (.fin ((b.count : ℚ) - a.count)) ≠ .eq) :
    sign (compareGroups host a b) = sign (.fin ((b.count : ℚ) - a.count)) := by
  have hne : a.count ≠ b.count := by
    intro heq
    simp [heq, sign] at h
  rw [compareGroups, if_pos hne]

theorem groupsOf_eq (sorter : Sorter) {field : Field} {row : IndexedDoc → QueryRow}
    (hrow : ∀ d ∈ docs, Shows (row d) d.toEvalDoc) (hsafe : GroupSafe host formula docs field) :
    groupsOf host formula sorter (docs.map row) field =
      groupDocs host.toEngineHost sorter docs (toEngineField host formula field) := by
  have hkeys : ((docs.map row).flatMap fun row => groupKeys (fieldOf host formula row field)) =
      docs.flatMap fun d =>
        groupKeys (InMemory.fieldOf host.toEngineHost d.toEvalDoc (toEngineField host formula field)) := by
    rw [List.flatMap_map]
    exact List.flatMap_congr fun d hd => groupKeys_alike ((hrow d hd).fieldOf formula (hsafe.readable d hd))
  rw [groupsOf, hkeys]
  refine (sorter.apply_eq_finer_iff (groupsInOrder_nodup host.toEngineHost docs _) (consistent_counts _)
    hsafe.consistent fun _ _ => compareGroups_of_count).2 fun a b hsub heq => hsafe.ties a b hsub ?_
  have hzero := (sign_eq_eq (by simp)).1 heq
  have hcount : (b.count : ℚ) - a.count = 0 := Query.Num.fin.inj hzero
  exact_mod_cast (sub_eq_zero.1 hcount).symm

end Groups

end Savoire.Base
