import Savoire.Library.Increasing
import Savoire.Query.Compare

/-! Sort keys of siblings: a key between two others, and as few new keys as an order of the siblings
needs. -/
namespace Savoire.MindMap
open Query (textLt)

def digits : Text := "0123456789ABCDEFGHIJKLMNOPQRSTUVWXYZabcdefghijklmnopqrstuvwxyz".toList

def base : Nat := digits.length

def digitValue (c : Char) : Except Text Nat :=
  match digits.idxOf? c with
  | some v => .ok v
  | none => .error ("cle de tri invalide : ".toList ++ [c])

def digitAt (v : Nat) : Char := digits.getD v '0'

/-- `midpoint(a, null)` -/
def midpointAfter : Text → Except Text Text
  | [] => .ok [digitAt (base / 2)]
  | c :: a => do
    let da ← digitValue c
    if da + 1 < base then return [digitAt ((da + base) / 2)]
    return digitAt da :: (← midpointAfter a)

/-- `a ? digitValue(a[0]) : 0` -/
def firstValue : Text → Except Text Nat
  | [] => .ok 0
  | d :: _ => digitValue d

/-- `midpoint(a, b)`, digit by digit along what `b` has in common with `a` and zeros. -/
def midpoint : Text → Text → Except Text Text
  | _, [] => .error "cle de tri invalide : undefined".toList
  | a, c :: b => do
    if a.headD '0' = c then return c :: (← midpoint a.tail b)
    let da ← firstValue a
    let db ← digitValue c
    if da + 1 < db then return [digitAt ((da + db) / 2)]
    if b ≠ [] then return [c]
    return digitAt da :: (← midpointAfter a.tail)

def keyBetween (before after : Option Text) : Except Text Text :=
  match before, after with
  | some a, some b =>
    if textLt a b then midpoint a b else .error ("cles de tri dans le desordre : ".toList ++ a ++ " >= ".toList ++ b)
  | before, some b => midpoint (before.getD []) b
  | before, none => midpointAfter (before.getD [])

theorem textLt_nil (c : Char) (a : Text) : textLt [] (c :: a) = true := by
  have h : ∃ u us, (c :: a).flatMap Utf.utf16 = u :: us := by
    rw [List.flatMap_cons]
    unfold Utf.utf16
    by_cases hc : c.toNat < 0x10000
    · exact ⟨c.toNat, _, by simp only [hc, if_true]; rfl⟩
    · exact ⟨_, _, by simp only [hc, if_false]; rfl⟩
  obtain ⟨u, us, hu⟩ := h
  simp [textLt, hu]

theorem textLt_cons (c : Char) (a b : Text) : textLt (c :: a) (c :: b) = textLt a b := by
  simp only [textLt, List.flatMap_cons, Utf.append_lt_append_left]

variable {c d : Char}

theorem textLt_of_ne (hc : c.toNat < 0x10000) (hd : d.toNat < 0x10000) (hne : c ≠ d) (a b : Text) :
    textLt (c :: a) (d :: b) = decide (c.toNat < d.toNat) := by
  have hnat : c.toNat ≠ d.toNat := fun h => hne (Char.toNat_inj.1 h)
  simp [textLt, Utf.utf16, hc, hd, List.cons_lt_cons_iff, hnat]

variable {a b : Text}

theorem textLt_trans {c : Text} (hab : textLt a b = true) (hbc : textLt b c = true) : textLt a c = true := by
  simp only [textLt, decide_eq_true_eq] at *
  exact hab.trans hbc

theorem digits_lt : digits.Pairwise fun c d => c.toNat < d.toNat := by decide +kernel

theorem digits_ascii : ∀ c ∈ digits, c.toNat < 0x10000 := by
  have hall : digits.all (fun c => decide (c.toNat < 0x10000)) = true := by decide
  exact fun c hc => of_decide_eq_true (List.all_eq_true.1 hall c hc)

variable {v : Nat}

theorem digitValue_ok (h : digitValue c = .ok v) : digits[v]? = some c := by
  unfold digitValue at h
  cases hidx : digits.idxOf? c with
  | none => rw [hidx] at h; cases h
  | some w =>
    rw [hidx] at h
    cases h
    obtain ⟨hv, heq, -⟩ := List.findIdx?_eq_some_iff_getElem.1 hidx
    rw [List.getElem?_eq_getElem hv]
    simpa using heq

theorem digitValue_of_mem (h : c ∈ digits) : ∃ v, digitValue c = .ok v := by
  unfold digitValue
  cases hidx : digits.idxOf? c with
  | none => rw [List.idxOf?_eq_none_iff] at hidx; exact absurd h hidx
  | some v => exact ⟨v, rfl⟩

theorem digitAt_of_lt (h : v < base) : digits[v]? = some (digitAt v) := by
  rw [digitAt, List.getD_eq_getElem?_getD, List.getElem?_eq_getElem h]
  rfl

theorem textLt_digits {w : Nat} (hc : digits[v]? = some c) (hd : digits[w]? = some d) (hvw : v < w)
    (a b : Text) : textLt (c :: a) (d :: b) = true := by
  obtain ⟨hv, rfl⟩ := List.getElem?_eq_some_iff.1 hc
  obtain ⟨hw, rfl⟩ := List.getElem?_eq_some_iff.1 hd
  have hlt := List.pairwise_iff_getElem.1 digits_lt v w hv hw hvw
  have hne : digits[v] ≠ digits[w] := fun h => by rw [h] at hlt; omega
  rw [textLt_of_ne (digits_ascii _ (List.getElem_mem hv)) (digits_ascii _ (List.getElem_mem hw)) hne]
  simpa using hlt

theorem lt_of_textLt {w : Nat} (hc : digits[v]? = some c) (hd : digits[w]? = some d) (hne : c ≠ d)
    (h : textLt (c :: a) (d :: b) = true) : v < w := by
  by_contra hge
  have hvw : v ≠ w := by
    rintro rfl
    rw [hc, Option.some.injEq] at hd
    exact hne hd
  have hback := textLt_digits hd hc (by omega) b a
  have := textLt_trans h hback
  rw [Query.textLt_irrefl] at this
  exact absurd this (by decide)

theorem digitAt_zero : digits[0]? = some '0' := by decide

variable {k : Text}

theorem lt_midpointAfter (h : midpointAfter a = .ok k) : textLt a k = true := by
  induction a generalizing k with
  | nil =>
    cases h
    exact textLt_nil _ _
  | cons c a ih =>
    rw [midpointAfter] at h
    cases hda : digitValue c with
    | error e => rw [hda] at h; cases h
    | ok da =>
      have hc := digitValue_ok hda
      rw [hda] at h
      by_cases hlt : da + 1 < base
      · simp only [bind, Except.bind, hlt, ↓reduceIte, pure, Except.pure, Except.ok.injEq] at h
        subst h
        exact textLt_digits hc (digitAt_of_lt (by omega)) (by omega) _ _
      · cases hrest : midpointAfter a with
        | error e => simp [bind, Except.bind, hlt, hrest] at h
        | ok r =>
          simp only [bind, Except.bind, hlt, hrest, ↓reduceIte, pure, Except.pure, Except.ok.injEq] at h
          have hat : digitAt da = c := by
            rw [digitAt, List.getD_eq_getElem?_getD, hc]
            rfl
          rw [← h, hat, textLt_cons]
          exact ih hrest

theorem midpoint_tail (hhead : a.headD '0' = c) :
    midpoint a (c :: b) = .ok k ↔ ∃ r, midpoint a.tail b = .ok r ∧ k = c :: r := by
  rw [midpoint, if_pos hhead]
  cases midpoint a.tail b with
  | error e => simp [bind, Except.bind]
  | ok r => simp [bind, Except.bind, pure, Except.pure, eq_comm]

theorem midpoint_head (hhead : a.headD '0' ≠ c) :
    midpoint a (c :: b) = .ok k ↔ ∃ da db, firstValue a = .ok da ∧ digitValue c = .ok db ∧
      (da + 1 < db ∧ k = [digitAt ((da + db) / 2)] ∨ ¬ da + 1 < db ∧ b ≠ [] ∧ k = [c] ∨
        ¬ da + 1 < db ∧ b = [] ∧ ∃ r, midpointAfter a.tail = .ok r ∧ k = digitAt da :: r) := by
  rw [midpoint, if_neg hhead]
  cases firstValue a with
  | error e => simp [bind, Except.bind]
  | ok da =>
    cases digitValue c with
    | error e => simp [bind, Except.bind]
    | ok db =>
      by_cases hlt : da + 1 < db
      · simp [bind, Except.bind, pure, Except.pure, hlt, eq_comm]
      · have hle := Nat.not_lt.1 hlt
        by_cases hb : b = []
        · cases midpointAfter a.tail with
          | error e => simp [bind, Except.bind, hlt, hb]
          | ok r => simp [bind, Except.bind, pure, Except.pure, hlt, hle, hb, eq_comm]
        · simp [bind, Except.bind, pure, Except.pure, hlt, hle, hb, eq_comm]

theorem firstValue_lt {da db : Nat} (hhead : a.headD '0' ≠ c) (ha : firstValue a = .ok da)
    (hb : digitValue c = .ok db) (hab : textLt a (c :: b) = true) : da < db := by
  have hc := digitValue_ok hb
  cases a with
  | nil =>
    cases ha
    have hne : db ≠ 0 := by
      rintro rfl
      rw [digitAt_zero, Option.some.injEq] at hc
      exact hhead hc
    omega
  | cons d a => exact lt_of_textLt (digitValue_ok ha) hc hhead hab

theorem textLt_above {da : Nat} (ha : firstValue a = .ok da) (hd : digits[v]? = some d)
    (hlt : da < v) (r : Text) : textLt a (d :: r) = true := by
  cases a with
  | nil => exact textLt_nil _ _
  | cons c a => exact textLt_digits (digitValue_ok ha) hd hlt _ _

theorem midpoint_between (h : midpoint a b = .ok k) (hab : textLt a b = true) :
    textLt a k = true ∧ textLt k b = true := by
  induction b generalizing a k with
  | nil => simp [midpoint] at h
  | cons c b ih =>
    by_cases hhead : a.headD '0' = c
    · obtain ⟨r, hr, rfl⟩ := (midpoint_tail hhead).1 h
      rw [textLt_cons]
      cases a with
      | nil =>
        have hb : ∃ d b', b = d :: b' := by
          cases b with
          | nil => simp [midpoint] at hr
          | cons d b' => exact ⟨d, b', rfl⟩
        obtain ⟨d, b', rfl⟩ := hb
        exact ⟨textLt_nil _ _, (ih hr (textLt_nil _ _)).2⟩
      | cons d a =>
        obtain rfl : d = c := hhead
        rw [textLt_cons] at hab ⊢
        exact ih hr hab
    · obtain ⟨da, db, hda, hdb, hk⟩ := (midpoint_head hhead).1 h
      have hc := digitValue_ok hdb
      have hlt := firstValue_lt hhead hda hdb hab
      have hbase : db < base := (List.getElem?_eq_some_iff.1 hc).1
      obtain ⟨hgap, rfl⟩ | ⟨-, hb, rfl⟩ | ⟨-, rfl, r, hr, rfl⟩ := hk
      · have hmid := digitAt_of_lt (v := (da + db) / 2) (by omega)
        exact ⟨textLt_above hda hmid (by omega) _, textLt_digits hmid hc (by omega) _ _⟩
      · obtain ⟨d, b', rfl⟩ := List.exists_cons_of_ne_nil hb
        refine ⟨textLt_above hda hc hlt _, ?_⟩
        rw [textLt_cons]
        exact textLt_nil _ _
      · have hat := digitAt_of_lt (v := da) (by omega)
        refine ⟨?_, textLt_digits hat hc hlt _ _⟩
        cases a with
        | nil => exact textLt_nil _ _
        | cons d a =>
          have hd := digitValue_ok hda
          rw [hat, Option.some.injEq] at hd
          rw [hd, textLt_cons]
          exact lt_midpointAfter hr

theorem keyBetween_spec {before after : Option Text} (h : keyBetween before after = .ok k)
    (hlt : ∀ a ∈ before, ∀ b ∈ after, textLt a b = true) :
    k ≠ [] ∧ (∀ a ∈ before, textLt a k = true) ∧ ∀ b ∈ after, textLt k b = true := by
  have hne : ∀ {a : Text}, textLt a k = true → k ≠ [] := by
    rintro a ha rfl
    simp [textLt] at ha
  cases after with
  | none =>
    have hlt : textLt (before.getD []) k = true := by
      cases before <;> exact lt_midpointAfter h
    refine ⟨hne hlt, ?_, by simp⟩
    rintro a ⟨⟩
    exact hlt
  | some b =>
    cases before with
    | none =>
      have hb : ∃ d b', b = d :: b' := by
        cases b with
        | nil => simp [keyBetween, midpoint] at h
        | cons d b' => exact ⟨d, b', rfl⟩
      obtain ⟨d, b', rfl⟩ := hb
      obtain ⟨hk, hkb⟩ := midpoint_between h (textLt_nil _ _)
      exact ⟨hne hk, by simp, by simpa using hkb⟩
    | some a =>
      have hab := hlt a rfl b rfl
      simp only [keyBetween, hab, ↓reduceIte] at h
      obtain ⟨hk, hkb⟩ := midpoint_between h hab
      exact ⟨hne hk, by simpa using hk, by simpa using hkb⟩

/-- Digits that do not end in zero, so that there is place before them. -/
def IsKey (k : Text) : Prop := k ≠ [] ∧ k ⊆ digits ∧ k.getLast? ≠ some '0'

instance (k : Text) : Decidable (IsKey k) := inferInstanceAs (Decidable (_ ∧ _ ∧ _))

theorem digitAt_mem (h : v < base) : digitAt v ∈ digits := List.mem_of_getElem? (digitAt_of_lt h)

theorem isKey_digit (hpos : 0 < v) (h : v < base) : IsKey [digitAt v] := by
  refine ⟨by simp, by simpa using digitAt_mem h, ?_⟩
  rw [List.getLast?_singleton, ne_eq, Option.some.injEq]
  intro hzero
  have hlt := textLt_digits digitAt_zero (digitAt_of_lt h) hpos [] []
  rw [hzero, textLt_cons, Query.textLt_irrefl] at hlt
  exact absurd hlt (by decide)

theorem IsKey.cons (h : IsKey k) (hc : c ∈ digits) : IsKey (c :: k) := by
  obtain ⟨hne, hsub, hlast⟩ := h
  refine ⟨by simp, by simp [hc, hsub], ?_⟩
  obtain ⟨d, k, rfl⟩ := List.exists_cons_of_ne_nil hne
  rwa [List.getLast?_cons_cons]

theorem IsKey.tail (h : IsKey (c :: k)) (hk : k ≠ []) : IsKey k := by
  obtain ⟨-, hsub, hlast⟩ := h
  obtain ⟨d, k, rfl⟩ := List.exists_cons_of_ne_nil hk
  exact ⟨hk, (List.cons_subset.1 hsub).2, hlast⟩

theorem midpointAfter_isKey (ha : a ⊆ digits) : ∃ k, midpointAfter a = .ok k ∧ IsKey k := by
  induction a with
  | nil => exact ⟨_, rfl, by decide⟩
  | cons c a ih =>
    rw [List.cons_subset] at ha
    obtain ⟨da, hda⟩ := digitValue_of_mem ha.1
    have hlt : da < base := (List.getElem?_eq_some_iff.1 (digitValue_ok hda)).1
    rw [midpointAfter, hda]
    by_cases hgap : da + 1 < base
    · refine ⟨[digitAt ((da + base) / 2)], ?_, isKey_digit (by omega) (by omega)⟩
      simp [bind, Except.bind, pure, Except.pure, hgap]
    · obtain ⟨r, hr, hkey⟩ := ih ha.2
      exact ⟨_, by simp [bind, Except.bind, pure, Except.pure, hgap, hr], hkey.cons (digitAt_mem hlt)⟩

theorem firstValue_of_subset (ha : a ⊆ digits) : ∃ da, firstValue a = .ok da := by
  cases a with
  | nil => exact ⟨0, rfl⟩
  | cons d a => exact digitValue_of_mem (List.cons_subset.1 ha).1

theorem midpoint_isKey (ha : a ⊆ digits) (hb : IsKey b) (hab : textLt a b = true) :
    ∃ k, midpoint a b = .ok k ∧ IsKey k := by
  induction b generalizing a with
  | nil => exact absurd rfl hb.1
  | cons c b ih =>
    have hc : c ∈ digits := (List.cons_subset.1 hb.2.1).1
    by_cases hhead : a.headD '0' = c
    · have hne : b ≠ [] := by
        rintro rfl
        cases a with
        | nil =>
          obtain rfl : '0' = c := hhead
          exact hb.2.2 rfl
        | cons d a =>
          obtain rfl : d = c := hhead
          rw [textLt_cons] at hab
          simp [textLt] at hab
      have htail : textLt a.tail b = true := by
        cases a with
        | nil =>
          obtain ⟨d, b, rfl⟩ := List.exists_cons_of_ne_nil hne
          exact textLt_nil _ _
        | cons d a =>
          obtain rfl : d = c := hhead
          rwa [textLt_cons] at hab
      obtain ⟨r, hr, hkey⟩ := ih (fun _ hx => ha (List.mem_of_mem_tail hx)) (hb.tail hne) htail
      exact ⟨_, (midpoint_tail hhead).2 ⟨r, hr, rfl⟩, hkey.cons hc⟩
    · obtain ⟨da, hda⟩ := firstValue_of_subset ha
      obtain ⟨db, hdb⟩ := digitValue_of_mem hc
      have hlt := firstValue_lt hhead hda hdb hab
      have hcv := digitValue_ok hdb
      have hbase : db < base := (List.getElem?_eq_some_iff.1 hcv).1
      by_cases hgap : da + 1 < db
      · exact ⟨_, (midpoint_head hhead).2 ⟨da, db, hda, hdb, .inl ⟨hgap, rfl⟩⟩, isKey_digit (by omega) (by omega)⟩
      · by_cases hnil : b = []
        · obtain ⟨r, hr, hkey⟩ := midpointAfter_isKey (a := a.tail) fun _ hx => ha (List.mem_of_mem_tail hx)
          exact ⟨_, (midpoint_head hhead).2 ⟨da, db, hda, hdb, .inr (.inr ⟨hgap, hnil, r, hr, rfl⟩)⟩,
            hkey.cons (digitAt_mem (by omega))⟩
        · refine ⟨_, (midpoint_head hhead).2 ⟨da, db, hda, hdb, .inr (.inl ⟨hgap, hnil, rfl⟩)⟩, ?_⟩
          have hat : digitAt db = c := Option.some.inj ((digitAt_of_lt hbase).symm.trans hcv)
          exact hat ▸ isKey_digit (by omega) hbase

theorem keyBetween_isKey {before after : Option Text} (hbefore : ∀ a ∈ before, IsKey a)
    (hafter : ∀ b ∈ after, IsKey b) (hlt : ∀ a ∈ before, ∀ b ∈ after, textLt a b = true) :
    ∃ k, keyBetween before after = .ok k ∧ IsKey k := by
  have hsub : before.getD [] ⊆ digits := by
    cases before with
    | none => simp
    | some a => exact (hbefore a rfl).2.1
  cases after with
  | none =>
    obtain ⟨k, hk, hkey⟩ := midpointAfter_isKey hsub
    exact ⟨k, by cases before <;> exact hk, hkey⟩
  | some b =>
    cases before with
    | none =>
      obtain ⟨d, b, rfl⟩ := List.exists_cons_of_ne_nil (hafter b rfl).1
      exact midpoint_isKey hsub (hafter _ rfl) (textLt_nil _ _)
    | some a =>
      have hab := hlt a rfl b rfl
      rw [keyBetween, if_pos hab]
      exact midpoint_isKey hsub (hafter b rfl) hab

end Savoire.MindMap
