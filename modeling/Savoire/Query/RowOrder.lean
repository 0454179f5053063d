import Savoire.Query.Compare

/-! The comparator of `sortDocs`: how rows with any sort keys compare, and when it is a strict
order on them. -/
namespace Savoire.InMemory
open Query

inductive Field
  | stored (f : QueryField)
  | formula (source : Text)
  deriving DecidableEq

structure QuerySort where
  field : Field
  desc : Bool

/-- What `sort` reads in the number that a comparator gives; NaN counts as 0. -/
def sign : Query.Num → Ordering
  | .nan => .eq
  | .negInf => .lt
  | .fin q => compare q 0
  | .posInf => .gt

def negate : Query.Num → Query.Num
  | .nan => .nan
  | .negInf => .posInf
  | .fin q => .fin (-q)
  | .posInf => .negInf

structure SortKey where
  empty : Bool
  raw : Scalar
  folded : Text

section Definitions
variable (host : Host)

def firstScalar : PropertyValue → Scalar
  | .scalar x => x
  | .list xs => xs.headD .null

def sortKey (v : Option PropertyValue) : SortKey :=
  match v with
  | none => ⟨true, .null, []⟩
  | some v =>
    if isEmptyValue (some v) then ⟨true, .null, []⟩
    else
      let raw := firstScalar v
      ⟨false, raw, match raw with
        | .num _ | .bool _ => []
        | raw => foldText host (raw.str host)⟩

/-- `a.folded || fold(String(a.raw))` -/
def SortKey.text (k : SortKey) : Text :=
  if k.folded = [] then foldText host (k.raw.str host) else k.folded

def compareKeys (a b : SortKey) : Query.Num :=
  match a.raw, b.raw with
  | .num x, .num y => x.sub y
  | .bool x, .bool y => .fin (x.toNat - y.toNat)
  | _, _ => textSign (a.text host) (b.text host)

/-- `a < b ? -1 : a > b ? 1 : 0` -/
def compareIds (a b : Text) : Query.Num := textSign a b

/-- The comparator of `sortDocs`, from the keys at hand on. -/
def compareFrom (ids : Query.Num) : List QuerySort → List SortKey → List SortKey → Query.Num
  | s :: sorts, a :: as, b :: bs =>
    if a.empty ≠ b.empty then (if a.empty then .fin 1 else .fin (-1))
    else if a.empty then compareFrom ids sorts as bs
    else
      let c := compareKeys host a b
      if c.ne0 then (if s.desc then negate c else c) else compareFrom ids sorts as bs
  | _, _, _ => ids

end Definitions

/-- A value to sort by: nothing, a number, or a folded text. -/
inductive Place
  | empty
  | num (x : Query.Num)
  | text (t : Text)
  deriving DecidableEq

def place (host : Host) (v : Option PropertyValue) : Place :=
  match v with
  | none => .empty
  | some v =>
    if isEmptyValue (some v) then .empty
    else match firstScalar v with
      | .num x => .num x
      | raw => .text (foldText host (raw.str host))

def cmpNum (x y : Query.Num) : Ordering := sign (x.sub y)

def direct (desc : Bool) (o : Ordering) : Ordering := if desc then o.swap else o

namespace Place
variable (host : Host)

def shown : Place → Text
  | empty => []
  | num x => foldText host (host.numText x)
  | text t => t

/-- Two numbers whose difference is NaN: one of them is NaN, or both are the same infinity. -/
def Lost : Place → Place → Prop
  | num x, num y => x.sub y = .nan
  | _, _ => False

instance : ∀ p q : Place, Decidable (Lost p q)
  | num x, num y => inferInstanceAs (Decidable (x.sub y = .nan))
  | num _, empty | num _, text _ | empty, _ | text _, _ => .isFalse id

def cmp (desc : Bool) (p q : Place) : Ordering :=
  match p, q with
  | empty, empty => .eq
  | empty, _ => .gt
  | _, empty => .lt
  | num x, num y => direct desc (cmpNum x y)
  | p, q => direct desc (cmpText (p.shown host) (q.shown host))

end Place

structure Row where
  places : List Place
  id : Text

namespace Row

def head (a : Row) : Place := a.places.headD .empty
def tail (a : Row) : Row := ⟨a.places.tail, a.id⟩

end Row

/-- The order of two rows by the first sort that tells them apart, else by their ids. -/
def cmpRows (host : Host) : List QuerySort → Row → Row → Ordering
  | [], a, b => cmpText a.id b.id
  | s :: sorts, a, b =>
    if a.head.Lost b.head then .eq
    else (a.head.cmp host s.desc b.head).then (cmpRows host sorts a.tail b.tail)

section Conditions
variable (host : Host)

/-- Two places that a sort does not tell apart. -/
def Place.Tie (p q : Place) : Prop := ¬ p.Lost q ∧ p.cmp host false q = .eq

/-- The first sort that does not find two rows equal finds two numbers whose difference is NaN. -/
def LostFrom : List QuerySort → Row → Row → Prop
  | [], _, _ => False
  | _ :: sorts, a, b => a.head.Lost b.head ∨ a.head.Tie host b.head ∧ LostFrom sorts a.tail b.tail

/-- Two numbers in their order, and a text between theirs in the other one; where the texts are the
same, the sorts that follow decide. -/
def TangleAt (s : QuerySort) (sorts : List QuerySort) (a b c : Row) : Prop :=
  match a.head, b.head, c.head with
  | .num x, .num y, .text t => cmpNum x y = .lt ∧
    (cmpText (Place.shown host (.num y)) t).then (direct s.desc (cmpRows host sorts b.tail c.tail)) = .lt ∧
    (cmpText t (Place.shown host (.num x))).then (direct s.desc (cmpRows host sorts c.tail a.tail)) = .lt
  | _, _, _ => False

/-- Three rows are tangled by the first sort that does not find them all equal. -/
def Tangle : List QuerySort → Row → Row → Row → Prop
  | [], _, _, _ => False
  | s :: sorts, a, b, c => TangleAt host s sorts a b c ∨
    a.head.Tie host b.head ∧ b.head.Tie host c.head ∧ c.head.Tie host a.head ∧
      Tangle sorts a.tail b.tail c.tail

def Orderly (sorts : List QuerySort) (rows : List Row) : Prop :=
  (∀ a ∈ rows, ∀ b ∈ rows, a.id ≠ b.id → ¬ LostFrom host sorts a b) ∧
    ∀ a ∈ rows, ∀ b ∈ rows, ∀ c ∈ rows, ¬ Tangle host sorts a b c

instance (p q : Place) : Decidable (p.Tie host q) := inferInstanceAs (Decidable (_ ∧ _))

instance LostFrom.decidable : ∀ (sorts : List QuerySort) (a b : Row), Decidable (LostFrom host sorts a b)
  | [], _, _ => .isFalse id
  | _ :: sorts, a, b =>
    have := LostFrom.decidable sorts a.tail b.tail
    inferInstanceAs (Decidable (_ ∨ _ ∧ _))

instance (s : QuerySort) (sorts : List QuerySort) (a b c : Row) :
    Decidable (TangleAt host s sorts a b c) := by
  unfold TangleAt
  split <;> infer_instance

instance Tangle.decidable : ∀ (sorts : List QuerySort) (a b c : Row), Decidable (Tangle host sorts a b c)
  | [], _, _, _ => .isFalse id
  | _ :: sorts, a, b, c =>
    have := Tangle.decidable sorts a.tail b.tail c.tail
    inferInstanceAs (Decidable (_ ∨ _ ∧ _))

instance (sorts : List QuerySort) (rows : List Row) : Decidable (Orderly host sorts rows) :=
  inferInstanceAs (Decidable (_ ∧ _))

end Conditions

variable {host : Host}

theorem sign_textSign (a b : Text) : sign (textSign a b) = cmpText a b := by
  unfold textSign cmpText
  split_ifs
  · exact (by decide : compare (-1 : ℚ) 0 = .lt)
  · exact (by decide : compare (1 : ℚ) 0 = .gt)
  · exact (by decide : compare (0 : ℚ) 0 = .eq)

theorem sign_negate (c : Query.Num) : sign (negate c) = (sign c).swap := by
  cases c with
  | fin q =>
    simp only [negate, sign]
    obtain h | h | h := lt_trichotomy q 0
    · rw [compare_lt_iff_lt.2 h, compare_gt_iff_gt.2 (neg_pos.2 h)]
      rfl
    · simp [h]
    · rw [compare_gt_iff_gt.2 h, compare_lt_iff_lt.2 (neg_lt_zero.2 h)]
      rfl
  | nan => rfl
  | negInf => rfl
  | posInf => rfl

theorem sign_eq_eq {c : Query.Num} (h : c ≠ .nan) : sign c = .eq ↔ c = .fin 0 := by
  cases c with
  | fin q => simp [sign]
  | nan => exact absurd rfl h
  | negInf => simp [sign]
  | posInf => simp [sign]

theorem key_place (host : Host) (v : Option PropertyValue) :
    (sortKey host v).empty = true ∧ place host v = .empty ∨
    (sortKey host v).empty = false ∧
      (sortKey host v).text host = foldText host ((sortKey host v).raw.str host) ∧
      place host v = match (sortKey host v).raw with
        | .num x => .num x
        | raw => .text (foldText host (raw.str host)) := by
  cases v with
  | none => exact .inl ⟨rfl, rfl⟩
  | some v =>
    by_cases hempty : isEmptyValue (some v) = true
    · exact .inl (by simp [sortKey, place, hempty])
    · refine .inr ?_
      simp only [sortKey, place, hempty, SortKey.text]
      cases firstScalar v <;> simp

theorem foldText_bool_sign (host : Host) (x y : Bool) :
    sign (.fin ((x.toNat : ℚ) - y.toNat)) =
      cmpText (foldText host ((Scalar.bool x).str host)) (foldText host ((Scalar.bool y).str host)) := by
  rw [foldText_bool, foldText_bool]
  cases x with
  | false =>
    cases y with
    | false => decide +kernel
    | true => decide +kernel
  | true =>
    cases y with
    | false => decide +kernel
    | true => decide +kernel

theorem compareKeys_place {v w : Option PropertyValue} (desc : Bool)
    (hv : (sortKey host v).empty = false) (hw : (sortKey host w).empty = false) :
    (compareKeys host (sortKey host v) (sortKey host w) = .nan ↔ (place host v).Lost (place host w)) ∧
      (¬ (place host v).Lost (place host w) →
        direct desc (sign (compareKeys host (sortKey host v) (sortKey host w))) =
          (place host v).cmp host desc (place host w)) := by
  obtain ⟨h, -⟩ | ⟨-, htv, hpv⟩ := key_place host v
  · simp [hv] at h
  obtain ⟨h, -⟩ | ⟨-, htw, hpw⟩ := key_place host w
  · simp [hw] at h
  have htext : ∀ a b, textSign a b ≠ .nan := by
    intro a b
    unfold textSign
    split_ifs <;> simp
  unfold compareKeys
  rw [hpv, hpw, htv, htw]
  cases (sortKey host v).raw with
  | num x =>
    cases (sortKey host w).raw with
    | num y => exact ⟨Iff.rfl, fun _ => rfl⟩
    | _ => simp [htext, Place.Lost, sign_textSign, Place.cmp, Place.shown, Scalar.str]
  | bool x =>
    cases (sortKey host w).raw with
    | bool y => simp [Place.Lost, Place.cmp, Place.shown, foldText_bool_sign host]
    | _ => simp [htext, Place.Lost, sign_textSign, Place.cmp, Place.shown, Scalar.str]
  | _ =>
    cases (sortKey host w).raw <;>
      simp [htext, Place.Lost, sign_textSign, Place.cmp, Place.shown, Scalar.str]

variable {o r : Ordering}

theorem then_of_ne (h : o ≠ .eq) : o.then r = o := by
  cases o with
  | eq => exact absurd rfl h
  | _ => rfl

theorem sign_compareFrom (f g : QuerySort → Option PropertyValue) (a b : Text)
    (sorts : List QuerySort) :
    sign (compareFrom host (compareIds a b) sorts (sorts.map fun s => sortKey host (f s))
        (sorts.map fun s => sortKey host (g s))) =
      cmpRows host sorts ⟨sorts.map fun s => place host (f s), a⟩
        ⟨sorts.map fun s => place host (g s), b⟩ := by
  induction sorts with
  | nil => exact sign_textSign a b
  | cons s sorts ih =>
    simp only [List.map_cons, compareFrom, cmpRows, Row.head, Row.tail, List.headD_cons, List.tail_cons]
    rw [← ih]
    obtain ⟨hv, hp⟩ | ⟨hv, -, hp⟩ := key_place host (f s)
    · obtain ⟨hw, hq⟩ | ⟨hw, -, hq⟩ := key_place host (g s)
      · simp [hv, hw, hp, hq, Place.Lost, Place.cmp]
      · rw [hv, hw, hp, hq]
        cases (sortKey host (g s)).raw <;> simp [Place.Lost, Place.cmp] <;> decide +kernel
    · obtain ⟨hw, hq⟩ | ⟨hw, -, hq⟩ := key_place host (g s)
      · rw [hv, hw, hp, hq]
        cases (sortKey host (f s)).raw <;> simp [Place.Lost, Place.cmp] <;> decide +kernel
      · obtain ⟨hnan, hcmp⟩ := compareKeys_place s.desc hv hw
        simp only [hv, hw, ne_eq, not_true_eq_false, ↓reduceIte, Bool.false_eq_true]
        by_cases hlost : (place host (f s)).Lost (place host (g s))
        · rw [hnan.2 hlost]
          simp [hlost, Query.Num.ne0, negate, sign]
        · rw [if_neg hlost, ← hcmp hlost]
          have hc : compareKeys host (sortKey host (f s)) (sortKey host (g s)) ≠ .nan :=
            fun h => hlost (hnan.1 h)
          by_cases hzero : compareKeys host (sortKey host (f s)) (sortKey host (g s)) = .fin 0
          · have hsign : sign (.fin 0) = .eq := (sign_eq_eq (by simp)).2 rfl
            cases hd : s.desc <;> simp [hzero, Query.Num.ne0, direct, hsign]
          · have hsign := mt (sign_eq_eq hc).1 hzero
            cases hd : s.desc with
            | false => simp [Query.Num.ne0, hzero, direct, then_of_ne hsign]
            | true =>
              have hswap : (sign (compareKeys host (sortKey host (f s)) (sortKey host (g s)))).swap ≠ .eq := by
                simpa using hsign
              simp [Query.Num.ne0, hzero, direct, sign_negate, then_of_ne hswap]

/-- The place of a number in the order of all numbers but NaN. -/
def numRank : Query.Num → WithBot (WithTop ℚ)
  | .nan | .negInf => ⊥
  | .fin q => ((q : WithTop ℚ) : WithBot (WithTop ℚ))
  | .posInf => ((⊤ : WithTop ℚ) : WithBot (WithTop ℚ))

variable {x y : Query.Num}

theorem cmpNum_eq (h : x.sub y ≠ .nan) :
    cmpNum x y = compareOn numRank x y := by
  rw [compareOn, LinearOrder.compare_eq_compareOfLessAndEq]
  unfold cmpNum compareOfLessAndEq numRank
  cases x with
  | nan => simp [Query.Num.sub] at h
  | negInf =>
    cases y with
    | nan => simp [Query.Num.sub] at h
    | negInf => simp [Query.Num.sub] at h
    | fin q => simp [Query.Num.sub, sign]
    | posInf => simp [Query.Num.sub, sign]
  | fin p =>
    cases y with
    | nan => simp [Query.Num.sub] at h
    | negInf => simp [Query.Num.sub, sign]
    | fin q =>
      simp only [Query.Num.sub, sign, WithBot.coe_lt_coe, WithTop.coe_lt_coe, WithBot.coe_inj, WithTop.coe_inj]
      obtain h | h | h := lt_trichotomy p q
      · simp [h, compare_lt_iff_lt.2 (sub_neg.2 h)]
      · simp [h]
      · simp [h.not_gt, h.ne', compare_gt_iff_gt.2 (sub_pos.2 h)]
    | posInf => simp [Query.Num.sub, sign]
  | posInf =>
    cases y with
    | nan => simp [Query.Num.sub] at h
    | negInf => simp [Query.Num.sub, sign]
    | fin q => simp [Query.Num.sub, sign]
    | posInf => simp [Query.Num.sub] at h

theorem cmpNum_swap (x y : Query.Num) : cmpNum y x = (cmpNum x y).swap := by
  by_cases h : x.sub y = .nan
  · have h' : y.sub x = .nan := by cases x <;> cases y <;> simp_all [Query.Num.sub]
    simp [cmpNum, h, h', sign]
  · have h' : y.sub x ≠ .nan := by cases x <;> cases y <;> simp_all [Query.Num.sub]
    rw [cmpNum_eq h, cmpNum_eq h']
    exact Std.OrientedCmp.eq_swap

theorem direct_swap (d : Bool) (o : Ordering) : direct d o.swap = (direct d o).swap := by
  cases d <;> rfl

theorem direct_eq_eq {d : Bool} : direct d o = .eq ↔ o = .eq := by
  cases d <;> cases o <;> decide

theorem shown_text (t : Text) : Place.shown host (.text t) = t := rfl

theorem cmp_swap (d : Bool) (p q : Place) : q.cmp host d p = (p.cmp host d q).swap := by
  have htext : ∀ a b, cmpText b a = (cmpText a b).swap := fun a b => Std.OrientedCmp.eq_swap
  cases p <;> cases q <;>
    simp [Place.cmp, Place.shown, ← direct_swap, ← cmpNum_swap, ← htext]

variable {p q : Place}

theorem lost_comm : q.Lost p ↔ p.Lost q := by
  cases p with
  | num x =>
    cases q with
    | num y => cases x <;> cases y <;> simp [Place.Lost, Query.Num.sub]
    | _ => rfl
  | _ => cases q <;> rfl

theorem cmp_eq_eq (d : Bool) (p q : Place) : p.cmp host d q = .eq ↔ p.cmp host false q = .eq := by
  cases p <;> cases q <;> simp [Place.cmp, direct_eq_eq]

theorem tie_iff (d : Bool) : p.Tie host q ↔ ¬ p.Lost q ∧ p.cmp host d q = .eq := by
  rw [Place.Tie, cmp_eq_eq d]

theorem tie_comm : q.Tie host p ↔ p.Tie host q := by
  rw [Place.Tie, Place.Tie, lost_comm, cmp_swap false p q, Ordering.swap_eq_eq]

variable {sorts : List QuerySort}

theorem cmpRows_cons {s : QuerySort} {a b : Row}
    (h : ¬ a.head.Lost b.head) : cmpRows host (s :: sorts) a b =
      (a.head.cmp host s.desc b.head).then (cmpRows host sorts a.tail b.tail) := by
  rw [cmpRows, if_neg h]

theorem cmpRows_tie {s : QuerySort} {a b : Row}
    (h : a.head.Tie host b.head) :
    cmpRows host (s :: sorts) a b = cmpRows host sorts a.tail b.tail := by
  obtain ⟨hlost, heq⟩ := (tie_iff s.desc).1 h
  rw [cmpRows_cons hlost, heq]
  rfl

theorem cmpRows_swap (sorts : List QuerySort) (a b : Row) :
    cmpRows host sorts b a = (cmpRows host sorts a b).swap := by
  induction sorts generalizing a b with
  | nil =>
    have hids : cmpText b.id a.id = (cmpText a.id b.id).swap := Std.OrientedCmp.eq_swap
    exact hids
  | cons s sorts ih =>
    by_cases h : a.head.Lost b.head
    · simp [cmpRows, h, lost_comm.2 h]
    · rw [cmpRows_cons h, cmpRows_cons (mt lost_comm.1 h), cmp_swap s.desc a.head b.head,
        ih a.tail b.tail, Ordering.swap_then]

theorem cmpRows_eq_eq {a b : Row} (hid : a.id ≠ b.id) :
    cmpRows host sorts a b = .eq ↔ LostFrom host sorts a b := by
  induction sorts generalizing a b with
  | nil => simpa [cmpRows, LostFrom, cmpText_eq_eq] using hid
  | cons s sorts ih =>
    by_cases h : a.head.Lost b.head
    · simp [cmpRows, LostFrom, h]
    · have hid' : a.tail.id ≠ b.tail.id := hid
      rw [cmpRows_cons h, Ordering.then_eq_eq, ih hid', LostFrom, tie_iff s.desc]
      simp [h]

/-- Each row comes before the next one, and the last before the first. -/
def Cycle (host : Host) (sorts : List QuerySort) (a b c : Row) : Prop :=
  cmpRows host sorts a b = .lt ∧ cmpRows host sorts b c = .lt ∧ cmpRows host sorts c a = .lt

theorem Cycle.rotate {a b c : Row} (h : Cycle host sorts a b c) :
    Cycle host sorts b c a := ⟨h.2.1, h.2.2, h.1⟩

theorem eq_of_cycle {α : Type*} (cmp : α → α → Ordering) [Std.TransCmp cmp] {a b c : α} {s t : Ordering}
    (hab : (cmp a b).then r = .lt) (hbc : (cmp b c).then s = .lt) (hca : (cmp c a).then t = .lt) :
    cmp a b = .eq ∧ cmp b c = .eq ∧ cmp c a = .eq := by
  have hle : ∀ {o r : Ordering}, o.then r = .lt → o.isLE = true := by
    intro o r h
    cases o <;> simp_all
  have hac : (cmp a c).isLE = true := Std.TransCmp.isLE_trans (hle hab) (hle hbc)
  have hba : (cmp b a).isLE = true := Std.TransCmp.isLE_trans (hle hbc) (hle hca)
  have hcb : (cmp c b).isLE = true := Std.TransCmp.isLE_trans (hle hca) (hle hab)
  exact ⟨Std.OrientedCmp.isLE_antisymm (hle hab) hba, Std.OrientedCmp.isLE_antisymm (hle hbc) hcb,
    Std.OrientedCmp.isLE_antisymm (hle hca) hac⟩

instance (d : Bool) {α : Type*} (cmp : α → α → Ordering) [Std.TransCmp cmp] :
    Std.TransCmp fun a b => direct d (cmp a b) := by
  cases d with
  | false => exact ‹Std.TransCmp cmp›
  | true =>
    have hswap : (fun a b => direct true (cmp a b)) = fun a b => cmp b a := by
      funext a b
      exact Std.OrientedCmp.eq_swap.symm
    rw [hswap]
    exact Std.TransCmp.opposite

section Heads
variable {s : QuerySort} {sorts : List QuerySort} {a b c : Row}

theorem not_lost_of_lt (h : cmpRows host (s :: sorts) a b = .lt) : ¬ a.head.Lost b.head := by
  intro hlost
  simp [cmpRows, hlost] at h

/-- The first places of a cycle do not separate its rows. -/
def HeadsTie (host : Host) (a b c : Row) : Prop :=
  a.head.Tie host b.head ∧ b.head.Tie host c.head ∧ c.head.Tie host a.head

/-- In some arrangement the first places tangle three rows. -/
def TangledAt (host : Host) (s : QuerySort) (sorts : List QuerySort) (a b c : Row) : Prop :=
  TangleAt host s sorts a b c ∨ TangleAt host s sorts b c a ∨ TangleAt host s sorts c a b ∨
    TangleAt host s sorts b a c ∨ TangleAt host s sorts c b a ∨ TangleAt host s sorts a c b

theorem headsTie_of_eq (h : Cycle host (s :: sorts) a b c)
    (heq : a.head.cmp host s.desc b.head = .eq ∧ b.head.cmp host s.desc c.head = .eq ∧
      c.head.cmp host s.desc a.head = .eq) : HeadsTie host a b c :=
  ⟨(tie_iff s.desc).2 ⟨not_lost_of_lt h.1, heq.1⟩, (tie_iff s.desc).2 ⟨not_lost_of_lt h.2.1, heq.2.1⟩,
    (tie_iff s.desc).2 ⟨not_lost_of_lt h.2.2, heq.2.2⟩⟩

theorem head_empty_of_lt (h : cmpRows host (s :: sorts) a b = .lt) (ha : a.head = .empty) :
    b.head = .empty := by
  rw [cmpRows_cons (not_lost_of_lt h), ha] at h
  cases hb : b.head <;> simp [Place.cmp, hb] at h ⊢

theorem headsTie_of_empty (h : Cycle host (s :: sorts) a b c) (ha : a.head = .empty) :
    HeadsTie host a b c := by
  have hb := head_empty_of_lt h.1 ha
  have hc := head_empty_of_lt h.2.1 hb
  exact headsTie_of_eq h (by simp [ha, hb, hc, Place.cmp])

theorem head_then_of_lt (h : cmpRows host (s :: sorts) a b = .lt) :
    (a.head.cmp host s.desc b.head).then (cmpRows host sorts a.tail b.tail) = .lt := by
  rw [← cmpRows_cons (not_lost_of_lt h)]
  exact h

theorem headsTie_of_nums (h : Cycle host (s :: sorts) a b c) {z : Query.Num} (ha : a.head = .num x)
    (hb : b.head = .num y) (hc : c.head = .num z) : HeadsTie host a b c := by
  have hxy := not_lost_of_lt h.1
  have hyz := not_lost_of_lt h.2.1
  have hzx := not_lost_of_lt h.2.2
  have hab := head_then_of_lt h.1
  have hbc := head_then_of_lt h.2.1
  have hca := head_then_of_lt h.2.2
  simp only [ha, hb, hc, Place.cmp, Place.Lost] at hab hbc hca hxy hyz hzx
  rw [cmpNum_eq hxy] at hab
  rw [cmpNum_eq hyz] at hbc
  rw [cmpNum_eq hzx] at hca
  have heq := eq_of_cycle (fun x y => direct s.desc (compareOn numRank x y)) hab hbc hca
  refine headsTie_of_eq h ?_
  simpa only [ha, hb, hc, Place.cmp, cmpNum_eq hxy, cmpNum_eq hyz, cmpNum_eq hzx] using heq

theorem headsTie_of_texts (h : Cycle host (s :: sorts) a b c)
    (hab : a.head.cmp host s.desc b.head = direct s.desc (cmpText (a.head.shown host) (b.head.shown host)))
    (hbc : b.head.cmp host s.desc c.head = direct s.desc (cmpText (b.head.shown host) (c.head.shown host)))
    (hca : c.head.cmp host s.desc a.head = direct s.desc (cmpText (c.head.shown host) (a.head.shown host))) :
    HeadsTie host a b c := by
  refine headsTie_of_eq h ?_
  have h₁ := head_then_of_lt h.1
  have h₂ := head_then_of_lt h.2.1
  have h₃ := head_then_of_lt h.2.2
  rw [hab] at h₁ ⊢
  rw [hbc] at h₂ ⊢
  rw [hca] at h₃ ⊢
  exact eq_of_cycle (fun u v => direct s.desc (cmpText u v)) h₁ h₂ h₃

theorem then_eq_lt : o.then r = .lt ↔ o = .lt ∨ o = .eq ∧ r = .lt := by
  cases o <;> simp

theorem eq_of_cmpNum (hlost : x.sub y ≠ .nan) (h : cmpNum x y = .eq) : x = y := by
  cases x <;> cases y <;> simp_all [cmpNum, Query.Num.sub, sign, sub_eq_zero]

theorem tangled_of_two (h : Cycle host (s :: sorts) a b c) {t : Text}
    (ha : a.head = .num x) (hb : b.head = .num y) (hc : c.head = .text t) :
    HeadsTie host a b c ∨ TangleAt host s sorts a b c ∨ TangleAt host s sorts b a c := by
  have hlost := not_lost_of_lt h.1
  have hab := head_then_of_lt h.1
  have hbc := head_then_of_lt h.2.1
  have hca := head_then_of_lt h.2.2
  simp only [ha, hb, hc, Place.cmp, Place.Lost] at hab hbc hca hlost
  have htext : ∀ u v, cmpText v u = (cmpText u v).swap := fun u v => Std.OrientedCmp.eq_swap
  obtain hlt | ⟨heq, -⟩ := then_eq_lt.1 hab
  · refine .inr ?_
    cases hd : s.desc with
    | false =>
      rw [hd] at hlt hbc hca
      refine .inl ?_
      simp only [TangleAt, ha, hb, hc, hd]
      exact ⟨hlt, hbc, hca⟩
    | true =>
      rw [hd] at hlt hbc hca
      refine .inr ?_
      simp only [TangleAt, ha, hb, hc, hd]
      refine ⟨by rw [cmpNum_swap x y]; exact hlt, ?_, ?_⟩
      · rw [htext t, cmpRows_swap sorts c.tail a.tail]
        simpa [direct, shown_text] using hca
      · rw [htext _ t, cmpRows_swap sorts b.tail c.tail]
        simpa [direct, shown_text] using hbc
  · obtain rfl := eq_of_cmpNum hlost (direct_eq_eq.1 heq)
    refine .inl (headsTie_of_texts h ?_ ?_ ?_)
    · rw [ha, hb, Place.cmp, direct_eq_eq.1 heq, cmpText_eq_eq.2 rfl]
    · simp [hb, hc, Place.cmp]
    · simp [hc, ha, Place.cmp]

theorem headsTie_or_tangledAt (h : Cycle host (s :: sorts) a b c) :
    HeadsTie host a b c ∨ TangledAt host s sorts a b c := by
  have hrot : ∀ {u v w : Row}, HeadsTie host u v w → HeadsTie host w u v :=
    fun h => ⟨h.2.2, h.1, h.2.1⟩
  cases ha : a.head with
  | empty => exact .inl (headsTie_of_empty h ha)
  | num x =>
    cases hb : b.head with
    | empty => exact .inl (hrot (headsTie_of_empty h.rotate hb))
    | num y =>
      cases hc : c.head with
      | empty => exact .inl (hrot (hrot (headsTie_of_empty h.rotate.rotate hc)))
      | num z => exact .inl (headsTie_of_nums h ha hb hc)
      | text t =>
        obtain htie | htan | htan := tangled_of_two h ha hb hc
        · exact .inl htie
        · exact .inr (.inl htan)
        · exact .inr (.inr (.inr (.inr (.inl htan))))
    | text t =>
      cases hc : c.head with
      | empty => exact .inl (hrot (hrot (headsTie_of_empty h.rotate.rotate hc)))
      | num z =>
        obtain htie | htan | htan := tangled_of_two h.rotate.rotate hc ha hb
        · exact .inl (hrot (hrot htie))
        · exact .inr (.inr (.inr (.inl htan)))
        · exact .inr (.inr (.inr (.inr (.inr (.inr htan)))))
      | text u => exact .inl (headsTie_of_texts h (by simp [ha, hb, Place.cmp])
          (by simp [hb, hc, Place.cmp]) (by simp [hc, ha, Place.cmp]))
  | text t =>
    cases hb : b.head with
    | empty => exact .inl (hrot (headsTie_of_empty h.rotate hb))
    | num y =>
      cases hc : c.head with
      | empty => exact .inl (hrot (hrot (headsTie_of_empty h.rotate.rotate hc)))
      | num z =>
        obtain htie | htan | htan := tangled_of_two h.rotate hb hc ha
        · exact .inl (hrot htie)
        · exact .inr (.inr (.inl htan))
        · exact .inr (.inr (.inr (.inr (.inr (.inl htan)))))
      | text u => exact .inl (headsTie_of_texts h (by simp [ha, hb, Place.cmp])
          (by simp [hb, hc, Place.cmp]) (by simp [hc, ha, Place.cmp]))
    | text u =>
      cases hc : c.head with
      | empty => exact .inl (hrot (hrot (headsTie_of_empty h.rotate.rotate hc)))
      | _ => exact .inl (headsTie_of_texts h (by simp [ha, hb, Place.cmp])
          (by simp [hb, hc, Place.cmp]) (by simp [hc, ha, Place.cmp]))

end Heads

def Tangled (host : Host) (sorts : List QuerySort) (a b c : Row) : Prop :=
  Tangle host sorts a b c ∨ Tangle host sorts b c a ∨ Tangle host sorts c a b ∨
    Tangle host sorts b a c ∨ Tangle host sorts c b a ∨ Tangle host sorts a c b

theorem tangled_of_cycle {a b c : Row} (h : Cycle host sorts a b c) :
    Tangled host sorts a b c := by
  induction sorts generalizing a b c with
  | nil =>
    have hthen : ∀ {o : Ordering}, o = .lt → o.then .eq = .lt := fun h => by rw [h]; rfl
    obtain ⟨hab, hbc, hca⟩ := h
    have heq := eq_of_cycle cmpText (hthen hab) (hthen hbc) (hthen hca)
    have hlt : cmpText a.id b.id = .lt := hab
    rw [heq.1] at hlt
    cases hlt
  | cons s sorts ih =>
    obtain hties | htan := headsTie_or_tangledAt h
    · obtain ⟨hab, hbc, hca⟩ := hties
      have htail : Cycle host sorts a.tail b.tail c.tail :=
        ⟨cmpRows_tie hab ▸ h.1, cmpRows_tie hbc ▸ h.2.1, cmpRows_tie hca ▸ h.2.2⟩
      have hba := tie_comm.2 hab
      have hcb := tie_comm.2 hbc
      have hac := tie_comm.2 hca
      obtain h | h | h | h | h | h := ih htail
      · exact .inl (.inr ⟨hab, hbc, hca, h⟩)
      · exact .inr (.inl (.inr ⟨hbc, hca, hab, h⟩))
      · exact .inr (.inr (.inl (.inr ⟨hca, hab, hbc, h⟩)))
      · exact .inr (.inr (.inr (.inl (.inr ⟨hba, hac, hcb, h⟩))))
      · exact .inr (.inr (.inr (.inr (.inl (.inr ⟨hcb, hba, hac, h⟩)))))
      · exact .inr (.inr (.inr (.inr (.inr (.inr ⟨hac, hcb, hba, h⟩)))))
    · exact htan.imp .inl (.imp .inl (.imp .inl (.imp .inl (.imp .inl .inl))))

theorem cycle_of_tangle {a b c : Row} (h : Tangle host sorts a b c) :
    Cycle host sorts a b c ∨ Cycle host sorts b a c := by
  induction sorts generalizing a b c with
  | nil => exact h.elim
  | cons s sorts ih =>
    obtain hat | ⟨hab, hbc, hca, htail⟩ := h
    · unfold TangleAt at hat
      split at hat
      · rename_i x y t ha hb hc
        obtain ⟨hxy, hyt, htx⟩ := hat
        have htext : ∀ u v, cmpText v u = (cmpText u v).swap := fun u v => Std.OrientedCmp.eq_swap
        have hnum : x.sub y ≠ .nan := by
          intro hnan
          simp [cmpNum, hnan, sign] at hxy
        have lab : ¬ a.head.Lost b.head := by rw [ha, hb]; exact hnum
        have lba : ¬ b.head.Lost a.head := mt lost_comm.1 lab
        have lbc : ¬ b.head.Lost c.head := by rw [hb, hc]; exact id
        have lca : ¬ c.head.Lost a.head := by rw [hc, ha]; exact id
        have lac : ¬ a.head.Lost c.head := mt lost_comm.1 lca
        have lcb : ¬ c.head.Lost b.head := mt lost_comm.1 lbc
        cases hd : s.desc with
        | false =>
          refine .inl ⟨?_, ?_, ?_⟩
          · rw [cmpRows_cons lab, ha, hb, Place.cmp, hd, direct, hxy]
            rfl
          · rw [cmpRows_cons lbc, hb, hc, hd]
            simpa [hd, direct, Place.cmp, shown_text] using hyt
          · rw [cmpRows_cons lca, hc, ha, hd]
            simpa [hd, direct, Place.cmp, shown_text] using htx
        | true =>
          refine .inr ⟨?_, ?_, ?_⟩
          · rw [cmpRows_cons lba, hb, ha, Place.cmp, hd, direct, cmpNum_swap x y, hxy]
            rfl
          · rw [cmpRows_cons lac, ha, hc, hd, cmpRows_swap sorts c.tail a.tail]
            rw [htext _ t] at htx
            simpa [hd, direct, Place.cmp, shown_text] using htx
          · rw [cmpRows_cons lcb, hc, hb, hd, cmpRows_swap sorts b.tail c.tail]
            rw [htext t] at hyt
            simpa [hd, direct, Place.cmp, shown_text] using hyt
      · exact hat.elim
    · have hba := tie_comm.2 hab
      have hcb := tie_comm.2 hbc
      have hac := tie_comm.2 hca
      refine (ih htail).imp (fun h => ?_) (fun h => ?_)
      · exact ⟨(cmpRows_tie hab).trans h.1, (cmpRows_tie hbc).trans h.2.1, (cmpRows_tie hca).trans h.2.2⟩
      · exact ⟨(cmpRows_tie hba).trans h.1, (cmpRows_tie hac).trans h.2.1, (cmpRows_tie hcb).trans h.2.2⟩

theorem orderly_iff {rows : List Row}
    (hids : ∀ a ∈ rows, ∀ b ∈ rows, a.id = b.id → a = b) :
    Orderly host sorts rows ↔
      (∀ a ∈ rows, ∀ b ∈ rows, a ≠ b → cmpRows host sorts a b ≠ .eq) ∧
      ∀ a ∈ rows, ∀ b ∈ rows, ∀ c ∈ rows, cmpRows host sorts a b = .lt →
        cmpRows host sorts b c = .lt → cmpRows host sorts a c = .lt := by
  have hirrefl : ∀ a, cmpRows host sorts a a ≠ .lt := by
    intro a h
    have hswap : cmpRows host sorts a a = (cmpRows host sorts a a).swap := cmpRows_swap sorts a a
    rw [h] at hswap
    cases hswap
  constructor
  · rintro ⟨hlost, htan⟩
    have hstrict : ∀ a ∈ rows, ∀ b ∈ rows, a ≠ b → cmpRows host sorts a b ≠ .eq := by
      intro a ha b hb hne
      have hid : a.id ≠ b.id := fun h => hne (hids a ha b hb h)
      exact mt (cmpRows_eq_eq hid).1 (hlost a ha b hb hid)
    refine ⟨hstrict, fun a ha b hb c hc hab hbc => ?_⟩
    by_cases hac : a = c
    · subst hac
      rw [cmpRows_swap sorts a b, hab] at hbc
      cases hbc
    · by_contra hlt
      have hca : cmpRows host sorts c a = .lt := by
        rw [cmpRows_swap sorts a c]
        cases h : cmpRows host sorts a c <;> simp_all
      obtain h | h | h | h | h | h := tangled_of_cycle ⟨hab, hbc, hca⟩
      · exact htan a ha b hb c hc h
      · exact htan b hb c hc a ha h
      · exact htan c hc a ha b hb h
      · exact htan b hb a ha c hc h
      · exact htan c hc b hb a ha h
      · exact htan a ha c hc b hb h
  · rintro ⟨hstrict, htrans⟩
    refine ⟨fun a ha b hb hid => ?_, fun a ha b hb c hc htan => ?_⟩
    · rw [← cmpRows_eq_eq hid]
      exact hstrict a ha b hb fun h => hid (congrArg Row.id h)
    · obtain ⟨hab, hbc, hca⟩ | ⟨hba, hac, hcb⟩ := cycle_of_tangle htan
      · exact hirrefl a (htrans a ha c hc a ha (htrans a ha b hb c hc hab hbc) hca)
      · exact hirrefl b (htrans b hb c hc b hb (htrans b hb a ha c hc hba hac) hcb)

end Savoire.InMemory
