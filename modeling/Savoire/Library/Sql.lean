import Savoire.Library.Utf
import Mathlib.Algebra.Order.Field.Rat
import Mathlib.Data.Char
import Mathlib.Data.List.Sort
import Mathlib.Data.Prod.Lex

/-! SQL conditions over the columns of a row, as SQLite evaluates them: three truth values, storage
classes, and texts compared byte by byte in UTF-8. -/
namespace Sql

/-- A number that is not NaN: SQLite keeps NaN as NULL. -/
inductive Number
  | negInf
  | fin (q : ℚ)
  | posInf
  deriving DecidableEq

namespace Number

def rank : Number → ℤ ×ₗ ℚ
  | negInf => toLex (-1, 0)
  | fin q => toLex (0, q)
  | posInf => toLex (1, 0)

theorem rank_injective : Function.Injective rank := by
  intro a b h
  cases a <;> cases b <;> simp_all [rank]

instance : LinearOrder Number := LinearOrder.lift' rank rank_injective

theorem lt_iff_rank (a b : Number) : a < b ↔ a.rank < b.rank := Iff.rfl

@[simp] theorem fin_lt_fin (p q : ℚ) : fin p < fin q ↔ p < q := by
  simp [lt_iff_rank, rank, Prod.Lex.toLex_lt_toLex]
@[simp] theorem negInf_lt_fin (q : ℚ) : negInf < fin q := by
  simp [lt_iff_rank, rank, Prod.Lex.toLex_lt_toLex]
@[simp] theorem fin_lt_posInf (q : ℚ) : fin q < posInf := by
  simp [lt_iff_rank, rank, Prod.Lex.toLex_lt_toLex]

end Number

inductive Value
  | null
  | number (x : Number)
  | text (s : List Char)
  deriving DecidableEq

namespace Value

def isNull : Value → Bool
  | null => true
  | _ => false

/-- The order of the storage classes, then of the values of one class. -/
def lt : Value → Value → Bool
  | null, null => false
  | null, _ => true
  | number _, null => false
  | number x, number y => decide (x < y)
  | number _, text _ => true
  | text s, text t => decide (s.flatMap Utf.utf8 < t.flatMap Utf.utf8)
  | text _, _ => false

end Value

inductive Rel
  | eq | ne | lt | le | gt | ge
  deriving DecidableEq

/-- The comparison of two values that are not NULL. -/
def Rel.test : Rel → Value → Value → Bool
  | eq, a, b => decide (a = b)
  | ne, a, b => decide (a ≠ b)
  | lt, a, b => a.lt b
  | le, a, b => a.lt b || decide (a = b)
  | gt, a, b => b.lt a
  | ge, a, b => b.lt a || decide (a = b)

def compare (r : Rel) : Value → Value → Option Bool
  | .null, _ => none
  | _, .null => none
  | a, b => some (r.test a b)

/-- The characters up to the first NUL, where `length` and `substr` stop. -/
def cString (s : List Char) : List Char := s.takeWhile (· ≠ '\x00')

/-- The place of the first occurrence, from 1; 0 when there is none. -/
def instr (s t : List Char) : Nat :=
  match s.tails.findIdx? (t.isPrefixOf ·) with
  | some i => i + 1
  | none => 0

def ofNat (n : Nat) : Value := .number (.fin n)

/-- A scalar expression over columns `κ`; `substr a n` is `substr(a, 1, n)`. -/
inductive Scalar (κ : Type*)
  | col (c : κ)
  | param (v : Value)
  | instr (a b : Scalar κ)
  | length (a : Scalar κ)
  | substr (a n : Scalar κ)
  deriving DecidableEq

namespace Scalar
variable {κ : Type*}

def eval (env : κ → Value) : Scalar κ → Value
  | col c => env c
  | param v => v
  | instr a b => match a.eval env, b.eval env with
    | .text s, .text t => ofNat (Sql.instr s t)
    | _, _ => .null
  | length a => match a.eval env with
    | .text s => ofNat (cString s).length
    | _ => .null
  | substr a n => match a.eval env, n.eval env with
    | .text s, .number (.fin k) => .text ((cString s).take k.num.toNat)
    | _, _ => .null

def columns : Scalar κ → List κ
  | col c => [c]
  | param _ => []
  | instr a b => a.columns ++ b.columns
  | length a => a.columns
  | substr a n => a.columns ++ n.columns

end Scalar

def and3 : Option Bool → Option Bool → Option Bool
  | some false, _ => some false
  | _, some false => some false
  | some true, some true => some true
  | _, _ => none

def or3 : Option Bool → Option Bool → Option Bool
  | some true, _ => some true
  | _, some true => some true
  | some false, some false => some false
  | _, _ => none

@[simp] theorem and3_some (a b : Bool) : and3 (some a) (some b) = some (a && b) := by
  cases a <;> cases b <;> rfl
@[simp] theorem or3_some (a b : Bool) : or3 (some a) (some b) = some (a || b) := by
  cases a <;> cases b <;> rfl
@[simp] theorem and3_false (a : Option Bool) : and3 (some false) a = some false := rfl

/-- A condition over columns `κ` and the subqueries `σ`, whose truth is never NULL;
`orFalse p` is `coalesce(p, 0)`. -/
inductive Cond (κ σ : Type*)
  | const (b : Bool)
  | rel (r : Rel) (a b : Scalar κ)
  | isNull (a : Scalar κ)
  | notNull (a : Scalar κ)
  | inList (a : Scalar κ) (vs : List Value)
  | and (p q : Cond κ σ)
  | or (p q : Cond κ σ)
  | not (p : Cond κ σ)
  | orFalse (p : Cond κ σ)
  | sub (q : σ)
  deriving DecidableEq

namespace Cond
variable {κ σ : Type*}

def eval (env : κ → Value) (query : σ → Bool) : Cond κ σ → Option Bool
  | const b => some b
  | rel r a b => compare r (a.eval env) (b.eval env)
  | isNull a => some (a.eval env).isNull
  | notNull a => some !(a.eval env).isNull
  | inList a vs => vs.foldr (fun v rest => or3 (compare .eq (a.eval env) v) rest) (some false)
  | and p q => and3 (p.eval env query) (q.eval env query)
  | or p q => or3 (p.eval env query) (q.eval env query)
  | not p => (p.eval env query).map (!·)
  | orFalse p => some ((p.eval env query).getD false)
  | sub q => some (query q)

/-- The columns that a condition names. -/
def columns : Cond κ σ → List κ
  | const _ => []
  | rel _ a b => a.columns ++ b.columns
  | isNull a => a.columns
  | notNull a => a.columns
  | inList a _ => a.columns
  | and p q => p.columns ++ q.columns
  | or p q => p.columns ++ q.columns
  | not p => p.columns
  | orFalse p => p.columns
  | sub _ => []

end Cond

namespace Value

theorem lt_irrefl (a : Value) : a.lt a = false := by cases a <;> simp [lt]

theorem text_lt_text (s t : List Char) : (text s).lt (text t) = true ↔ s < t := by
  rw [lt, decide_eq_true_iff]
  exact Utf.utf8_lt_iff s t

theorem lt_trans {a b c : Value} (hab : a.lt b = true) (hbc : b.lt c = true) : a.lt c = true := by
  cases a with
  | null =>
    cases b with
    | null => exact hbc
    | _ => cases c <;> first | rfl | cases hbc
  | number x =>
    cases b with
    | null => cases hab
    | number y =>
      cases c with
      | null => cases hbc
      | number z => exact decide_eq_true ((of_decide_eq_true hab).trans (of_decide_eq_true hbc))
      | text u => rfl
    | text t => cases c <;> first | rfl | cases hbc
  | text s =>
    cases b with
    | text t =>
      cases c with
      | text u => exact (text_lt_text s u).2 (((text_lt_text s t).1 hab).trans ((text_lt_text t u).1 hbc))
      | _ => cases hbc
    | _ => cases hab

theorem trichotomy (a b : Value) : a.lt b = true ∨ a = b ∨ b.lt a = true := by
  cases a with
  | null => cases b <;> simp [lt]
  | number x =>
    cases b with
    | number y => simpa [lt] using lt_trichotomy x y
    | _ => simp [lt]
  | text s =>
    cases b with
    | text t => simpa [text_lt_text] using lt_trichotomy s t
    | _ => simp [lt]

end Value

/-- `c IS NULL`, or the column itself, both ways. -/
inductive OrderTerm (κ : Type*)
  | isNull (c : κ)
  | col (c : κ) (desc : Bool)

namespace OrderTerm
variable {κ : Type*}

def value (env : κ → Value) : OrderTerm κ → Value
  | isNull c => ofNat (env c).isNull.toNat
  | col c _ => env c

def desc : OrderTerm κ → Bool
  | isNull _ => false
  | col _ desc => desc

def lt (t : OrderTerm κ) (a b : κ → Value) : Bool :=
  if t.desc then (t.value b).lt (t.value a) else (t.value a).lt (t.value b)

theorem lt_irrefl (t : OrderTerm κ) (a : κ → Value) : t.lt a a = false := by
  simp [lt, Value.lt_irrefl]

theorem lt_trans {t : OrderTerm κ} {a b c : κ → Value} (hab : t.lt a b = true) (hbc : t.lt b c = true) :
    t.lt a c = true := by
  unfold lt at *
  split_ifs at * with h
  · exact Value.lt_trans hbc hab
  · exact Value.lt_trans hab hbc

theorem trichotomy (t : OrderTerm κ) (a b : κ → Value) :
    t.lt a b = true ∨ t.value a = t.value b ∨ t.lt b a = true := by
  obtain h | h | h := Value.trichotomy (t.value a) (t.value b)
  · cases hd : t.desc <;> simp [lt, hd, h]
  · exact .inr (.inl h)
  · cases hd : t.desc <;> simp [lt, hd, h]

theorem lt_congr {t : OrderTerm κ} {a a' b b' : κ → Value} (ha : t.value a = t.value a')
    (hb : t.value b = t.value b') : t.lt a b = t.lt a' b' := by
  rw [lt, lt, ha, hb]

end OrderTerm

section OrderBy
variable {κ ρ : Type*}

/-- A row comes before another by the first term that tells them apart. -/
def before : List (OrderTerm κ) → (κ → Value) → (κ → Value) → Bool
  | [], _, _ => false
  | t :: ts, a, b => t.lt a b || (decide (t.value a = t.value b) && before ts a b)

def orderBy (terms : List (OrderTerm κ)) (env : ρ → κ → Value) (rows : List ρ) : List ρ :=
  rows.insertionSort fun a b => before terms (env b) (env a) = false

variable {ts : List (OrderTerm κ)} {a b c : κ → Value}

theorem before_irrefl (ts : List (OrderTerm κ)) (a : κ → Value) : before ts a a = false := by
  induction ts with
  | nil => rfl
  | cons t ts ih => simp [before, t.lt_irrefl, ih]

theorem before_trans (hab : before ts a b = true) (hbc : before ts b c = true) :
    before ts a c = true := by
  induction ts with
  | nil => cases hab
  | cons t ts ih =>
    simp only [before, Bool.or_eq_true, Bool.and_eq_true, decide_eq_true_eq] at hab hbc ⊢
    obtain hab | ⟨eab, hab⟩ := hab
    · obtain hbc | ⟨ebc, -⟩ := hbc
      · exact .inl (t.lt_trans hab hbc)
      · exact .inl (by rwa [t.lt_congr rfl ebc] at hab)
    · obtain hbc | ⟨ebc, hbc⟩ := hbc
      · exact .inl (by rwa [t.lt_congr eab rfl])
      · exact .inr ⟨eab.trans ebc, ih hab hbc⟩

theorem before_trichotomy (ts : List (OrderTerm κ)) (a b : κ → Value) :
    before ts a b = true ∨ (∀ t ∈ ts, t.value a = t.value b) ∨ before ts b a = true := by
  induction ts with
  | nil => simp
  | cons t ts ih =>
    obtain h | h | h := t.trichotomy a b
    · exact .inl (by simp [before, h])
    · obtain hb | hall | hb := ih
      · exact .inl (by simp [before, h, hb])
      · exact .inr (.inl (by simpa [h] using hall))
      · exact .inr (.inr (by simp [before, h, hb]))
    · exact .inr (.inr (by simp [before, h]))

end OrderBy
end Sql
