import Savoire.Index.Paths
import Savoire.Library.Utf

/-! The values of properties, their texts, and the fold that comparisons look at. A text is a
sequence of Unicode scalars; only `<` looks at its UTF-16 units. -/
namespace Savoire.Query
open VaultIndex (Lower)

/-- A JavaScript number; a finite one is the rational that it stands for, and `-0` is `0`. -/
inductive Num
  | nan
  | negInf
  | fin (q : ℚ)
  | posInf
  deriving DecidableEq

namespace Num

/-- `a - b`, of which only the place against 0 is used: rounding keeps it. -/
def sub : Num → Num → Num
  | nan, _ => nan
  | _, nan => nan
  | posInf, posInf => nan
  | negInf, negInf => nan
  | posInf, _ => posInf
  | negInf, _ => negInf
  | _, posInf => negInf
  | _, negInf => posInf
  | fin a, fin b => fin (a - b)

def isFinite : Num → Bool
  | fin _ => true
  | _ => false

/-- `n !== 0` -/
def ne0 (n : Num) : Bool := n != fin 0

end Num

/-- `lt`, `lte`, `gt` and `gte`. -/
inductive Order
  | lt | lte | gt | gte
  deriving DecidableEq

/-- The comparison of a number with 0. -/
def Order.test : Order → Num → Bool
  | _, .nan => false
  | lt, .negInf | lte, .negInf => true
  | lt, .fin q => decide (q < 0)
  | lte, .fin q => decide (q ≤ 0)
  | gt, .fin q => decide (0 < q)
  | gte, .fin q => decide (0 ≤ q)
  | gt, .posInf | gte, .posInf => true
  | _, _ => false

def isAscii (s : Text) : Prop := ∀ c ∈ s, c.toNat < 0x80

instance (s : Text) : Decidable (isAscii s) := List.decidableBAll _ _

/-- What the JavaScript host does with texts and numbers: Unicode normalization and case, the text
of a number, and the texts of the members that every object inherits. -/
structure Host where
  nfd : Text → Text
  lower : Lower
  numText : Num → Text
  inherited : Text → Option Text
  nfd_ascii : ∀ s, isAscii s → nfd s = s
  lower_ascii : ∀ s, isAscii s → lower.apply s = s.map Char.toLower
  numText_ascii : ∀ n, isAscii (numText n)
  numText_nan : numText .nan = "NaN".toList
  numText_negInf : numText .negInf = "-Infinity".toList
  numText_posInf : numText .posInf = "Infinity".toList
  /-- A finite number begins with a digit or a minus sign. -/
  numText_fin : ∀ q, ∃ c rest, numText (.fin q) = c :: rest ∧ (c.isDigit = true ∨ c = '-')
  inherited_ne_nil : ∀ k t, inherited k = some t → t ≠ []

def intText : Int → Text
  | .ofNat n => Nat.toDigits 10 n
  | .negSucc n => '-' :: Nat.toDigits 10 (n + 1)

theorem toDigits_spec (n : Nat) : isAscii (Nat.toDigits 10 n) ∧
    ∃ c rest, Nat.toDigits 10 n = c :: rest ∧ c.isDigit = true := by
  have hdigit : ∀ c ∈ Nat.toDigits 10 n, c.isDigit = true := fun c hc =>
    Nat.isDigit_of_mem_toDigits (by decide) (by decide) hc
  refine ⟨fun c hc => ?_, ?_⟩
  · have h : 48 ≤ c.toNat ∧ c.toNat ≤ 57 := by
      simpa [Char.isDigit, UInt32.le_iff_toNat_le] using hdigit c hc
    omega
  · obtain ⟨c, rest, h⟩ := List.exists_cons_of_ne_nil (Nat.toDigits_ne_nil (n := n) (b := 10))
    exact ⟨c, rest, h, hdigit c (h ▸ List.mem_cons_self)⟩

/-- ASCII case, the numerals of integers, and the member `constructor`. -/
def plainHost : Host where
  nfd := id
  lower := ⟨List.map Char.toLower, List.map_nil⟩
  numText
    | .nan => "NaN".toList
    | .negInf => "-Infinity".toList
    | .posInf => "Infinity".toList
    | .fin q => intText q.num
  inherited key :=
    if key = "constructor".toList then some "function Object() { [native code] }".toList else none
  nfd_ascii _ _ := rfl
  lower_ascii _ _ := rfl
  numText_ascii n := by
    cases n with
    | fin q =>
      cases h : q.num with
      | ofNat k => simpa [h, intText] using (toDigits_spec k).1
      | negSucc k =>
        intro c hc
        simp only [h, intText, List.mem_cons] at hc
        obtain rfl | hc := hc
        · decide
        · exact (toDigits_spec (k + 1)).1 c hc
    | nan => exact (by decide : isAscii "NaN".toList)
    | negInf => exact (by decide : isAscii "-Infinity".toList)
    | posInf => exact (by decide : isAscii "Infinity".toList)
  numText_nan := rfl
  numText_negInf := rfl
  numText_posInf := rfl
  numText_fin q := by
    cases h : q.num with
    | ofNat k =>
      obtain ⟨c, rest, heq, hc⟩ := (toDigits_spec k).2
      exact ⟨c, rest, by simpa [h, intText] using heq, .inl hc⟩
    | negSucc k => exact ⟨'-', Nat.toDigits 10 (k + 1), by simp [h, intText], .inr rfl⟩
  inherited_ne_nil key t h := by
    split at h
    · cases h
      decide
    · cases h

inductive Scalar
  | null
  | text (s : Text)
  | num (n : Num)
  | bool (b : Bool)
  deriving DecidableEq

inductive PropertyValue
  | scalar (x : Scalar)
  | list (xs : List Scalar)
  deriving DecidableEq

/-- An object's own properties, in order, each key once. -/
structure Record where
  entries : List (Text × PropertyValue)
  nodup : (entries.map Prod.fst).Nodup

def Record.own (r : Record) (key : Text) : Option PropertyValue := r.entries.lookup key

variable (host : Host)

/-- `String(x)`. -/
def Scalar.str : Scalar → Text
  | null => "null".toList
  | text s => s
  | num n => host.numText n
  | bool b => if b then "true".toList else "false".toList

/-- `String(v)`: the elements of a list joined by commas, a null one empty. -/
def PropertyValue.str : PropertyValue → Text
  | scalar x => x.str host
  | list xs => [','].intercalate (xs.map fun x => if x = .null then [] else x.str host)

/-- The value that `record[key]` reads: an own property, else the inherited member, whose text
alone is looked at. -/
def Record.read (r : Record) (key : Text) : Option PropertyValue :=
  match r.own key with
  | some v => some v
  | none => (host.inherited key).map fun t => .scalar (.text t)

/-- Lower case, without the marks from U+0300 to U+036F. -/
def foldText (s : Text) : Text :=
  host.lower.apply ((host.nfd s).filter fun c => !(0x300 ≤ c.toNat && c.toNat ≤ 0x36F))

def isEmptyValue : Option PropertyValue → Bool
  | none | some (.scalar .null) | some (.scalar (.text [])) | some (.list []) => true
  | _ => false

/-- `a < b` on texts. -/
def textLt (a b : Text) : Bool := decide (a.flatMap Utf.utf16 < b.flatMap Utf.utf16)

end Savoire.Query
