import Savoire.Library.Base64
import Savoire.Library.Json
import Savoire.Query.Filter

/-! Cursors: the sort keys of the last row delivered, in JSON and base 64. -/
namespace Savoire.Query
open Sql (Value Number)

structure PageHost extends Host where
  readNumeral : Text → Option ℚ
  readNumeral_numText : ∀ q, readNumeral (numText (.fin q)) = some q
  numText_chars : ∀ q, ∀ c ∈ numText (.fin q), Json.isNumberChar c = true

def PageHost.numerals (host : PageHost) : Json.Numerals ℚ where
  text q := host.numText (.fin q)
  read := host.readNumeral
  read_text := host.readNumeral_numText
  text_chars := host.numText_chars
  text_head := host.numText_fin

variable (host : PageHost)

abbrev Payload := Json.Value ℚ

def encodeOpaque (payload : Payload) : Text :=
  Base64.encode ((Json.print host.numerals payload).flatMap Utf.utf8)

def decodeOpaque (cursor : Text) : Option Payload := do
  let bytes ← Base64.decode cursor
  let json ← Utf.decode8 bytes
  Json.parse host.numerals json

theorem decodeOpaque_encodeOpaque (payload : Payload) :
    decodeOpaque host (encodeOpaque host payload) = some payload := by
  have hbytes : Base64.decode (encodeOpaque host payload) =
      some ((Json.print host.numerals payload).flatMap Utf.utf8) :=
    Base64.decode_encode fun _ => Utf.utf8_lt_256
  simp only [decodeOpaque, hbytes, Option.bind_eq_bind, Option.bind_some, Utf.decode8_utf8,
    Json.parse_print]

theorem encodeOpaque_ne_nil (payload : Payload) : encodeOpaque host payload ≠ [] := by
  intro h
  obtain ⟨c, rest, hprint, -⟩ := Json.print_head host.numerals payload
  have hlen := Base64.length_encode ((Json.print host.numerals payload).flatMap Utf.utf8)
  have hpos : 0 < (Utf.utf8 c).length := List.length_pos_iff.2 (Utf.utf8_decides.ne_nil c)
  have hzero : (encodeOpaque host payload).length = 0 := by rw [h]; rfl
  rw [encodeOpaque, hlen, hprint, List.flatMap_cons, List.length_append] at hzero
  omega

/-- The sort keys of a row and its id. -/
structure Last where
  k : List Value
  id : Text
  deriving DecidableEq

def jsonOf : Value → Payload
  | .number (.fin q) => .num q
  | .text s => .str s
  | _ => .null

/-- `{ q, k, id }` -/
def Last.payload (key : Text) (last : Last) : Payload :=
  .obj [("q".toList, .str key), ("k".toList, .arr (last.k.map jsonOf)), ("id".toList, .str last.id)]

/-- A field of a JSON value; the last one of the name counts. -/
def field (name : Text) : Payload → Option Payload
  | .obj fields => fields.reverse.lookup name
  | _ => none

def sqlOf : Payload → Option Value
  | .null => some .null
  | .str s => some (.text s)
  | .num q => some (.number (.fin q))
  | _ => none

inductive QueryError
  | invalidQuery
  | invalidCursor
  /-- SQLite refuses the statement. -/
  | sql
  deriving DecidableEq

def lastOf (key : Text) (sorts : Nat) (c : Payload) : Option Last :=
  match field "q".toList c, field "k".toList c, field "id".toList c with
  | some (.str q), some (.arr k), some (.str id) =>
    if q = key && k.length = sorts then (k.mapM sqlOf).map fun k => ⟨k, id⟩ else none
  | _, _, _ => none

def decodeCursor (cursor key : Text) (sorts : Nat) : Except QueryError Last :=
  match decodeOpaque host cursor >>= lastOf key sorts with
  | some last => .ok last
  | none => .error .invalidCursor

/-- What a cursor keeps of a key. -/
def keep (v : Value) : Value :=
  match v with
  | .number .negInf | .number .posInf => .null
  | v => v

theorem sqlOf_jsonOf (v : Value) : sqlOf (jsonOf v) = some (keep v) := by
  cases v with
  | null => rfl
  | text s => rfl
  | number x => cases x <;> rfl

theorem mapM_jsonOf (k : List Value) : (k.map jsonOf).mapM sqlOf = some (k.map keep) := by
  induction k with
  | nil => rfl
  | cons v k ih => simp [List.mapM_cons, sqlOf_jsonOf, ih]

theorem decodeCursor_encode (key : Text) (last : Last) :
    decodeCursor host (encodeOpaque host (last.payload key)) key last.k.length =
      .ok ⟨last.k.map keep, last.id⟩ := by
  have hlast : lastOf key last.k.length (last.payload key) = some ⟨last.k.map keep, last.id⟩ := by
    have hq : field "q".toList (last.payload key) = some (.str key) := by rfl
    have hk : field "k".toList (last.payload key) = some (.arr (last.k.map jsonOf)) := by rfl
    have hid : field "id".toList (last.payload key) = some (.str last.id) := by rfl
    simp only [lastOf, hq, hk, hid, mapM_jsonOf, List.length_map, decide_true, Bool.and_self, if_true,
      Option.map_some]
  rw [decodeCursor, decodeOpaque_encodeOpaque]
  simp only [Option.bind_eq_bind, Option.bind_some, hlast]

/-- Whether a cursor keeps a key as it is. -/
def isKept : Value → Bool
  | .number .negInf | .number .posInf => false
  | _ => true

theorem keep_of_isKept {v : Value} (h : isKept v = true) : keep v = v := by
  cases v with
  | number x => cases x <;> first | rfl | cases h
  | _ => rfl

def ratText (q : ℚ) : Text :=
  if q.den = 1 then intText q.num else intText q.num ++ 'e' :: Nat.toDigits 10 q.den

def readInt : Text → ℚ
  | '-' :: digits => -(Nat.ofDigitChars 10 digits 0 : ℚ)
  | digits => (Nat.ofDigitChars 10 digits 0 : ℚ)

def readRat (s : Text) : Option ℚ :=
  let num := readInt (s.takeWhile (· ≠ 'e'))
  match s.dropWhile (· ≠ 'e') with
  | [] => some num
  | _ :: den => some (num / (Nat.ofDigitChars 10 den 0 : ℚ))

theorem isDigit_of_toDigits {n : Nat} {c : Char} (h : c ∈ Nat.toDigits 10 n) : c.isDigit = true :=
  Nat.isDigit_of_mem_toDigits (by decide) (by decide) h

theorem intText_mem {z : ℤ} {c : Char} (h : c ∈ intText z) : c.isDigit = true ∨ c = '-' := by
  cases z with
  | ofNat n => exact .inl (isDigit_of_toDigits h)
  | negSucc n =>
    obtain rfl | h := List.mem_cons.1 h
    · exact .inr rfl
    · exact .inl (isDigit_of_toDigits h)

theorem e_not_mem_intText (z : ℤ) : 'e' ∉ intText z := by
  intro h
  obtain h | h := intText_mem h <;> exact absurd h (by decide)

theorem readInt_intText (z : ℤ) : readInt (intText z) = z := by
  cases z with
  | ofNat n =>
    have hdigits : readInt (Nat.toDigits 10 n) = (Nat.ofDigitChars 10 (Nat.toDigits 10 n) 0 : ℚ) := by
      unfold readInt
      split
      · rename_i digits heq
        have hminus : '-' ∈ Nat.toDigits 10 n := by simp [heq]
        exact absurd (isDigit_of_toDigits hminus) (by decide)
      · rfl
    rw [intText, hdigits, Nat.ofDigitChars_ten_toDigits]
    simp
  | negSucc n =>
    rw [intText, readInt, Nat.ofDigitChars_ten_toDigits, Int.cast_negSucc]

theorem readRat_ratText (q : ℚ) : readRat (ratText q) = some q := by
  unfold readRat ratText
  split_ifs with hden
  · have hne : ∀ c ∈ intText q.num, c ≠ 'e' := by
      rintro c hc rfl
      exact e_not_mem_intText q.num hc
    have htake : (intText q.num).takeWhile (· ≠ 'e') = intText q.num :=
      List.takeWhile_eq_self_iff.2 fun c hc => decide_eq_true (hne c hc)
    have hdrop : (intText q.num).dropWhile (· ≠ 'e') = [] :=
      List.dropWhile_eq_nil_iff.2 fun c hc => decide_eq_true (hne c hc)
    simp only [htake, hdrop, readInt_intText]
    rw [Rat.coe_int_num_of_den_eq_one hden]
  · have htake := Text.takeWhile_sep 'e' (intText q.num) (Nat.toDigits 10 q.den) (e_not_mem_intText _)
    have hdrop := Text.dropWhile_sep 'e' (intText q.num) (Nat.toDigits 10 q.den) (e_not_mem_intText _)
    simp only [htake, hdrop, readInt_intText, Nat.ofDigitChars_ten_toDigits, Rat.num_div_den]

theorem ratText_mem {q : ℚ} {c : Char} (h : c ∈ ratText q) : c.isDigit = true ∨ c = '-' ∨ c = 'e' := by
  unfold ratText at h
  split_ifs at h with hden
  · exact (intText_mem h).imp_right .inl
  · obtain h | h := List.mem_append.1 h
    · exact (intText_mem h).imp_right .inl
    · obtain rfl | h := List.mem_cons.1 h
      · exact .inr (.inr rfl)
      · exact .inl (isDigit_of_toDigits h)

theorem intText_head (z : ℤ) : ∃ c rest, intText z = c :: rest ∧ (c.isDigit = true ∨ c = '-') := by
  cases z with
  | ofNat n =>
    obtain ⟨c, rest, h, hc⟩ := (toDigits_spec n).2
    exact ⟨c, rest, h, .inl hc⟩
  | negSucc n => exact ⟨'-', _, rfl, .inr rfl⟩

theorem ratText_ascii (q : ℚ) : isAscii (ratText q) := by
  intro c hc
  obtain hd | rfl | rfl := ratText_mem hc
  · have h : 48 ≤ c.toNat ∧ c.toNat ≤ 57 := by
      simpa [Char.isDigit, UInt32.le_iff_toNat_le] using hd
    omega
  · decide
  · decide

theorem ratText_chars (q : ℚ) : ∀ c ∈ ratText q, Json.isNumberChar c = true := by
  intro c hc
  obtain hd | rfl | rfl := ratText_mem hc
  · simp [Json.isNumberChar, hd]
  · decide
  · decide

theorem ratText_head (q : ℚ) : ∃ c rest, ratText q = c :: rest ∧ (c.isDigit = true ∨ c = '-') := by
  obtain ⟨c, rest, h, hc⟩ := intText_head q.num
  by_cases hden : q.den = 1
  · exact ⟨c, rest, by simp only [ratText, hden, if_true, h], hc⟩
  · exact ⟨c, rest ++ 'e' :: Nat.toDigits 10 q.den,
      by simp only [ratText, hden, if_false, h, List.cons_append], hc⟩

def plainPageHost : PageHost where
  nfd := plainHost.nfd
  lower := plainHost.lower
  numText
    | .fin q => ratText q
    | n => plainHost.numText n
  inherited := plainHost.inherited
  nfd_ascii := plainHost.nfd_ascii
  lower_ascii := plainHost.lower_ascii
  numText_ascii n := by
    cases n with
    | fin q => exact ratText_ascii q
    | _ => exact plainHost.numText_ascii _
  numText_nan := rfl
  numText_negInf := rfl
  numText_posInf := rfl
  numText_fin := ratText_head
  inherited_ne_nil := plainHost.inherited_ne_nil
  readNumeral := readRat
  readNumeral_numText := readRat_ratText
  numText_chars := ratText_chars

end Savoire.Query
