import Savoire.Text
import Mathlib.Data.List.Basic

/-! Two hexadecimal digits read as a byte, the way the native shell reads them. -/
namespace Savoire.HexDigits

/-- `char::to_digit(16)` -/
def toDigit (c : Char) : Option ℕ :=
  if '0' ≤ c ∧ c ≤ '9' then some (c.toNat - 48)
  else if 'a' ≤ c ∧ c ≤ 'f' then some (c.toNat - 87)
  else if 'A' ≤ c ∧ c ≤ 'F' then some (c.toNat - 55)
  else none

def digitsValue (s : Text) : Option ℕ :=
  s.foldlM (fun n c => (toDigit c).bind fun d => if n * 16 + d < 256 then some (n * 16 + d) else none) 0

/-- `u8::from_str_radix(s, 16)`: a sign may stand before the digits. -/
def fromStrRadix : Text → Option UInt8
  | [] => none
  | ['+'] => none
  | ['-'] => none
  | '+' :: ds => (digitsValue ds).map UInt8.ofNat
  | ds => (digitsValue ds).map UInt8.ofNat

variable {c d : Char} {n : ℕ}

theorem toDigit_ascii (h : (toDigit c).isSome) : c.toNat < 128 := by
  unfold toDigit at h
  split_ifs at h with h1 h2 h3
  · exact Nat.lt_of_le_of_lt (UInt32.le_iff_toNat_le.1 h1.2) (by decide)
  · exact Nat.lt_of_le_of_lt (UInt32.le_iff_toNat_le.1 h2.2) (by decide)
  · exact Nat.lt_of_le_of_lt (UInt32.le_iff_toNat_le.1 h3.2) (by decide)
  · simp at h

theorem toDigit_lt (h : toDigit c = some n) : n < 16 := by
  have hle (x : Char) (hc : c ≤ x) : c.toNat ≤ x.toNat := UInt32.le_iff_toNat_le.1 hc
  unfold toDigit at h
  split_ifs at h with h1 h2 h3
  · have := hle _ h1.2
    simp at h this
    omega
  · have := hle _ h2.2
    simp at h this
    omega
  · have := hle _ h3.2
    simp at h this
    omega

theorem digitsValue_one (c : Char) : digitsValue [c] = toDigit c := by
  unfold digitsValue
  cases h : toDigit c with
  | none => simp [h]
  | some n =>
    have hlt := toDigit_lt h
    simp [h, show n < 256 by omega]

theorem digitsValue_two (c d : Char) :
    digitsValue [c, d] = (toDigit c).bind fun m => (toDigit d).map fun n => m * 16 + n := by
  unfold digitsValue
  cases hc : toDigit c with
  | none => simp [hc]
  | some m =>
    cases hd : toDigit d with
    | none => simp [hc, hd]
    | some n =>
      have hm := toDigit_lt hc
      have hn := toDigit_lt hd
      simp [hc, hd, show m < 256 by omega, show m * 16 + n < 256 by omega]

theorem fromStrRadix_two : fromStrRadix [c, d] =
    if c = '+' then (toDigit d).map UInt8.ofNat
    else (toDigit c).bind fun m => (toDigit d).map fun n => UInt8.ofNat (m * 16 + n) := by
  by_cases hc : c = '+'
  · subst hc
    rw [if_pos rfl, ← digitsValue_one]
    rfl
  · rw [if_neg hc]
    have hdigits : fromStrRadix [c, d] = (digitsValue [c, d]).map UInt8.ofNat := by
      unfold fromStrRadix
      split <;> simp_all
    rw [hdigits, digitsValue_two]
    cases toDigit c <;> simp [Function.comp_def]

end Savoire.HexDigits
