import Savoire.Library.Base64
import Savoire.Desktop.HexDigits

/-! The headers of a binary request: their values are encoded in percents, over UTF-8. -/
namespace Savoire.PercentDecode
open Utf (utf8 decode8 isTail)
open HexDigits

/-- The loop over the bytes. `s.get(i + 1..i + 3)` is missing off a character boundary and beyond the end; the digits
are read byte by byte. -/
def percentBytes : List ℕ → Option (List ℕ)
  | [] => some []
  | b :: rest =>
    if b = 37 then
      match rest with
      | a :: d :: rest =>
        if isTail a || rest.head?.any isTail then none
        else (fromStrRadix [Char.ofNat a, Char.ofNat d]).bind fun n => (percentBytes rest).map (n.toNat :: ·)
      | _ => none
    else (percentBytes rest).map (b :: ·)

def percentDecode (s : Text) : Except Text Text :=
  ((percentBytes (s.flatMap utf8)).bind decode8).elim (.error "encodage invalide".toList) .ok

/-- What `encodeURIComponent` leaves: letters, digits and `-_.!~*'()`. -/
def isUnescaped (c : Char) : Bool :=
  'A' ≤ c && c ≤ 'Z' || 'a' ≤ c && c ≤ 'z' || '0' ≤ c && c ≤ '9' || "-_.!~*'()".toList.contains c

def upperDigit (n : ℕ) : Char := "0123456789ABCDEF".toList.getD n '0'

def escape (b : ℕ) : Text := ['%', upperDigit (b / 16), upperDigit (b % 16)]

def encodeURIComponent (t : Text) : Text :=
  t.flatMap fun c => if isUnescaped c then [c] else (utf8 c).flatMap escape

def isHex (c : Char) : Bool := (toDigit c).isSome

/-- Behind each `%` come two characters of a kind. -/
def Escaped (ok : Char → Char → Bool) : Text → Prop
  | [] => True
  | c :: rest => (c = '%' → ∃ d e rest', rest = d :: e :: rest' ∧ ok d e = true) ∧ Escaped ok rest

/-- Two hexadecimal digits. -/
def WellEscaped : Text → Prop := Escaped fun d e => isHex d && isHex e

/-- In place of the first digit there may be a `+`. -/
def LooselyEscaped : Text → Prop := Escaped fun d e => (d == '+' || isHex d) && isHex e

/-- The value of two digits; a sign counts for nothing. -/
def pairValue (d e : Char) : ℕ := (toDigit d).getD 0 * 16 + (toDigit e).getD 0

def decoded : Text → List ℕ
  | [] => []
  | c :: rest =>
    if c = '%' then
      match rest with
      | d :: e :: rest => pairValue d e :: decoded rest
      | _ => []
    else utf8 c ++ decoded rest

section Decoding
variable {c d e : Char} {rest s t : Text} {b : ℕ} {bytes : List ℕ}

theorem utf8_ascii (h : c.toNat < 128) : utf8 c = [c.toNat] := by
  rw [utf8, if_pos h]

theorem utf8_wide (h : ¬ c.toNat < 128) : ∃ x y ys, utf8 c = x :: y :: ys ∧ 0xC0 ≤ x ∧ x < 256 := by
  have hrange := Utf.toNat_range c
  rw [utf8, if_neg h]
  split_ifs
  · exact ⟨_, _, _, rfl, by omega, by omega⟩
  · exact ⟨_, _, _, rfl, by omega, by omega⟩
  · exact ⟨_, _, _, rfl, by omega, by omega⟩

theorem utf8_ne_percent (h : c ≠ '%') : ∀ x ∈ utf8 c, x ≠ 37 := by
  intro x hx
  by_cases hc : c.toNat < 128
  · rw [utf8_ascii hc, List.mem_singleton] at hx
    rintro rfl
    exact h (Char.toNat_inj.1 hx.symm)
  · rw [utf8, if_neg hc] at hx
    split_ifs at hx
    · simp only [List.mem_cons, List.not_mem_nil, or_false] at hx
      omega
    · simp only [List.mem_cons, List.not_mem_nil, or_false] at hx
      omega
    · simp only [List.mem_cons, List.not_mem_nil, or_false] at hx
      omega

theorem percentBytes_cons {bs : List ℕ} (h : b ≠ 37) : percentBytes (b :: bs) = (percentBytes bs).map (b :: ·) := by
  match bs with
  | [] => simp [percentBytes, h]
  | [_] => simp [percentBytes, h]
  | _ :: _ :: _ => rw [percentBytes, if_neg h]

theorem percentBytes_append {xs : List ℕ} (h : ∀ x ∈ xs, x ≠ 37) (bytes : List ℕ) :
    percentBytes (xs ++ bytes) = (percentBytes bytes).map (xs ++ ·) := by
  induction xs with
  | nil => simp
  | cons x xs ih =>
    obtain ⟨hx, hxs⟩ := List.forall_mem_cons.1 h
    rw [List.cons_append, percentBytes_cons hx, ih hxs, Option.map_map]
    rfl

theorem head_not_tail (s : Text) : (s.flatMap utf8).head?.any isTail = false := by
  cases s with
  | nil => rfl
  | cons c s =>
    rw [List.flatMap_cons]
    by_cases hc : c.toNat < 128
    · rw [utf8_ascii hc, List.singleton_append, List.head?_cons, Option.any_some, isTail, Bool.and_eq_false_iff,
        decide_eq_false_iff_not]
      omega
    · obtain ⟨x, y, ys, hxy, hx, -⟩ := utf8_wide hc
      rw [hxy, List.cons_append, List.head?_cons, Option.any_some, isTail, Bool.and_eq_false_iff,
        decide_eq_false_iff_not, decide_eq_false_iff_not]
      omega

theorem pairValue_lt (d e : Char) : pairValue d e < 256 := by
  have hdigit (c : Char) : (toDigit c).getD 0 < 16 := by
    cases hc : toDigit c with
    | none => exact Nat.zero_lt_succ 15
    | some n => exact toDigit_lt hc
  have := hdigit d
  have := hdigit e
  rw [pairValue]
  omega

theorem fromStrRadix_pair (d e : Char) : fromStrRadix [d, e] =
    if (d == '+' || isHex d) && isHex e then some (UInt8.ofNat (pairValue d e)) else none := by
  rw [fromStrRadix_two]
  by_cases hplus : d = '+'
  · subst hplus
    have hnone : toDigit '+' = none := by decide
    cases he : toDigit e with
    | none => simp [isHex, he]
    | some n => simp [isHex, pairValue, he, hnone]
  · cases hd : toDigit d with
    | none => simp [isHex, hplus, hd]
    | some m =>
      cases he : toDigit e with
      | none => simp [isHex, he, hplus]
      | some n => simp [isHex, pairValue, hd, he, hplus]

theorem isHex_wide (h : ¬ c.toNat < 128) : isHex c = false ∧ (c == '+') = false := by
  constructor
  · rw [isHex, Bool.eq_false_iff]
    exact fun hc => h (toDigit_ascii hc)
  · rw [beq_eq_false_iff_ne]
    rintro rfl
    exact h (by decide)

theorem toNat_ofNat {n : ℕ} (h : n.isValidChar) : (Char.ofNat n).toNat = n := by
  rw [Char.ofNat, dif_pos h]
  rfl

theorem isHex_high {x : ℕ} (hx : 0xC0 ≤ x) (hlt : x < 256) :
    isHex (Char.ofNat x) = false ∧ (Char.ofNat x == '+') = false := by
  have hchar := toNat_ofNat (.inl (by omega) : x.isValidChar)
  exact isHex_wide (by omega)

theorem percentBytes_percent (s : Text) : percentBytes (37 :: s.flatMap utf8) =
    match s with
    | d :: e :: rest => if (d == '+' || isHex d) && isHex e then
        (percentBytes (rest.flatMap utf8)).map (pairValue d e :: ·) else none
    | _ => none := by
  have hread (a b : ℕ) (bs : List ℕ) (h : fromStrRadix [Char.ofNat a, Char.ofNat b] = none) :
      percentBytes (37 :: a :: b :: bs) = none := by
    rw [percentBytes, if_pos rfl, h, Option.bind_none, ite_self]
  have hwide (x y : ℕ) (bs : List ℕ) (hx : 0xC0 ≤ x) (hlt : x < 256) : percentBytes (37 :: x :: y :: bs) = none := by
    apply hread
    rw [fromStrRadix_pair, (isHex_high hx hlt).1, (isHex_high hx hlt).2]
    rfl
  match s with
  | [] => rfl
  | [d] =>
    by_cases hd : d.toNat < 128
    · rw [List.flatMap_singleton, utf8_ascii hd]
      rfl
    · obtain ⟨x, y, ys, hxy, hx, hlt⟩ := utf8_wide hd
      rw [List.flatMap_singleton, hxy, hwide x y ys hx hlt]
  | d :: e :: rest =>
    by_cases hd : d.toNat < 128
    · rw [List.flatMap_cons, utf8_ascii hd, List.singleton_append]
      by_cases he : e.toNat < 128
      · have hbound : isTail d.toNat = false := by
          rw [isTail, Bool.and_eq_false_iff, decide_eq_false_iff_not]
          omega
        rw [List.flatMap_cons, utf8_ascii he, List.singleton_append, percentBytes, if_pos rfl, hbound, head_not_tail,
          Char.ofNat_toNat, Char.ofNat_toNat, fromStrRadix_pair]
        simp only [Bool.or_false, Bool.false_eq_true, if_false]
        split_ifs
        · rw [Option.bind_some, UInt8.toNat_ofNat_of_lt' (pairValue_lt d e)]
        · rfl
      · obtain ⟨x, y, ys, hxy, hx, hlt⟩ := utf8_wide he
        rw [List.flatMap_cons, hxy, List.cons_append]
        dsimp only
        rw [(isHex_wide he).1, Bool.and_false]
        apply hread
        rw [fromStrRadix_pair, (isHex_high hx hlt).1, Bool.and_false]
        rfl
    · obtain ⟨x, y, ys, hxy, hx, hlt⟩ := utf8_wide hd
      rw [List.flatMap_cons, hxy, List.cons_append, List.cons_append, hwide x y _ hx hlt]
      dsimp only
      rw [(isHex_wide hd).1, (isHex_wide hd).2]
      rfl

theorem decoded_cons (h : c ≠ '%') : decoded (c :: s) = utf8 c ++ decoded s := by
  match s with
  | [] => simp [decoded, h]
  | [_] => simp [decoded, h]
  | _ :: _ :: _ => rw [decoded, if_neg h]

theorem percentBytes_eq (s : Text) (bytes : List ℕ) :
    percentBytes (s.flatMap utf8) = some bytes ↔ LooselyEscaped s ∧ decoded s = bytes := by
  induction hn : s.length using Nat.strong_induction_on generalizing s bytes with
  | _ n ih =>
    match s with
    | [] => simp [percentBytes, LooselyEscaped, Escaped, decoded]
    | c :: s =>
      subst hn
      by_cases hc : c = '%'
      · subst hc
        have hascii : utf8 '%' = [37] := by decide
        rw [List.flatMap_cons, hascii, List.singleton_append, percentBytes_percent]
        match s with
        | [] => simp [LooselyEscaped, Escaped]
        | [d] => simp [LooselyEscaped, Escaped]
        | d :: e :: rest =>
          dsimp only
          split_ifs with hok
          · have hpercent : (d ≠ '%') ∧ e ≠ '%' := by
              constructor
              · rintro rfl
                exact absurd hok (by simp [isHex, toDigit])
              · rintro rfl
                exact absurd hok (by simp [isHex, toDigit])
            have hesc : LooselyEscaped ('%' :: d :: e :: rest) ↔ LooselyEscaped rest := by
              have hok' : (d = '+' ∨ isHex d = true) ∧ isHex e = true := by simpa using hok
              simp [LooselyEscaped, Escaped, hpercent.1, hpercent.2, hok']
            rw [hesc, decoded, if_pos rfl, Option.map_eq_some_iff]
            constructor
            · rintro ⟨bs, hbs, rfl⟩
              obtain ⟨hrest, rfl⟩ := (ih _ (by simp; omega) rest bs rfl).1 hbs
              exact ⟨hrest, rfl⟩
            · rintro ⟨hrest, rfl⟩
              exact ⟨decoded rest, (ih _ (by simp; omega) rest _ rfl).2 ⟨hrest, rfl⟩, rfl⟩
          · have hnot : ¬ LooselyEscaped ('%' :: d :: e :: rest) := by
              rintro ⟨h, -⟩
              obtain ⟨d', e', rest', heq, hok'⟩ := h rfl
              cases heq
              exact hok hok'
            simp [hnot]
      · have hesc : LooselyEscaped (c :: s) ↔ LooselyEscaped s := by simp [LooselyEscaped, Escaped, hc]
        rw [List.flatMap_cons, percentBytes_append (utf8_ne_percent hc), hesc, decoded_cons hc, Option.map_eq_some_iff]
        constructor
        · rintro ⟨bs, hbs, rfl⟩
          obtain ⟨hrest, rfl⟩ := (ih _ (by simp) s bs rfl).1 hbs
          exact ⟨hrest, rfl⟩
        · rintro ⟨hrest, rfl⟩
          exact ⟨decoded s, (ih _ (by simp) s _ rfl).2 ⟨hrest, rfl⟩, rfl⟩

theorem utf8_scalar2 {a b : ℕ} (h : Utf.scalar2 a b = some c) : utf8 c = [a, b] := by
  rw [Utf.scalar2] at h
  split_ifs at h with hab
  obtain rfl := Option.some.inj h
  simp only [isTail, Bool.and_eq_true, decide_eq_true_eq] at hab
  rw [utf8, toNat_ofNat (.inl (by omega)), if_neg (by omega), if_pos (by omega)]
  simp only [List.cons.injEq, and_true]
  omega

theorem utf8_scalar3 {a b x : ℕ} (h : Utf.scalar3 a b x = some c) : utf8 c = [a, b, x] := by
  simp only [Utf.scalar3] at h
  split_ifs at h with hab
  obtain rfl := Option.some.inj h
  simp only [isTail, Utf.isScalar, Bool.and_eq_true, decide_eq_true_eq, Bool.not_eq_true', Bool.and_eq_false_iff,
    decide_eq_false_iff_not] at hab
  rw [utf8, toNat_ofNat (by omega), if_neg (by omega), if_neg (by omega), if_pos (by omega)]
  simp only [List.cons.injEq, and_true]
  omega

theorem utf8_scalar4 {a b x y : ℕ} (h : Utf.scalar4 a b x y = some c) : utf8 c = [a, b, x, y] := by
  simp only [Utf.scalar4] at h
  split_ifs at h with hab
  obtain rfl := Option.some.inj h
  simp only [isTail, Utf.isScalar, Bool.and_eq_true, decide_eq_true_eq, Bool.not_eq_true', Bool.and_eq_false_iff,
    decide_eq_false_iff_not] at hab
  rw [utf8, toNat_ofNat (by omega), if_neg (by omega), if_neg (by omega), if_neg (by omega)]
  simp only [List.cons.injEq, and_true]
  omega

theorem utf8_decode8 (h : decode8 bytes = some t) : t.flatMap utf8 = bytes := by
  induction hn : bytes.length using Nat.strong_induction_on generalizing bytes t with
  | _ n ih =>
    subst hn
    -- a character in front of what is decoded
    have hnext {front bs : List ℕ} {x : Char} (hx : utf8 x = front) (hbs : bs.length < bytes.length)
        (h : (decode8 bs).map (x :: ·) = some t) : t.flatMap utf8 = front ++ bs := by
      obtain ⟨u, hu, rfl⟩ := Option.map_eq_some_iff.1 h
      rw [List.flatMap_cons, hx, ih _ hbs hu rfl]
    cases bytes with
    | nil =>
      obtain rfl := Option.some.inj h
      rfl
    | cons a bs =>
      unfold decode8 at h
      split at h
      · have hchar := toNat_ofNat (.inl (by omega) : a.isValidChar)
        have hone : utf8 (Char.ofNat a) = [a] := by rw [utf8_ascii (by omega), hchar]
        exact hnext hone (by simp) h
      split at h
      · cases h
      split at h
      · exact hnext (utf8_scalar2 ‹_›) (by simp only [List.length_cons]; omega) h
      split at h
      · cases h
      split at h
      · exact hnext (utf8_scalar3 ‹_›) (by simp only [List.length_cons]; omega) h
      split at h
      · cases h
      split at h
      · exact hnext (utf8_scalar4 ‹_›) (by simp only [List.length_cons]; omega) h
      · cases h

theorem percentDecode_eq (s t : Text) : percentDecode s = .ok t ↔ LooselyEscaped s ∧ t.flatMap utf8 = decoded s := by
  have hbytes (bytes : List ℕ) : decode8 bytes = some t ↔ t.flatMap utf8 = bytes := by
    constructor
    · exact utf8_decode8
    · rintro rfl
      exact Utf.decode8_utf8 t
  have hok : percentDecode s = .ok t ↔ (percentBytes (s.flatMap utf8)).bind decode8 = some t := by
    rw [percentDecode]
    cases (percentBytes (s.flatMap utf8)).bind decode8 with
    | none => simp
    | some u => simp
  rw [hok, Option.bind_eq_some_iff]
  simp only [percentBytes_eq, hbytes]
  constructor
  · rintro ⟨bytes, ⟨hloose, rfl⟩, ht⟩
    exact ⟨hloose, ht⟩
  · rintro ⟨hloose, ht⟩
    exact ⟨decoded s, ⟨hloose, rfl⟩, ht⟩

theorem WellEscaped.loosely (h : WellEscaped s) : LooselyEscaped s := by
  induction s with
  | nil => trivial
  | cons c s ih =>
    refine ⟨fun hc => ?_, ih h.2⟩
    obtain ⟨d, e, rest, hs, hok⟩ := h.1 hc
    rw [Bool.and_eq_true] at hok
    exact ⟨d, e, rest, hs, by simp [hok.1, hok.2]⟩

theorem isHex_upperDigit {n : ℕ} (h : n < 16) : isHex (upperDigit n) = true ∧ toDigit (upperDigit n) = some n := by
  have hall : ∀ n : Fin 16, isHex (upperDigit n) = true ∧ toDigit (upperDigit n) = some n.val := by decide
  exact hall ⟨n, h⟩

theorem utf8_lt (c : Char) : ∀ x ∈ utf8 c, x < 256 := by
  intro x hx
  have hrange := Utf.toNat_range c
  rw [utf8] at hx
  split_ifs at hx <;> simp only [List.mem_cons, List.not_mem_nil, or_false] at hx <;> omega

theorem escaped_append {xs : List ℕ} (h : ∀ x ∈ xs, x < 256) (rest : Text) :
    (LooselyEscaped (xs.flatMap escape ++ rest) ↔ LooselyEscaped rest) ∧
      decoded (xs.flatMap escape ++ rest) = xs ++ decoded rest := by
  induction xs with
  | nil => exact ⟨Iff.rfl, rfl⟩
  | cons x xs ih =>
    obtain ⟨hx, hxs⟩ := List.forall_mem_cons.1 h
    obtain ⟨hesc, hdec⟩ := ih hxs
    obtain ⟨hhigh, hhigh'⟩ := @isHex_upperDigit (x / 16) (by omega)
    obtain ⟨hlow, hlow'⟩ := @isHex_upperDigit (x % 16) (by omega)
    have hne {c : Char} (hc : isHex c = true) : c ≠ '%' := by
      rintro rfl
      exact absurd hc (by decide)
    rw [List.flatMap_cons, escape, List.append_assoc, List.cons_append, List.cons_append, List.cons_append,
      List.nil_append, List.cons_append]
    constructor
    · rw [← hesc]
      simp [LooselyEscaped, Escaped, hhigh, hlow, hne hhigh, hne hlow]
    · rw [decoded, if_pos rfl, hdec, pairValue, hhigh', hlow', Option.getD_some, Option.getD_some]
      congr 1
      omega

theorem encoded (t : Text) :
    LooselyEscaped (encodeURIComponent t) ∧ decoded (encodeURIComponent t) = t.flatMap utf8 := by
  induction t with
  | nil => exact ⟨trivial, rfl⟩
  | cons c t ih =>
    rw [encodeURIComponent, List.flatMap_cons, ← encodeURIComponent, List.flatMap_cons]
    split_ifs with hc
    · have hne : c ≠ '%' := by
        rintro rfl
        exact absurd hc (by decide)
      rw [List.singleton_append]
      refine ⟨⟨fun heq => absurd heq hne, ih.1⟩, ?_⟩
      rw [decoded_cons hne, ih.2]
    · obtain ⟨hesc, hdec⟩ := escaped_append (utf8_lt c) (encodeURIComponent t)
      exact ⟨hesc.2 ih.1, by rw [hdec, ih.2]⟩

/-- The grammar is accepted exactly, and the bytes it gives are returned, unless a text beyond it is read with a `+` in
place of a digit; and an encoded text is always read back. -/
theorem percentDecode_exact_iff (s t : Text) :
    ((∀ u : Text, percentDecode s = .ok u ↔ WellEscaped s ∧ u.flatMap utf8 = decoded s) ↔
      (LooselyEscaped s → (∃ u : Text, u.flatMap utf8 = decoded s) → WellEscaped s)) ∧
    percentDecode (encodeURIComponent t) = .ok t := by
  constructor
  · simp only [percentDecode_eq]
    constructor
    · rintro h hloose ⟨u, hu⟩
      exact ((h u).1 ⟨hloose, hu⟩).1
    · intro h u
      constructor
      · rintro ⟨hloose, hu⟩
        exact ⟨h hloose ⟨u, hu⟩, hu⟩
      · rintro ⟨hwell, hu⟩
        exact ⟨hwell.loosely, hu⟩
  · rw [percentDecode_eq]
    exact ⟨(encoded t).1, (encoded t).2.symm⟩

/-- The digits `+f` are read as the byte 15. -/
theorem sign_accepted : percentDecode "%+f".toList = .ok [Char.ofNat 15] ∧ ¬ WellEscaped "%+f".toList := by
  constructor
  · decide
  · rintro ⟨h, -⟩
    obtain ⟨d, e, rest, hs, hok⟩ := h rfl
    cases hs
    exact absurd hok (by decide)

end Decoding

end Savoire.PercentDecode
