import Savoire.Library.Utf

/-! Texts in UTF-8 and bytes in base 64, read back. -/
namespace Utf

def isTail (b : Nat) : Bool := 0x80 ≤ b && b < 0xC0

/-- A scalar value that takes more than the units below `least`. -/
def isScalar (least n : Nat) : Bool := least ≤ n && n < 0x110000 && !(0xD800 ≤ n && n < 0xE000)

/-- The scalar of two, three or four units, if they are well formed: a lead unit, tails, not
overlong and no surrogate. -/
def scalar2 (a b : Nat) : Option Char :=
  if isTail b && 0xC2 ≤ a && a < 0xE0 then some (Char.ofNat ((a - 0xC0) * 64 + (b - 0x80))) else none

def scalar3 (a b c : Nat) : Option Char :=
  let n := (a - 0xE0) * 4096 + (b - 0x80) * 64 + (c - 0x80)
  if isTail b && isTail c && 0xE0 ≤ a && a < 0xF0 && isScalar 0x800 n then some (Char.ofNat n) else none

def scalar4 (a b c d : Nat) : Option Char :=
  let n := (a - 0xF0) * 262144 + (b - 0x80) * 4096 + (c - 0x80) * 64 + (d - 0x80)
  if isTail b && isTail c && isTail d && 0xF0 ≤ a && a < 0xF5 && isScalar 0x10000 n then
    some (Char.ofNat n)
  else none

def decode8 : List Nat → Option (List Char)
  | [] => some []
  | a :: s =>
    if a < 0x80 then (decode8 s).map (Char.ofNat a :: ·)
    else match s with
      | [] => none
      | b :: s => match scalar2 a b with
        | some x => (decode8 s).map (x :: ·)
        | none => match s with
          | [] => none
          | c :: s => match scalar3 a b c with
            | some x => (decode8 s).map (x :: ·)
            | none => match s with
              | [] => none
              | d :: s => match scalar4 a b c d with
                | some x => (decode8 s).map (x :: ·)
                | none => none

theorem decode8_append (c : Char) (rest : List Nat) :
    decode8 (utf8 c ++ rest) = (decode8 rest).map (c :: ·) := by
  have hc := toNat_range c
  have hof : Char.ofNat c.toNat = c := Char.ofNat_toNat c
  unfold utf8
  generalize c.toNat = n at *
  simp only
  split_ifs with h1 h2 h3
  · rw [List.singleton_append, decode8.eq_def]
    simp only [h1, if_true, hof]
  · have hn : (0xC0 + n / 64 - 0xC0) * 64 + (0x80 + n % 64 - 0x80) = n := by omega
    have h : scalar2 (0xC0 + n / 64) (0x80 + n % 64) = some c := by
      rw [scalar2, hn, hof, if_pos]
      simp [isTail]
      omega
    have ha : ¬ 0xC0 + n / 64 < 0x80 := by omega
    rw [List.cons_append, List.singleton_append, decode8.eq_def]
    simp only [ha, if_false, h]
  · have hn : (0xE0 + n / 4096 - 0xE0) * 4096 + (0x80 + n / 64 % 64 - 0x80) * 64 +
        (0x80 + n % 64 - 0x80) = n := by omega
    have h : scalar3 (0xE0 + n / 4096) (0x80 + n / 64 % 64) (0x80 + n % 64) = some c := by
      simp only [scalar3, hn, hof]
      simp [isTail, isScalar]
      omega
    have htwo : scalar2 (0xE0 + n / 4096) (0x80 + n / 64 % 64) = none := by
      rw [scalar2, if_neg]
      simp
    have ha : ¬ 0xE0 + n / 4096 < 0x80 := by omega
    rw [List.cons_append, List.cons_append, List.singleton_append, decode8.eq_def]
    simp only [ha, if_false, htwo, h]
  · have hn : (0xF0 + n / 262144 - 0xF0) * 262144 + (0x80 + n / 4096 % 64 - 0x80) * 4096 +
        (0x80 + n / 64 % 64 - 0x80) * 64 + (0x80 + n % 64 - 0x80) = n := by omega
    have h : scalar4 (0xF0 + n / 262144) (0x80 + n / 4096 % 64) (0x80 + n / 64 % 64)
        (0x80 + n % 64) = some c := by
      simp only [scalar4, hn, hof]
      simp [isTail, isScalar]
      omega
    have htwo : scalar2 (0xF0 + n / 262144) (0x80 + n / 4096 % 64) = none := by
      rw [scalar2, if_neg]
      simp
      omega
    have hthree : scalar3 (0xF0 + n / 262144) (0x80 + n / 4096 % 64) (0x80 + n / 64 % 64) = none := by
      simp only [scalar3]
      simp
    have ha : ¬ 0xF0 + n / 262144 < 0x80 := by omega
    rw [List.cons_append, List.cons_append, List.cons_append, List.singleton_append, decode8.eq_def]
    simp only [ha, if_false, htwo, hthree, h]

theorem decode8_utf8 (s : List Char) : decode8 (s.flatMap utf8) = some s := by
  induction s with
  | nil => rfl
  | cons c s ih => rw [List.flatMap_cons, decode8_append, ih, Option.map_some]

theorem utf8_lt_256 {s : List Char} {b : Nat} (h : b ∈ s.flatMap utf8) : b < 256 := by
  obtain ⟨c, -, hb⟩ := List.mem_flatMap.1 h
  have hc := toNat_range c
  unfold utf8 at hb
  simp only at hb
  split_ifs at hb <;> simp only [List.mem_cons, List.not_mem_nil, or_false] at hb <;> omega

end Utf

namespace Base64

def alphabet : List Char :=
  "ABCDEFGHIJKLMNOPQRSTUVWXYZabcdefghijklmnopqrstuvwxyz0123456789+/".toList

def digit (k : Nat) : Char := alphabet.getD k '='

def value (c : Char) : Option Nat := alphabet.findIdx? (· = c)

theorem value_digit {k : Nat} (h : k < 64) : value (digit k) = some k := by
  have hall : ∀ k < 64, value (digit k) = some k := by decide +kernel
  exact hall k h

def body : List Nat → List Char
  | a :: b :: c :: rest =>
    digit (a / 4) :: digit (a % 4 * 16 + b / 16) :: digit (b % 16 * 4 + c / 64) :: digit (c % 64) :: body rest
  | [a, b] => [digit (a / 4), digit (a % 4 * 16 + b / 16), digit (b % 16 * 4)]
  | [a] => [digit (a / 4), digit (a % 4 * 16)]
  | [] => []

/-- `btoa`, on bytes. -/
def encode (bytes : List Nat) : List Char :=
  body bytes ++ List.replicate ((3 - bytes.length % 3) % 3) '='

def groups : List Char → Option (List Nat)
  | [] => some []
  | [_] => none
  | [w, x] => do
    let w ← value w
    let x ← value x
    return [w * 4 + x / 16]
  | [w, x, y] => do
    let w ← value w
    let x ← value x
    let y ← value y
    return [w * 4 + x / 16, x % 16 * 16 + y / 4]
  | w :: x :: y :: z :: rest => do
    let w ← value w
    let x ← value x
    let y ← value y
    let z ← value z
    let rest ← groups rest
    return (w * 4 + x / 16) :: (x % 16 * 16 + y / 4) :: (y % 4 * 64 + z) :: rest

def isSpace (c : Char) : Bool := c ∈ ['\t', '\n', '\x0c', '\r', ' ']

/-- Without the padding, two characters at most. -/
def unpad (s : List Char) : List Char :=
  match s.reverse with
  | '=' :: '=' :: rest => rest.reverse
  | '=' :: rest => rest.reverse
  | _ => s

/-- `atob`. -/
def decode (s : List Char) : Option (List Nat) :=
  let s := s.filter fun c => !isSpace c
  groups (if s.length % 4 = 0 then unpad s else s)

variable {bytes : List Nat}

theorem groups_body (h : ∀ b ∈ bytes, b < 256) : groups (body bytes) = some bytes := by
  induction bytes using body.induct with
  | case1 a b c rest ih =>
    have ha := h a (by simp)
    have hb := h b (by simp)
    have hc := h c (by simp)
    have hrest := ih fun x hx => h x (by simp [hx])
    rw [body, groups, value_digit (by omega), value_digit (by omega), value_digit (by omega),
      value_digit (by omega), hrest]
    simp only [Option.bind_eq_bind, Option.bind_some, Option.pure_def, Option.some.injEq, List.cons.injEq,
      and_true]
    omega
  | case2 a b =>
    have ha := h a (by simp)
    have hb := h b (by simp)
    rw [body, groups, value_digit (by omega), value_digit (by omega), value_digit (by omega)]
    simp only [Option.bind_eq_bind, Option.bind_some, Option.pure_def, Option.some.injEq, List.cons.injEq,
      and_true]
    omega
  | case3 a =>
    have ha := h a (by simp)
    rw [body, groups, value_digit (by omega), value_digit (by omega)]
    simp only [Option.bind_eq_bind, Option.bind_some, Option.pure_def, Option.some.injEq, List.cons.injEq,
      and_true]
    omega
  | case4 => rfl

theorem digit_mem {k : Nat} (h : k < 64) : digit k ∈ alphabet := by
  have hall : ∀ k < 64, digit k ∈ alphabet := by decide +kernel
  exact hall k h

theorem body_mem (h : ∀ b ∈ bytes, b < 256) : ∀ c ∈ body bytes, c ∈ alphabet := by
  induction bytes using body.induct with
  | case1 a b c rest ih =>
    have ha := h a (by simp)
    have hb := h b (by simp)
    have hc := h c (by simp)
    have hrest := ih fun x hx => h x (by simp [hx])
    intro x hx
    simp only [body, List.mem_cons] at hx
    obtain rfl | rfl | rfl | rfl | hx := hx
    · exact digit_mem (by omega)
    · exact digit_mem (by omega)
    · exact digit_mem (by omega)
    · exact digit_mem (by omega)
    · exact hrest x hx
  | case2 a b =>
    have ha := h a (by simp)
    have hb := h b (by simp)
    intro x hx
    simp only [body, List.mem_cons, List.not_mem_nil, or_false] at hx
    obtain rfl | rfl | rfl := hx
    · exact digit_mem (by omega)
    · exact digit_mem (by omega)
    · exact digit_mem (by omega)
  | case3 a =>
    have ha := h a (by simp)
    intro x hx
    simp only [body, List.mem_cons, List.not_mem_nil, or_false] at hx
    obtain rfl | rfl := hx
    · exact digit_mem (by omega)
    · exact digit_mem (by omega)
  | case4 => simp [body]

theorem length_body (bytes : List Nat) : (body bytes).length = (4 * bytes.length + 2) / 3 := by
  induction bytes using body.induct with
  | case1 a b c rest ih =>
    simp only [body, List.length_cons, ih]
    omega
  | case2 a b => simp [body]
  | case3 a => simp [body]
  | case4 => rfl

theorem length_encode (bytes : List Nat) : (encode bytes).length = 4 * ((bytes.length + 2) / 3) := by
  rw [encode, List.length_append, length_body, List.length_replicate]
  omega

theorem unpad_replicate {s : List Char} (h : ∀ c ∈ s, c ∈ alphabet) {p : Nat} (hp : p < 3) :
    unpad (s ++ List.replicate p '=') = s := by
  have hout : '=' ∉ s.reverse := fun hm => absurd (h '=' (List.mem_reverse.1 hm)) (by decide)
  have hcases : p = 0 ∨ p = 1 ∨ p = 2 := by omega
  unfold unpad
  cases hs : s.reverse with
  | nil =>
    rw [List.reverse_eq_nil_iff.1 hs]
    obtain rfl | rfl | rfl := hcases <;> rfl
  | cons c rest =>
    have hc : c ≠ '=' := fun he => hout (by simp [hs, he])
    obtain rfl : s = (c :: rest).reverse := by rw [← hs, List.reverse_reverse]
    obtain rfl | rfl | rfl := hcases
    · simp [hc]
    · simp [List.replicate, hc]
    · simp [List.replicate]

theorem decode_encode (h : ∀ b ∈ bytes, b < 256) : decode (encode bytes) = some bytes := by
  have hmem := body_mem h
  have hspace : (encode bytes).filter (fun c => !isSpace c) = encode bytes := by
    have hall : alphabet.all (fun c => !isSpace c) = true := by decide
    have hfree : ∀ c ∈ alphabet, isSpace c = false := by simpa using List.all_eq_true.1 hall
    refine List.filter_eq_self.2 fun c hc => ?_
    obtain hc | hc := List.mem_append.1 hc
    · simp [hfree c (hmem c hc)]
    · rw [List.eq_of_mem_replicate hc]
      rfl
  have hlen : (encode bytes).length % 4 = 0 := by
    rw [length_encode]
    omega
  simp only [decode, hspace, hlen, if_true]
  rw [encode, unpad_replicate hmem (by omega), groups_body h]

def urlOf (c : Char) : Char := if c = '+' then '-' else if c = '/' then '_' else c

def ofUrl (c : Char) : Char := if c = '-' then '+' else if c = '_' then '/' else c

/-- Base 64 for URLs, without padding. -/
def urlEncode (bytes : List Nat) : List Char := (body bytes).map urlOf

def urlDecode (s : List Char) : Option (List Nat) := groups (s.map ofUrl)

theorem urlDecode_urlEncode (h : ∀ b ∈ bytes, b < 256) : urlDecode (urlEncode bytes) = some bytes := by
  have hall : (alphabet.all fun c => ofUrl (urlOf c) == c) = true := by decide
  have halphabet : ∀ c ∈ alphabet, ofUrl (urlOf c) = c := fun c hc => eq_of_beq (List.all_eq_true.mp hall c hc)
  have hback : ((body bytes).map urlOf).map ofUrl = body bytes := by
    rw [List.map_map]
    exact (List.map_congr_left fun c hc => halphabet c (body_mem h c hc)).trans (List.map_id _)
  rw [urlDecode, urlEncode, hback, groups_body h]

end Base64
