import Mathlib.Data.List.TakeWhile

/-! JSON values, written without blanks and read back. Numbers come with their own texts. -/
namespace Json

inductive Value (ν : Type)
  | null
  | bool (b : Bool)
  | num (x : ν)
  | str (s : List Char)
  | arr (xs : List (Value ν))
  | obj (fields : List (List Char × Value ν))

def isNumberChar (c : Char) : Bool := c.isDigit || c ∈ ['-', '+', '.', 'e', 'E']

structure Numerals (ν : Type) where
  text : ν → List Char
  read : List Char → Option ν
  read_text : ∀ x, read (text x) = some x
  text_chars : ∀ x, ∀ c ∈ text x, isNumberChar c = true
  text_head : ∀ x, ∃ c rest, text x = c :: rest ∧ (c.isDigit = true ∨ c = '-')

def hexDigit (k : Nat) : Char := "0123456789abcdef".toList.getD k '0'

def escape (c : Char) : List Char :=
  if c = '"' then ['\\', '"']
  else if c = '\\' then ['\\', '\\']
  else if c = '\x08' then ['\\', 'b']
  else if c = '\x0c' then ['\\', 'f']
  else if c = '\n' then ['\\', 'n']
  else if c = '\r' then ['\\', 'r']
  else if c = '\t' then ['\\', 't']
  else if c.toNat < 0x20 then ['\\', 'u', '0', '0', hexDigit (c.toNat / 16), hexDigit (c.toNat % 16)]
  else [c]

def quote (s : List Char) : List Char := '"' :: s.flatMap escape ++ ['"']

section Numbers
variable {ν : Type} (numerals : Numerals ν)

mutual
def print : Value ν → List Char
  | .null => "null".toList
  | .bool true => "true".toList
  | .bool false => "false".toList
  | .num x => numerals.text x
  | .str s => quote s
  | .arr xs => '[' :: printItems xs ++ [']']
  | .obj fields => '{' :: printFields fields ++ ['}']

def printItems : List (Value ν) → List Char
  | [] => []
  | [x] => print x
  | x :: xs => print x ++ ',' :: printItems xs

def printFields : List (List Char × Value ν) → List Char
  | [] => []
  | [(k, x)] => quote k ++ ':' :: print x
  | (k, x) :: fields => quote k ++ ':' :: print x ++ ',' :: printFields fields
end

def hexValue (c : Char) : Option Nat :=
  let n := c.toNat
  if '0' ≤ c && c ≤ '9' then some (n - 48)
  else if 'a' ≤ c && c ≤ 'f' then some (n - 87)
  else if 'A' ≤ c && c ≤ 'F' then some (n - 55)
  else none

def hex4 (a b c d : Char) : Option Nat := do
  return ((← hexValue a) * 16 + (← hexValue b)) * 256 + (← hexValue c) * 16 + (← hexValue d)

def unescape (c : Char) : Option Char :=
  if c = '"' || c = '\\' || c = '/' then some c
  else if c = 'b' then some '\x08'
  else if c = 'f' then some '\x0c'
  else if c = 'n' then some '\n'
  else if c = 'r' then some '\r'
  else if c = 't' then some '\t'
  else none

def consChar (c : Char) (r : Option (List Char × List Char)) : Option (List Char × List Char) :=
  r.map fun p => (c :: p.1, p.2)

/-- A string after its first quote; two escaped surrogates stand for one character. -/
def stringBody : List Char → Option (List Char × List Char)
  | [] => none
  | '"' :: rest => some ([], rest)
  | '\\' :: 'u' :: a :: b :: c :: d :: rest =>
    match hex4 a b c d with
    | none => none
    | some u =>
      if u < 0xD800 || 0xDFFF < u then consChar (Char.ofNat u) (stringBody rest)
      else match rest with
        | '\\' :: 'u' :: a :: b :: c :: d :: rest =>
          match hex4 a b c d with
          | none => none
          | some v =>
            if u < 0xDC00 && 0xDC00 ≤ v && v ≤ 0xDFFF then
              consChar (Char.ofNat (0x10000 + (u - 0xD800) * 0x400 + (v - 0xDC00))) (stringBody rest)
            else none
        | _ => none
  | '\\' :: c :: rest => match unescape c with
    | some c => consChar c (stringBody rest)
    | none => none
  | c :: rest => if c.toNat < 0x20 || c = '\\' then none else consChar c (stringBody rest)

def isSpace (c : Char) : Bool := c ∈ [' ', '\t', '\n', '\r']

def skip (s : List Char) : List Char := s.dropWhile isSpace

mutual
def readValue : Nat → List Char → Option (Value ν × List Char)
  | 0, _ => none
  | n + 1, s => match skip s with
    | 'n' :: 'u' :: 'l' :: 'l' :: s => some (.null, s)
    | 't' :: 'r' :: 'u' :: 'e' :: s => some (.bool true, s)
    | 'f' :: 'a' :: 'l' :: 's' :: 'e' :: s => some (.bool false, s)
    | '"' :: s => (stringBody s).map fun p => (.str p.1, p.2)
    | '[' :: s => match skip s with
      | ']' :: s => some (.arr [], s)
      | _ => (readItems n s).map fun p => (.arr p.1, p.2)
    | '{' :: s => match skip s with
      | '}' :: s => some (.obj [], s)
      | _ => (readFields n s).map fun p => (.obj p.1, p.2)
    | s => (numerals.read (s.takeWhile isNumberChar)).map fun x => (.num x, s.dropWhile isNumberChar)

def readItems : Nat → List Char → Option (List (Value ν) × List Char)
  | 0, _ => none
  | n + 1, s => do
    let (x, s) ← readValue n s
    match skip s with
    | ',' :: s => (readItems n s).map fun p => (x :: p.1, p.2)
    | ']' :: s => some ([x], s)
    | _ => none

def readFields : Nat → List Char → Option (List (List Char × Value ν) × List Char)
  | 0, _ => none
  | n + 1, s => match skip s with
    | '"' :: s => do
      let (k, s) ← stringBody s
      match skip s with
      | ':' :: s => do
        let (x, s) ← readValue n s
        match skip s with
        | ',' :: s => (readFields n s).map fun p => ((k, x) :: p.1, p.2)
        | '}' :: s => some ([(k, x)], s)
        | _ => none
      | _ => none
    | _ => none
end

/-- A whole text; its length bounds the depth of the value. -/
def parse (s : List Char) : Option (Value ν) :=
  match readValue numerals (s.length + 1) s with
  | some (x, rest) => if skip rest = [] then some x else none
  | none => none

theorem hex4_hexDigit {n : Nat} (h : n < 0x20) :
    hex4 '0' '0' (hexDigit (n / 16)) (hexDigit (n % 16)) = some n := by
  have hall : ∀ n < 0x20, hex4 '0' '0' (hexDigit (n / 16)) (hexDigit (n % 16)) = some n := by
    decide +kernel
  exact hall n h

theorem stringBody_plain {c : Char} (hquote : c ≠ '"') (hslash : c ≠ '\\') (h : ¬ c.toNat < 0x20)
    (rest : List Char) : stringBody (c :: rest) = consChar c (stringBody rest) := by
  rw [stringBody.eq_def]
  split
  · contradiction
  · rename_i heq
    exact absurd (List.cons.inj heq).1 hquote
  · rename_i heq
    exact absurd (List.cons.inj heq).1 hslash
  · rename_i heq
    exact absurd (List.cons.inj heq).1 hslash
  · rename_i heq
    obtain ⟨rfl, rfl⟩ := List.cons.inj heq
    simp [h, hslash]

theorem stringBody_escape (c : Char) (rest : List Char) :
    stringBody (escape c ++ rest) = consChar c (stringBody rest) := by
  unfold escape
  split_ifs with h1 h2 h3 h4 h5 h6 h7 h8
  · subst h1; rfl
  · subst h2; rfl
  · subst h3; rfl
  · subst h4; rfl
  · subst h5; rfl
  · subst h6; rfl
  · subst h7; rfl
  · have hchar : Char.ofNat c.toNat = c := Char.ofNat_toNat c
    have hlow : (decide (c.toNat < 0xD800) || decide (0xDFFF < c.toNat)) = true := by simp; omega
    simp only [List.cons_append, List.nil_append]
    rw [stringBody.eq_def]
    simp only [hex4_hexDigit h8, hlow, if_true, hchar]
  · exact stringBody_plain h1 h2 h8 rest

theorem stringBody_quote (s rest : List Char) :
    stringBody (s.flatMap escape ++ '"' :: rest) = some (s, rest) := by
  induction s with
  | nil => rfl
  | cons c s ih => rw [List.flatMap_cons, List.append_assoc, stringBody_escape, ih]; rfl

/-- What may follow a number. -/
def Ends (rest : List Char) : Prop := ∀ c ∈ rest.head?, isNumberChar c = false

mutual
def depth : Value ν → Nat
  | .arr xs => depthItems xs + 1
  | .obj fields => depthFields fields + 1
  | _ => 1

def depthItems : List (Value ν) → Nat
  | [] => 0
  | x :: xs => depth x + depthItems xs + 1

def depthFields : List (List Char × Value ν) → Nat
  | [] => 0
  | (_, x) :: fields => depth x + depthFields fields + 1
end

theorem skip_of_head {c : Char} (h : isSpace c = false) (rest : List Char) :
    skip (c :: rest) = c :: rest := by simp [skip, h]

theorem print_head (v : Value ν) : ∃ c rest, print numerals v = c :: rest ∧ isSpace c = false ∧ c ≠ ']' := by
  cases v with
  | null => exact ⟨_, _, rfl, by decide, by decide⟩
  | bool b => cases b <;> exact ⟨_, _, rfl, by decide, by decide⟩
  | num x =>
    obtain ⟨c, rest, h, hc⟩ := numerals.text_head x
    refine ⟨c, rest, h, ?_, ?_⟩
    · obtain hd | rfl := hc
      · cases hs : isSpace c with
        | false => rfl
        | true =>
          simp only [isSpace, List.mem_cons, List.not_mem_nil, or_false, decide_eq_true_eq] at hs
          obtain rfl | rfl | rfl | rfl := hs <;> cases hd
      · decide
    · rintro rfl
      obtain hd | hd := hc <;> cases hd
  | str s => exact ⟨_, _, rfl, by decide, by decide⟩
  | arr xs => exact ⟨_, _, rfl, by decide, by decide⟩
  | obj fields => exact ⟨_, _, rfl, by decide, by decide⟩

theorem numeral_span (x : ν) {rest : List Char} (hr : Ends rest) :
    (numerals.text x ++ rest).takeWhile isNumberChar = numerals.text x ∧
      (numerals.text x ++ rest).dropWhile isNumberChar = rest := by
  have hall := numerals.text_chars x
  generalize numerals.text x = s at hall
  induction s with
  | nil =>
    cases rest with
    | nil => exact ⟨rfl, rfl⟩
    | cons c rest =>
      have hc := hr c rfl
      simp [hc]
  | cons c s ih =>
    have hc := hall c List.mem_cons_self
    have hs := ih fun d hd => hall d (List.mem_cons_of_mem c hd)
    simp [hc, hs]

theorem readValue_num (n : Nat) (x : ν) {rest : List Char} (hr : Ends rest) :
    readValue numerals (n + 1) (numerals.text x ++ rest) = some (.num x, rest) := by
  obtain ⟨c, tail, htext, hc⟩ := numerals.text_head x
  obtain ⟨htake, hdrop⟩ := numeral_span numerals x hr
  have hskip : skip (numerals.text x ++ rest) = c :: (tail ++ rest) := by
    obtain ⟨d, tail', hprint, hspace, -⟩ := print_head numerals (.num x)
    obtain ⟨rfl, rfl⟩ := List.cons.inj (htext.symm.trans hprint)
    rw [htext, List.cons_append, skip_of_head hspace]
  have hne : ∀ d s, c :: (tail ++ rest) = d :: s → d.isDigit = false → d ≠ '-' → False := by
    intro d s h hd hminus
    obtain ⟨rfl, -⟩ := List.cons.inj h
    obtain hc | hc := hc
    · rw [hd] at hc
      cases hc
    · exact hminus hc
  rw [readValue.eq_def]
  simp only [hskip]
  split
  · exact (hne _ _ ‹_› rfl (by decide)).elim
  · exact (hne _ _ ‹_› rfl (by decide)).elim
  · exact (hne _ _ ‹_› rfl (by decide)).elim
  · exact (hne _ _ ‹_› rfl (by decide)).elim
  · exact (hne _ _ ‹_› rfl (by decide)).elim
  · exact (hne _ _ ‹_› rfl (by decide)).elim
  · rw [← List.cons_append, ← htext, htake, hdrop, numerals.read_text]
    rfl

theorem depth_pos (v : Value ν) : 0 < depth v := by
  cases v <;> simp [depth]

theorem ends_cons {c : Char} (h : isNumberChar c = false) (rest : List Char) : Ends (c :: rest) := by
  intro d hd
  obtain rfl := Option.some.inj hd
  exact h

theorem items_head (x : Value ν) (xs : List (Value ν)) (rest : List Char) : ∃ c tail,
    printItems numerals (x :: xs) ++ rest = c :: tail ∧ isSpace c = false ∧ c ≠ ']' := by
  obtain ⟨c, tail, hprint, hspace, hne⟩ := print_head numerals x
  cases xs with
  | nil => exact ⟨c, tail ++ rest, by rw [printItems, hprint]; rfl, hspace, hne⟩
  | cons y ys =>
    exact ⟨c, tail ++ ',' :: printItems numerals (y :: ys) ++ rest,
      by simp [printItems, hprint], hspace, hne⟩

theorem readValue_items (n : Nat) {s : List Char} {c : Char} {tail : List Char} (hs : s = c :: tail)
    (hspace : isSpace c = false) (hne : c ≠ ']') : readValue numerals (n + 1) ('[' :: s) =
      (readItems numerals n s).map fun p => (.arr p.1, p.2) := by
  have hskip : skip ('[' :: s) = '[' :: s := rfl
  rw [readValue.eq_def]
  simp only [hskip]
  rw [hs, skip_of_head hspace]
  split
  · rename_i heq
    exact absurd (List.cons.inj heq).1 hne
  · rfl

theorem fields_cons (k : List Char) (x : Value ν) (rest : List Char) :
    quote k ++ ':' :: print numerals x ++ rest =
      '"' :: (k.flatMap escape ++ '"' :: ':' :: (print numerals x ++ rest)) := by
  simp [quote]

theorem readFields_cons (n : Nat) (k : List Char) (s : List Char) :
    readFields numerals (n + 1) ('"' :: (k.flatMap escape ++ '"' :: ':' :: s)) =
      (readValue numerals n s).bind fun p => match skip p.2 with
        | ',' :: s => (readFields numerals n s).map fun q => ((k, p.1) :: q.1, q.2)
        | '}' :: s => some ([(k, p.1)], s)
        | _ => none := by
  have hskip : ∀ s, skip ('"' :: s) = '"' :: s := fun _ => rfl
  have hcolon : skip (':' :: s) = ':' :: s := rfl
  rw [readFields.eq_def]
  simp only [hskip, stringBody_quote, bind, Option.bind_some, hcolon]

mutual
theorem readValue_print : ∀ (v : Value ν) (n : Nat) (rest : List Char), depth v ≤ n → Ends rest →
    readValue numerals n (print numerals v ++ rest) = some (v, rest)
  | v, 0, _, hn, _ => by
    have := depth_pos v
    omega
  | .null, n + 1, rest, _, _ => rfl
  | .bool true, n + 1, rest, _, _ => rfl
  | .bool false, n + 1, rest, _, _ => rfl
  | .num x, n + 1, rest, _, hr => readValue_num numerals n x hr
  | .str s, n + 1, rest, _, _ => by
    have hskip : skip (print numerals (.str s) ++ rest) = '"' :: (s.flatMap escape ++ '"' :: rest) := by
      simp [print, quote, skip, isSpace]
    rw [readValue.eq_def]
    simp only [hskip, stringBody_quote]
    rfl
  | .arr [], n + 1, rest, _, _ => rfl
  | .obj [], n + 1, rest, _, _ => rfl
  | .arr (x :: xs), n + 1, rest, hn, _ => by
    have hitems := readItems_print x xs n rest (by rw [depth] at hn; omega)
    obtain ⟨c, tail, hhead, hspace, hne⟩ := items_head numerals x xs (']' :: rest)
    have hprint : print numerals (.arr (x :: xs)) ++ rest =
        '[' :: (printItems numerals (x :: xs) ++ ']' :: rest) := by simp [print]
    rw [hprint, readValue_items numerals n hhead hspace hne, hitems]
    rfl
  | .obj ((k, x) :: fields), n + 1, rest, hn, _ => by
    have hfields := readFields_print k x fields n rest (by rw [depth] at hn; omega)
    obtain ⟨tail, htail⟩ : ∃ tail, printFields numerals ((k, x) :: fields) ++ '}' :: rest = '"' :: tail := by
      cases fields with
      | nil => exact ⟨_, by rfl⟩
      | cons f fields => exact ⟨_, by rw [printFields, quote]; rfl; simp⟩
    have hprint : print numerals (.obj ((k, x) :: fields)) ++ rest = '{' :: '"' :: tail := by
      rw [← htail]
      simp [print]
    have hread : readValue numerals (n + 1) ('{' :: '"' :: tail) =
        (readFields numerals n ('"' :: tail)).map fun p => (.obj p.1, p.2) := rfl
    rw [hprint, hread, ← htail, hfields]
    rfl

theorem readItems_print : ∀ (x : Value ν) (xs : List (Value ν)) (n : Nat) (rest : List Char),
    depthItems (x :: xs) ≤ n →
    readItems numerals n (printItems numerals (x :: xs) ++ ']' :: rest) = some (x :: xs, rest)
  | x, _, 0, _, hn => by simp [depthItems] at hn
  | x, [], n + 1, rest, hn => by
    have hx := readValue_print x n (']' :: rest) (by rw [depthItems] at hn; omega) (ends_cons (by decide) rest)
    rw [printItems, readItems, hx]
    rfl
  | x, y :: xs, n + 1, rest, hn => by
    rw [depthItems] at hn
    have hx := readValue_print x n (',' :: (printItems numerals (y :: xs) ++ ']' :: rest)) (by omega)
      (ends_cons (by decide) _)
    have hxs := readItems_print y xs n rest (by omega)
    have hprint : printItems numerals (x :: y :: xs) ++ ']' :: rest =
        print numerals x ++ ',' :: (printItems numerals (y :: xs) ++ ']' :: rest) := by simp [printItems]
    have hread :
        readItems numerals (n + 1) (print numerals x ++ ',' :: (printItems numerals (y :: xs) ++ ']' :: rest)) =
        (readItems numerals n (printItems numerals (y :: xs) ++ ']' :: rest)).map fun p => (x :: p.1, p.2) := by
      rw [readItems, hx]
      rfl
    rw [hprint, hread, hxs]
    rfl

theorem readFields_print : ∀ (k : List Char) (x : Value ν) (fields : List (List Char × Value ν)) (n : Nat)
    (rest : List Char), depthFields ((k, x) :: fields) ≤ n →
    readFields numerals n (printFields numerals ((k, x) :: fields) ++ '}' :: rest) = some ((k, x) :: fields, rest)
  | k, x, _, 0, _, hn => by simp [depthFields] at hn
  | k, x, [], n + 1, rest, hn => by
    have hx := readValue_print x n ('}' :: rest) (by rw [depthFields] at hn; omega) (ends_cons (by decide) rest)
    have hprint : printFields numerals [(k, x)] ++ '}' :: rest =
        quote k ++ ':' :: print numerals x ++ '}' :: rest := by simp [printFields]
    rw [hprint, fields_cons, readFields_cons, hx]
    rfl
  | k, x, (l, y) :: fields, n + 1, rest, hn => by
    rw [depthFields] at hn
    have hx := readValue_print x n (',' :: (printFields numerals ((l, y) :: fields) ++ '}' :: rest)) (by omega)
      (ends_cons (by decide) _)
    have hxs := readFields_print l y fields n rest (by omega)
    have hprint : printFields numerals ((k, x) :: (l, y) :: fields) ++ '}' :: rest =
        quote k ++ ':' :: print numerals x ++ ',' :: (printFields numerals ((l, y) :: fields) ++ '}' :: rest) := by
      simp [printFields]
    have hcomma : skip (',' :: (printFields numerals ((l, y) :: fields) ++ '}' :: rest)) =
        ',' :: (printFields numerals ((l, y) :: fields) ++ '}' :: rest) := rfl
    rw [hprint, fields_cons, readFields_cons, hx, Option.bind_some]
    simp only [hcomma, hxs, Option.map_some]
end

mutual
theorem depth_le_length : ∀ v : Value ν, depth v ≤ (print numerals v).length
  | .null => Nat.succ_le_succ (Nat.zero_le _)
  | .bool true => Nat.succ_le_succ (Nat.zero_le _)
  | .bool false => Nat.succ_le_succ (Nat.zero_le _)
  | .num x => by
    obtain ⟨c, rest, h, -⟩ := numerals.text_head x
    simp [print, depth, h]
  | .str s => by simp [print, depth, quote]
  | .arr xs => by
    have := depthItems_le_length xs
    simp only [print, depth, List.length_append, List.length_cons, List.length_nil]
    omega
  | .obj fields => by
    have := depthFields_le_length fields
    simp only [print, depth, List.length_append, List.length_cons, List.length_nil]
    omega

theorem depthItems_le_length : ∀ xs : List (Value ν), depthItems xs ≤ (printItems numerals xs).length + 1
  | [] => Nat.zero_le _
  | [x] => by
    have := depth_le_length x
    simp only [depthItems, printItems]
    omega
  | x :: y :: xs => by
    have := depth_le_length x
    have := depthItems_le_length (y :: xs)
    rw [depthItems, printItems, List.length_append, List.length_cons]
    · omega
    · simp

theorem depthFields_le_length : ∀ fields : List (List Char × Value ν),
    depthFields fields ≤ (printFields numerals fields).length + 1
  | [] => Nat.zero_le _
  | [(k, x)] => by
    have := depth_le_length x
    simp only [depthFields, printFields, List.length_append, List.length_cons]
    omega
  | (k, x) :: f :: fields => by
    have := depth_le_length x
    have := depthFields_le_length (f :: fields)
    rw [depthFields, printFields]
    · simp only [List.length_append, List.length_cons]
      omega
    · simp
end

theorem parse_print (v : Value ν) : parse numerals (print numerals v) = some v := by
  have hdepth := depth_le_length numerals v
  have h := readValue_print numerals v ((print numerals v).length + 1) [] (by omega) (by simp [Ends])
  rw [List.append_nil] at h
  rw [parse, h]
  rfl

end Numbers
end Json
