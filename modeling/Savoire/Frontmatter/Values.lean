import Savoire.Frontmatter.Entries

/-! Values as they are written and as they are read back: two grammars that must be inverse to each other. -/
namespace Savoire.Frontmatter
open VaultIndex

variable {s : Text}

theorem jsTrim_eq (hhead : ∀ c, s.head? = some c → isJsSpace c = false)
    (hlast : ∀ c, s.getLast? = some c → isJsSpace c = false) : jsTrim s = s :=
  Trim.trim_eq_self_iff.2 ⟨hhead, hlast⟩

variable {c : Char}

theorem head_of_jsTrim_eq (h : jsTrim s = s) (hc : s.head? = some c) : isJsSpace c = false :=
  (Trim.trim_eq_self_iff.1 h).1 c hc

theorem last_of_jsTrim_eq (h : jsTrim s = s) (hc : s.getLast? = some c) : isJsSpace c = false :=
  (Trim.trim_eq_self_iff.1 h).2 c hc

theorem jsTrim_jsTrim (s : Text) : jsTrim (jsTrim s) = jsTrim s := Trim.trim_trim isJsSpace s

theorem mem_of_mem_jsTrim (h : c ∈ jsTrim s) : c ∈ s := Trim.mem_of_mem_trim h

theorem unescape_escape (s : Text) : unescape (s.flatMap escapeChar) = s := by
  induction s with
  | nil => rfl
  | cons c s ih =>
    rw [List.flatMap_cons]
    generalize s.flatMap escapeChar = rest at ih
    unfold escapeChar
    by_cases hback : c = '\\'
    · subst hback
      simp [unescape, ih]
    · by_cases hquote : c = '"'
      · subst hquote
        simp [unescape, ih]
      · by_cases hnl : c = '\n'
        · subst hnl
          simp [unescape, ih]
        · by_cases htab : c = '\t'
          · subst htab
            simp [unescape, ih]
          · simp [hback, hquote, hnl, htab, unescape, ih]

theorem unquote_quote (s : Text) : unquote (quote s) = some s := by
  have hquoted : isQuotedBy '"' (quote s) = true := by
    have hlast : (quote s).getLast? = some '"' := by
      rw [quote, ← List.cons_append, List.getLast?_concat]
    simp [isQuotedBy, hlast]
    simp [quote]
  have hinner : (quote s).tail.dropLast = s.flatMap escapeChar := by simp [quote]
  rw [unquote, if_pos hquoted, hinner, unescape_escape]

theorem head_quote (s : Text) : (quote s).head? = some '"' := rfl

theorem last_quote (s : Text) : (quote s).getLast? = some '"' := by
  rw [quote, ← List.cons_append, List.getLast?_concat]

theorem jsTrim_quote (s : Text) : jsTrim (quote s) = quote s := by
  refine jsTrim_eq ?_ ?_
  · intro c hc
    obtain rfl : '"' = c := by simpa [head_quote] using hc
    decide
  · intro c hc
    obtain rfl : '"' = c := by simpa [last_quote] using hc
    decide

/-- A text on one line, apart from `\n`, which is escaped. -/
def OneLine (s : Text) : Prop := ∀ c ∈ s, isTerminator c = true → c = '\n'

theorem not_terminator_quote (h : OneLine s) : ∀ c ∈ quote s, isTerminator c = false := by
  intro c hc
  have hall : ∀ d ∈ s, ∀ e ∈ escapeChar d, isTerminator e = false := by
    intro d hd e he
    unfold escapeChar at he
    split at he
    · obtain rfl : e = '\\' := by simpa using he
      decide
    · split at he
      · obtain rfl | rfl : e = '\\' ∨ e = '"' := by simpa using he
        · decide
        · decide
      · split at he
        · obtain rfl | rfl : e = '\\' ∨ e = 'n' := by simpa using he
          · decide
          · decide
        · split at he
          · obtain rfl | rfl : e = '\\' ∨ e = 't' := by simpa using he
            · decide
            · decide
          · rename_i hnl _
            obtain rfl : e = d := by simpa using he
            by_contra hterm
            exact hnl (h e hd (by simpa using hterm))
  obtain rfl | hc := List.mem_cons.1 hc
  · decide
  · obtain hc | hc := List.mem_append.1 hc
    · obtain ⟨d, hd, hmem⟩ := List.mem_flatMap.1 hc
      exact hall d hd c hmem
    · obtain rfl := List.mem_singleton.1 hc
      decide

variable {ν : Type} {numbers : Numbers ν}

theorem parseScalar_quote (s : Text) : parseScalar numbers (quote s) = .text s := by
  have hstart : startsWithQuote (quote s) = true := by simp [startsWithQuote, head_quote]
  rw [parseScalar, jsTrim_quote, stripComment, if_pos hstart, unquote_quote]

theorem listItem_quote (s : Text) : listItem numbers (quote s) = some s := by
  rw [listItem, parseScalar_quote]
  rfl

/-- What can stand by itself after a colon, a comment after it or not. -/
structure IsPlain (s : Text) : Prop where
  trimmed : jsTrim s = s
  nonempty : s ≠ []
  noMark (c : Char) : s.head? = some c → c ≠ '[' ∧ c ≠ '|' ∧ c ≠ '>' ∧ c ≠ '"' ∧ c ≠ '\''
  noComment : searchComment s = none
  oneLine (c : Char) : c ∈ s → isTerminator c = false

/-- The end of a line after its value: nothing, or a comment. -/
def IsComment (comment : Text) : Prop :=
  (comment = [] ∨ ∃ rest, comment = ' ' :: '#' :: rest ∧ jsTrim ('#' :: rest) = '#' :: rest) ∧
    ∀ c ∈ comment, isTerminator c = false

theorem searchComment_append {rest : Text} (h : searchComment s = none) :
    searchComment (s ++ ' ' :: '#' :: rest) = some s.length := by
  induction s with
  | nil => rfl
  | cons c s ih =>
    unfold searchComment at h
    split at h
    · cases h
    · rename_i hhere
      have hnext : ((s ++ ' ' :: '#' :: rest).head? == some '#') = (s.head? == some '#') := by
        cases s with
        | nil => rfl
        | cons d s => rfl
      rw [List.cons_append, searchComment, hnext, if_neg hhere, ih (by simpa using h)]
      rfl

variable {comment : Text}

theorem stripComment_plain (hs : IsPlain s) (hc : IsComment comment) :
    stripComment (s ++ comment) = s := by
  obtain ⟨c, s', hs'⟩ := List.exists_cons_of_ne_nil hs.nonempty
  have hstart : startsWithQuote (s ++ comment) = false := by
    obtain ⟨-, -, -, hdouble, hsingle⟩ := hs.noMark c (by rw [hs']; rfl)
    rw [hs']
    simp [startsWithQuote, hdouble, hsingle]
  rw [stripComment, if_neg (by simp [hstart])]
  obtain rfl | ⟨rest, rfl, -⟩ := hc.1
  · rw [List.append_nil, hs.noComment]
  · rw [searchComment_append hs.noComment]
    simp only [List.take_left]
    rw [List.rdropWhile_eq_self_iff]
    intro hne
    have hlast := last_of_jsTrim_eq hs.trimmed (List.getLast?_eq_some_getLast hne)
    simpa using hlast

theorem jsTrim_plain (hs : IsPlain s) (hc : IsComment comment) :
    jsTrim (s ++ comment) = s ++ comment := by
  refine jsTrim_eq ?_ ?_
  · intro c hhead
    rw [List.head?_append_of_ne_nil _ hs.nonempty] at hhead
    exact head_of_jsTrim_eq hs.trimmed hhead
  · intro c hlast
    obtain rfl | ⟨rest, rfl, htrim⟩ := hc.1
    · rw [List.append_nil] at hlast
      exact last_of_jsTrim_eq hs.trimmed hlast
    · rw [List.getLast?_append_of_ne_nil _ (by simp), List.getLast?_cons_cons] at hlast
      exact last_of_jsTrim_eq htrim hlast

theorem parseScalar_plain (hs : IsPlain s) (hc : IsComment comment) :
    parseScalar numbers (s ++ comment) = parseScalar numbers s := by
  have hnone : IsComment [] := ⟨.inl rfl, by simp⟩
  have hself := stripComment_plain hs hnone
  rw [List.append_nil] at hself
  rw [parseScalar, parseScalar, jsTrim_plain hs hc, hs.trimmed, stripComment_plain hs hc, hself]

theorem readValue_plain (hs : IsPlain s) (hc : IsComment comment) :
    readValue numbers (s ++ comment) = some (.scalar (parseScalar numbers s)) := by
  obtain ⟨c, rest, hrest⟩ := List.exists_cons_of_ne_nil hs.nonempty
  obtain ⟨hlist, hbar, hfold, -, -⟩ := hs.noMark c (by rw [hrest]; rfl)
  have hhead : (s ++ comment).head? = some c := by
    rw [hrest]
    rfl
  have hempty : s ++ comment ≠ "[]".toList := by
    intro heq
    rw [heq] at hhead
    exact hlist (Option.some.inj hhead).symm
  rw [readValue, if_neg (by simp [hs.nonempty]), if_neg hempty, if_neg (by simp [hhead, hlist]),
    if_neg (by simp [hhead, hbar, hfold]), parseScalar_plain hs hc]

theorem readValue_quote (s : Text) : readValue numbers (quote s) = some (.scalar (.text s)) := by
  have hempty : quote s ≠ "[]".toList := by
    intro heq
    cases (List.cons.inj heq).1
  rw [readValue, if_neg (by simp [quote]), if_neg hempty, if_neg (by simp [head_quote]), if_neg (by simp [head_quote]),
    parseScalar_quote]

theorem searchComment_of_not_space (h : ∀ c ∈ s, isJsSpace c = false) : searchComment s = none := by
  induction s with
  | nil => rfl
  | cons c s ih =>
    rw [searchComment, if_neg (by simp [h c List.mem_cons_self]), ih fun d hd => h d (List.mem_cons_of_mem c hd)]
    rfl

theorem isPlain_of_needsQuotes [DecidableEq ν] {inList : Bool} (h : needsQuotes numbers s inList = false)
    (hline : OneLine s) : IsPlain s := by
  simp only [needsQuotes, Bool.or_eq_false_iff, beq_eq_false_iff_ne, bne_eq_false_iff_eq, List.any_eq_false,
    Bool.not_eq_true] at h
  obtain ⟨⟨⟨⟨⟨⟨hne, htrim⟩, hcontrol⟩, hmark⟩, -⟩, hcomment⟩, -⟩ := h
  refine ⟨htrim.symm, hne, ?_, by simpa using hcomment, ?_⟩
  · intro c hc
    cases s with
    | nil => cases hc
    | cons d s =>
      obtain rfl : d = c := by simpa using hc
      simp only [hasMark, Bool.or_eq_false_iff] at hmark
      refine ⟨?_, ?_, ?_, ?_, ?_⟩ <;> rintro rfl <;> exact absurd hmark.2 (by decide)
  · intro c hc
    by_contra hterm
    obtain rfl := hline c hc (by simpa using hterm)
    have hnl := hcontrol '\n' hc
    revert hnl
    decide

def isNumberChar (c : Char) : Bool := c.isDigit || ['+', '-', '.', 'e', 'E'].contains c

theorem numberChar_cases (h : isNumberChar c = true) :
    (48 ≤ c.toNat ∧ c.toNat ≤ 57) ∨ c.toNat = 43 ∨ c.toNat = 45 ∨ c.toNat = 46 ∨ c.toNat = 101 ∨ c.toNat = 69 := by
  simp only [isNumberChar, Bool.or_eq_true, Char.isDigit_iff_toNat] at h
  obtain hdigit | hother := h
  · exact .inl hdigit
  · have hmem : c ∈ ['+', '-', '.', 'e', 'E'] := by simpa using hother
    simp only [List.mem_cons, List.not_mem_nil, or_false] at hmem
    obtain rfl | rfl | rfl | rfl | rfl := hmem <;> decide

theorem numberChar_not_space (h : isNumberChar c = true) : isJsSpace c = false := by
  have hcases := numberChar_cases h
  simp only [isJsSpace, Text.isWhiteSpace, Bool.or_eq_false_iff, Bool.and_eq_false_iff, beq_eq_false_iff_ne,
    decide_eq_false_iff_not]
  omega

theorem numberChar_not_terminator (h : isNumberChar c = true) : isTerminator c = false := by
  have hcases := numberChar_cases h
  have hlf : c ≠ '\n' := by
    rintro rfl
    revert hcases
    decide
  have hcr : c ≠ '\r' := by
    rintro rfl
    revert hcases
    decide
  simp only [isTerminator, Bool.or_eq_false_iff, beq_eq_false_iff_ne]
  refine ⟨⟨⟨hlf, hcr⟩, ?_⟩, ?_⟩ <;> omega

theorem numberChar_of_unsign (h : ∀ c ∈ unsign s, isNumberChar c = true) : ∀ c ∈ s, isNumberChar c = true := by
  unfold unsign at h
  split at h
  · intro c hc
    obtain rfl | hc := List.mem_cons.1 hc
    · decide
    · exact h c hc
  · intro c hc
    obtain rfl | hc := List.mem_cons.1 hc
    · decide
    · exact h c hc
  · exact h

theorem numberChar_of_digits (h : ∀ c ∈ s.dropWhile Char.isDigit, isNumberChar c = true) :
    ∀ c ∈ s, isNumberChar c = true := by
  intro c hc
  rw [← List.takeWhile_append_dropWhile (p := Char.isDigit) (l := s)] at hc
  obtain hc | hc := List.mem_append.1 hc
  · have hdigit := List.mem_takeWhile_imp hc
    simp [isNumberChar, hdigit]
  · exact h c hc

theorem numberChar_of_mantissa {rest : Text} (h : mantissa? s = some rest)
    (hrest : ∀ c ∈ rest, isNumberChar c = true) : s ≠ [] ∧ ∀ c ∈ s, isNumberChar c = true := by
  have hdot : ∀ t : Text, rest = t.dropWhile Char.isDigit → ∀ c ∈ '.' :: t, isNumberChar c = true := by
    rintro t rfl c hc
    obtain rfl | hc := List.mem_cons.1 hc
    · decide
    · exact numberChar_of_digits hrest c hc
  have hnonempty : s.takeWhile Char.isDigit ≠ [] → s ≠ [] := by
    rintro hne rfl
    exact hne rfl
  unfold mantissa? at h
  split at h
  · rename_i t hwhole hdrop
    have hne : s.takeWhile Char.isDigit ≠ [] := by simp [hwhole]
    refine ⟨hnonempty hne, numberChar_of_digits ?_⟩
    rw [hdrop]
    exact hdot t (Option.some.inj h).symm
  · rename_i hwhole _
    have hne : s.takeWhile Char.isDigit ≠ [] := by simp [hwhole]
    refine ⟨hnonempty hne, numberChar_of_digits ?_⟩
    rw [Option.some.inj h]
    exact hrest
  · rename_i t hwhole hdrop
    split at h
    · cases h
    · have hall : ∀ c ∈ s, isNumberChar c = true := by
        refine numberChar_of_digits ?_
        rw [hdrop]
        exact hdot t (Option.some.inj h).symm
      refine ⟨?_, hall⟩
      rintro rfl
      cases hdrop
  · cases h

theorem numberChar_of_exponent (h : isExponent s = true) : ∀ c ∈ s, isNumberChar c = true := by
  cases s with
  | nil => simp
  | cons c s =>
    simp only [isExponent, Bool.and_eq_true, Bool.or_eq_true, beq_iff_eq, decide_eq_true_eq] at h
    obtain ⟨⟨hmark, -⟩, hdigits⟩ := h
    intro d hd
    obtain rfl | hd := List.mem_cons.1 hd
    · obtain rfl | rfl := hmark <;> decide
    · refine numberChar_of_unsign (fun e he => ?_) d hd
      have hdigit := List.all_eq_true.mp hdigits e he
      simp [isNumberChar, hdigit]

theorem numberChar_of_isNumeric (h : isNumeric s = true) :
    s ≠ [] ∧ ∀ c ∈ s, isNumberChar c = true := by
  unfold isNumeric at h
  cases hrest : mantissa? (unsign s) with
  | none => simp [hrest] at h
  | some rest =>
    have hexp : isExponent rest = true := by simpa [hrest] using h
    obtain ⟨hne, hall⟩ := numberChar_of_mantissa hrest (numberChar_of_exponent hexp)
    refine ⟨?_, numberChar_of_unsign hall⟩
    rintro rfl
    exact hne rfl

theorem isPlain_of_isNumeric (h : isNumeric s = true) : IsPlain s := by
  obtain ⟨hne, hall⟩ := numberChar_of_isNumeric h
  refine ⟨?_, hne, ?_, searchComment_of_not_space fun c hc => numberChar_not_space (hall c hc),
    fun c hc => numberChar_not_terminator (hall c hc)⟩
  · exact jsTrim_eq (fun c hc => numberChar_not_space (hall c (List.mem_of_head? hc)))
      fun c hc => numberChar_not_space (hall c (List.mem_of_getLast? hc))
  · intro c hc
    have hchar := hall c (List.mem_of_head? hc)
    refine ⟨?_, ?_, ?_, ?_, ?_⟩ <;> rintro rfl <;> revert hchar <;> decide

/-- What `Number` and `String` do with a number that is finite. -/
def Lawful (numbers : Numbers ν) : Prop :=
  ∀ n, numbers.isFinite n = true → isNumeric (numbers.print n) = true ∧ numbers.read (numbers.print n) = n

theorem parseScalar_number (h : isNumeric s = true) :
    parseScalar numbers s = .number (numbers.read s) := by
  obtain ⟨hne, hall⟩ := numberChar_of_isNumeric h
  have hplain := isPlain_of_isNumeric h
  have hnone : IsComment [] := ⟨.inl rfl, by simp⟩
  have hstrip := stripComment_plain hplain hnone
  rw [List.append_nil] at hstrip
  have hquote : unquote s = none := by
    obtain ⟨c, rest, rfl⟩ := List.exists_cons_of_ne_nil hne
    obtain ⟨-, -, -, hdouble, hsingle⟩ := hplain.noMark c rfl
    simp [unquote, isQuotedBy, hdouble, hsingle]
  have hword : ∀ (c : Char) (rest : Text), isNumberChar c = false → s ≠ c :: rest := by
    rintro c rest hc rfl
    rw [hall c List.mem_cons_self] at hc
    cases hc
  rw [parseScalar, hplain.trimmed, hstrip, hquote]
  rw [if_neg, if_neg, if_neg, if_pos h]
  · simp only [List.mem_cons, List.not_mem_nil, or_false, not_or]
    exact ⟨hword 'f' _ (by decide), hword 'F' _ (by decide), hword 'F' _ (by decide)⟩
  · simp only [List.mem_cons, List.not_mem_nil, or_false, not_or]
    exact ⟨hword 't' _ (by decide), hword 'T' _ (by decide), hword 'T' _ (by decide)⟩
  · simp only [List.mem_cons, List.not_mem_nil, or_false, not_or]
    exact ⟨hne, hword '~' _ (by decide), hword 'n' _ (by decide), hword 'N' _ (by decide), hword 'N' _ (by decide)⟩

def ReadsBack (numbers : Numbers ν) [DecidableEq ν] (s : Text) : Prop :=
  OneLine s ∧ (needsQuotes numbers s true = false → listItem numbers s = some s)

theorem formatListItem_cases [DecidableEq ν] (h : ReadsBack numbers s) (inline : Bool) :
    (formatListItem numbers s inline = quote s ∨
      (formatListItem numbers s inline = s ∧ IsPlain s)) ∧ listItem numbers (formatListItem numbers s inline) = some s := by
  unfold formatListItem
  split
  · exact ⟨.inl rfl, listItem_quote s⟩
  · rename_i hnot
    have hbare : needsQuotes numbers s true = false := by
      simp only [Bool.or_eq_true, not_or, Bool.not_eq_true] at hnot
      exact hnot.1
    exact ⟨.inr ⟨rfl, isPlain_of_needsQuotes hbare h.1⟩, h.2 hbare⟩

theorem formatListItem_trimmed [DecidableEq ν] (h : ReadsBack numbers s) (inline : Bool) :
    jsTrim (formatListItem numbers s inline) = formatListItem numbers s inline ∧
      formatListItem numbers s inline ≠ [] ∧
      ∀ c ∈ formatListItem numbers s inline, isTerminator c = false := by
  obtain ⟨hquote | ⟨hself, hplain⟩, -⟩ := formatListItem_cases h inline
  · rw [hquote]
    exact ⟨jsTrim_quote s, by simp [quote], not_terminator_quote h.1⟩
  · rw [hself]
    exact ⟨hplain.trimmed, hplain.nonempty, hplain.oneLine⟩

def quoteEnd : Option Char → Text → Option (Option Char)
  | q, [] => some q
  | some q, c :: rest => quoteEnd (if c = q then none else some q) rest
  | none, c :: rest =>
    if c = '"' ∨ c = '\'' then quoteEnd (some c) rest else if c = ',' then none else quoteEnd none rest

/-- Items that the commas between them keep apart: none has a comma outside quotes, and none but the last
leaves a quote open. -/
def Apart : List Text → Prop
  | [] => True
  | [last] => quoteEnd none last ≠ none
  | item :: rest => quoteEnd none item = some none ∧ Apart rest

theorem splitFrom_append {q q' : Option Char} {w : Text} (h : quoteEnd q w = some q') (cur rest : Text) :
    splitFrom q cur (w ++ rest) = splitFrom q' (cur ++ w) rest := by
  induction w generalizing q cur with
  | nil =>
    obtain rfl := Option.some.inj h
    rw [List.append_nil]
    rfl
  | cons c w ih =>
    have happ : cur ++ c :: w = (cur ++ [c]) ++ w := by simp
    cases q with
    | some quote =>
      rw [List.cons_append, splitFrom, ih h, happ]
    | none =>
      rw [quoteEnd] at h
      rw [List.cons_append, splitFrom]
      split at h
      · rename_i hc
        rw [if_pos hc, ih h, happ]
      · rename_i hc
        split at h
        · cases h
        · rename_i hcomma
          rw [if_neg hc, if_neg hcomma, ih h, happ]

theorem jsTrim_spaces {cur w : Text} (hcur : ∀ c ∈ cur, isJsSpace c = true) (hw : jsTrim w = w) :
    jsTrim (cur ++ w) = w := by
  have haround := Trim.trim_around hcur (List.forall_mem_nil _) hw
  rwa [List.append_nil] at haround

theorem splitFrom_intercalate {ws : List Text} (hne : ws ≠ []) (htrim : ∀ w ∈ ws, jsTrim w = w) (hapart : Apart ws)
    {cur : Text} (hcur : ∀ c ∈ cur, isJsSpace c = true) :
    (splitFrom none cur (", ".toList.intercalate ws)).map jsTrim = ws := by
  induction ws generalizing cur with
  | nil => exact absurd rfl hne
  | cons w ws ih =>
    have hw := htrim w List.mem_cons_self
    cases ws with
    | nil =>
      obtain ⟨q, hq⟩ := Option.ne_none_iff_exists'.mp hapart
      have hone := splitFrom_append hq cur []
      rw [List.append_nil] at hone
      rw [List.intercalate_singleton, hone]
      simp [splitFrom, jsTrim_spaces hcur hw]
    | cons next rest =>
      obtain ⟨hclosed, hrest⟩ := hapart
      have hcomma : splitFrom none (cur ++ w) (',' :: ' ' :: ", ".toList.intercalate (next :: rest)) =
          (cur ++ w) :: splitFrom none [' '] (", ".toList.intercalate (next :: rest)) := by
        rfl
      have hjoin : ", ".toList.intercalate (w :: next :: rest) =
          w ++ ',' :: ' ' :: ", ".toList.intercalate (next :: rest) := by
        rfl
      rw [hjoin, splitFrom_append hclosed, hcomma, List.map_cons, jsTrim_spaces hcur hw,
        ih (by simp) (fun x hx => htrim x (List.mem_cons_of_mem w hx)) hrest (forall_mem_of_all (by decide))]

theorem splitInlineList_intercalate {ws : List Text} (hne : ws ≠ []) (htrim : ∀ w ∈ ws, jsTrim w = w ∧ w ≠ [])
    (hapart : Apart ws) : splitInlineList (", ".toList.intercalate ws) = ws := by
  rw [splitInlineList, splitFrom_intercalate hne (fun w hw => (htrim w hw).1) hapart (by simp), List.filter_eq_self]
  intro w hw
  simpa using (htrim w hw).2

theorem readValue_inline [DecidableEq ν] {items : List Text} (hne : items ≠ []) (hitems : ∀ s ∈ items, ReadsBack numbers s)
    (hapart : Apart (items.map (formatListItem numbers · true))) :
    readValue numbers ('[' :: (", ".toList.intercalate (items.map (formatListItem numbers · true)) ++ [']'])) =
      some (.list items) := by
  have htrim : ∀ w ∈ items.map (formatListItem numbers · true), jsTrim w = w ∧ w ≠ [] := by
    intro w hw
    obtain ⟨s, hs, rfl⟩ := List.mem_map.1 hw
    obtain ⟨htrim, hnonempty, -⟩ := formatListItem_trimmed (hitems s hs) true
    exact ⟨htrim, hnonempty⟩
  have hws : items.map (formatListItem numbers · true) ≠ [] := by simpa using hne
  have hsplit := splitInlineList_intercalate hws htrim hapart
  generalize hinner : ", ".toList.intercalate (items.map (formatListItem numbers · true)) = inner at hsplit ⊢
  have hinner_ne : inner ≠ [] := by
    rintro rfl
    rw [← hsplit] at hws
    exact hws (by decide)
  have hlast : ('[' :: (inner ++ [']'])).getLast? = some ']' := by rw [← List.cons_append, List.getLast?_concat]
  have hnot : '[' :: (inner ++ [']']) ≠ "[]".toList := by
    intro heq
    have hnil : inner ++ [']'] = [']'] := (List.cons.inj heq).2
    exact hinner_ne (by simpa using hnil)
  have htail : ('[' :: (inner ++ [']'])).tail.dropLast = inner := by simp
  rw [readValue, if_neg (by simp), if_neg hnot, if_pos ⟨rfl, hlast⟩, htail, hsplit, List.filterMap_map]
  have hback : items.filterMap (fun s => listItem numbers (formatListItem numbers s true)) = items := by
    have hsome : items.filterMap (fun s => listItem numbers (formatListItem numbers s true)) = items.filterMap some :=
      List.filterMap_congr fun s hs => (formatListItem_cases (hitems s hs) true).2
    rw [hsome, List.filterMap_some]
  exact congrArg (fun l => some (FrontmatterValue.list l)) hback

end Savoire.Frontmatter
