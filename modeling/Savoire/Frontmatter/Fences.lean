import Savoire.Frontmatter.Edit

/-! Where the frontmatter closes: at the first line that is a fence. What a text may hold so that it stays
open there. -/
namespace Savoire.Frontmatter

theorem forall_mem_of_all {p : Char → Prop} [DecidablePred p] {s : Text} (h : (s.all fun c => decide (p c)) = true) :
    ∀ c ∈ s, p c := by
  simpa using h

theorem lineEnd?_isSome (t : Text) : (lineEnd? t).isSome = t.head?.all isTerminator := by
  unfold lineEnd?
  split
  · rename_i rest h
    unfold newline? at h
    split at h <;> first | rfl | cases h
  · split
    · rename_i h
      simp [h]
    · rename_i h
      simpa using h

def isFence (line : Text) : Bool :=
  (line.take 3 = "---".toList ∨ line.take 3 = "...".toList) && (line.drop 3).all isBlank

variable {c : Char}

theorem isBlank_not_terminator (h : isBlank c = true) : isTerminator c = false := by
  simp only [isBlank, Bool.or_eq_true, beq_iff_eq] at h
  obtain rfl | rfl := h <;> decide

variable {l v : Text}

theorem head_dropWhile_blank (hl : ∀ c ∈ l, isTerminator c = false) (hv : v.head?.all isTerminator = true) :
    ((l ++ v).dropWhile isBlank).head?.all isTerminator = l.all isBlank := by
  induction l with
  | nil =>
    cases v with
    | nil => rfl
    | cons c v =>
      have hc : isTerminator c = true := by simpa using hv
      have hblank : isBlank c = false := by
        by_contra hb
        have hnot := isBlank_not_terminator (by simpa using hb)
        rw [hc] at hnot
        cases hnot
      simp [hblank, hc]
  | cons c l ih =>
    have hrest := ih fun d hd => hl d (List.mem_cons_of_mem _ hd)
    cases hb : isBlank c with
    | true => simpa [List.dropWhile_cons, hb] using hrest
    | false =>
      have hc := hl c List.mem_cons_self
      simp [hb, hc]

theorem take_three (hc : isTerminator c = false) (hv : v.head?.all isTerminator = true) :
    (l ++ v).take 3 = [c, c, c] ↔ l.take 3 = [c, c, c] := by
  have hhead : ∀ d v', v = d :: v' → d ≠ c := by
    rintro d v' rfl rfl
    have hd : isTerminator d = true := by simpa using hv
    rw [hc] at hd
    cases hd
  have hlen : ∀ t : Text, t.take 3 = [c, c, c] → 3 ≤ t.length := by
    intro t ht
    have hthree := congrArg List.length ht
    rw [List.length_take] at hthree
    simp only [List.length_cons, List.length_nil] at hthree
    omega
  by_cases hl : 3 ≤ l.length
  · rw [List.take_append_of_le_length hl]
  · refine ⟨fun h => ?_, fun h => absurd (hlen l h) hl⟩
    -- what follows the line would be one of the three
    rw [List.take_append] at h
    have hmem : ∀ d ∈ v.take (3 - l.length), d = c := by
      intro d hd
      have hall : d ∈ [c, c, c] := h ▸ List.mem_append_right _ hd
      simpa using hall
    cases v with
    | nil =>
      have hthree := hlen l (by simpa using h)
      exact absurd hthree hl
    | cons d v' =>
      refine absurd (hmem d ?_) (hhead d v' rfl)
      obtain ⟨n, hn⟩ : ∃ n, 3 - l.length = n + 1 := ⟨2 - l.length, by omega⟩
      rw [hn, List.take_succ_cons]
      exact List.mem_cons_self

theorem fence?_line (hl : ∀ c ∈ l, isTerminator c = false) (hv : v.head?.all isTerminator = true) :
    (fence? (l ++ v)).isSome = isFence l := by
  have hdash := take_three (l := l) (by decide : isTerminator '-' = false) hv
  have hdot := take_three (l := l) (by decide : isTerminator '.' = false) hv
  unfold fence? isFence
  by_cases h : l.take 3 = "---".toList ∨ l.take 3 = "...".toList
  · have hlv : (l ++ v).take 3 = "---".toList ∨ (l ++ v).take 3 = "...".toList := h.imp hdash.mpr hdot.mpr
    have hlen : 3 ≤ l.length := by
      have hthree : (l.take 3).length = 3 := by
        obtain h | h := h <;> rw [h] <;> rfl
      rw [List.length_take] at hthree
      omega
    rw [if_pos hlv, lineEnd?_isSome, List.drop_append_of_le_length hlen,
      head_dropWhile_blank (fun c hc => hl c (List.mem_of_mem_drop hc)) hv, decide_eq_true h, Bool.true_and]
  · have hlv : ¬ ((l ++ v).take 3 = "---".toList ∨ (l ++ v).take 3 = "...".toList) :=
      fun hor => h (hor.imp hdash.mp hdot.mp)
    rw [if_neg hlv, decide_eq_false h]
    rfl

/-- What is before it and what follows it. -/
def findFence : Bool → Text → Option (Text × Text)
  | _, [] => none
  | lineStart, c :: rest => match if lineStart then fence? (c :: rest) else none with
    | some after => some ([], after)
    | none => (findFence (isTerminator c) rest).map fun b => (c :: b.1, b.2)

/-- A text without the `\r?\n` at its end. -/
def chop (t : Text) : Text := if t.getLast? = some '\n' then stripCr t.dropLast else t

theorem fence?_newline (rest : Text) (hc : isTerminator c = true) : fence? (c :: rest) = none := by
  have hline := fence?_line (l := []) (v := c :: rest) (by simp) (by simpa using hc)
  exact Option.not_isSome_iff_eq_none.mp (by simpa [isFence] using hline)

variable {t rest : Text}

theorem newline?_cases (h : newline? t = some rest) : t = '\n' :: rest ∨ t = '\r' :: '\n' :: rest := by
  unfold newline? at h
  split at h
  · exact .inl (by rw [Option.some.inj h])
  · exact .inr (by rw [Option.some.inj h])
  · cases h

theorem chop_lf (t : Text) : chop (t ++ ['\n']) = stripCr t := by
  simp [chop]

theorem stripCr_cr (t : Text) : stripCr (t ++ ['\r']) = t := by
  simp [stripCr]

theorem stripCr_of_ne (h : t.getLast? ≠ some '\r') : stripCr t = t := if_neg h

theorem stripCr_cons (h : t ≠ []) : stripCr (c :: t) = c :: stripCr t := by
  cases t with
  | nil => exact absurd rfl h
  | cons d t =>
    unfold stripCr
    rw [List.getLast?_cons_cons, List.dropLast_cons_of_ne_nil (List.cons_ne_nil d t)]
    split <;> rfl

theorem chop_cons (hlf : ¬ (c = '\n' ∧ t = [])) (hcr : ¬ (c = '\r' ∧ t = ['\n'])) :
    chop (c :: t) = c :: chop t := by
  unfold chop
  cases t with
  | nil =>
    have hc : c ≠ '\n' := fun hc => hlf ⟨hc, rfl⟩
    simp [hc]
  | cons d t =>
    rw [List.getLast?_cons_cons, List.dropLast_cons_of_ne_nil (List.cons_ne_nil d t)]
    split
    · rename_i hlast
      by_cases hrest : (d :: t).dropLast = []
      · have ht : t = [] := by
          cases t with
          | nil => rfl
          | cons e t => cases hrest
        subst ht
        have hd : d = '\n' := by simpa using hlast
        have hc : c ≠ '\r' := fun hc => hcr ⟨hc, by rw [hd]⟩
        simp [stripCr, hc]
      · exact stripCr_cons hrest
    · rfl

variable {b : Bool} {after : Text}

theorem findFence_nil (h : findFence b t = some ([], after)) :
    b = true ∧ fence? t = some after := by
  cases t with
  | nil => cases h
  | cons c t =>
    unfold findFence at h
    split at h
    · rename_i hfence
      obtain ⟨-, rfl⟩ := Prod.mk.inj (Option.some.inj h)
      cases b with
      | true => exact ⟨rfl, hfence⟩
      | false => cases hfence
    · obtain ⟨p, -, heq⟩ := Option.map_eq_some_iff.1 h
      cases (Prod.mk.inj heq).1

theorem findFence_of_fence (h : fence? t = some after) : findFence true t = some ([], after) := by
  cases t with
  | nil =>
    have hnone : fence? [] = none := by decide
    cases h
  | cons c t =>
    unfold findFence
    rw [if_pos rfl, h]

theorem findFence_newline (hnl : newline? t = some rest)
    (hfence : fence? rest = some after) : ∃ pre, findFence b t = some (pre, after) ∧ chop pre = [] := by
  have hlf : ∀ b, findFence b ('\n' :: rest) = some (['\n'], after) := by
    intro b
    have hnone : (if b then fence? ('\n' :: rest) else none) = none := by
      rw [fence?_newline rest (by decide), ite_self]
    unfold findFence
    rw [hnone]
    simp [(by decide : isTerminator '\n' = true), findFence_of_fence hfence]
  obtain rfl | rfl := newline?_cases hnl
  · exact ⟨['\n'], hlf b, by decide⟩
  · have hnone : (if b then fence? ('\r' :: '\n' :: rest) else none) = none := by
      rw [fence?_newline _ (by decide), ite_self]
    refine ⟨['\r', '\n'], ?_, by decide⟩
    unfold findFence
    rw [hnone]
    simp [hlf]

theorem findClose_eq (b : Bool) (t : Text) : findClose b t = (findFence b t).map fun p => (chop p.1, p.2) := by
  induction t generalizing b with
  | nil => rfl
  | cons c rest ih =>
    unfold findClose
    split
    · rename_i after hbind
      obtain ⟨r, hnl, hfence⟩ := Option.bind_eq_some_iff.1 hbind
      obtain ⟨pre, hfind, hchop⟩ := findFence_newline (b := b) hnl hfence
      rw [hfind, Option.map_some, hchop]
    · rename_i hbind
      rw [findFence]
      cases (if b then fence? (c :: rest) else none) with
      | some after => rfl
      | none =>
        simp only [ih]
        show _ = ((findFence (isTerminator c) rest).map fun b => (c :: b.1, b.2)).map _
        rw [Option.map_map, Option.map_map]
        refine Option.map_congr ?_
        rintro ⟨pre, after⟩ hfind
        have hcons : chop (c :: pre) = c :: chop pre := by
          refine chop_cons ?_ ?_
          · rintro ⟨rfl, rfl⟩
            obtain ⟨-, hfence⟩ := findFence_nil hfind
            simp [newline?, hfence] at hbind
          · rintro ⟨rfl, rfl⟩
            cases rest with
            | nil => cases hfind
            | cons d r =>
              unfold findFence at hfind
              split at hfind
              · cases (Prod.mk.inj (Option.some.inj hfind)).1
              · obtain ⟨⟨pre, after'⟩, hrest, heq⟩ := Option.map_eq_some_iff.1 hfind
                obtain ⟨hpre, rfl⟩ := Prod.mk.inj heq
                obtain ⟨rfl, rfl⟩ := List.cons.inj hpre
                obtain ⟨-, hfence⟩ := findFence_nil hrest
                simp [newline?, hfence] at hbind
        simp [hcons]

/-- No fence begins at the start of a line of `u`, when `v` follows. -/
def Quiet : Bool → Text → Text → Prop
  | _, [], _ => True
  | lineStart, c :: u, v => (lineStart = true → fence? (c :: u ++ v) = none) ∧ Quiet (isTerminator c) u v

/-- What comes after `u` is at the start of a line. -/
def startAfter (b : Bool) (u : Text) : Bool := (u.getLast?.map isTerminator).getD b

@[simp] theorem startAfter_nil (b : Bool) : startAfter b [] = b := rfl

@[simp] theorem startAfter_concat (b : Bool) (u : Text) (c : Char) : startAfter b (u ++ [c]) = isTerminator c := by
  simp [startAfter]

theorem startAfter_cons (b : Bool) (c : Char) (u : Text) : startAfter b (c :: u) = startAfter (isTerminator c) u := by
  cases u with
  | nil => rfl
  | cons d u =>
    unfold startAfter
    rfl

theorem startAfter_append (b : Bool) (u w : Text) : startAfter b (u ++ w) = startAfter (startAfter b u) w := by
  induction u generalizing b with
  | nil => rfl
  | cons c u ih => rw [List.cons_append, startAfter_cons, startAfter_cons, ih]

variable {u : Text}

theorem quiet_append {w : Text} :
    Quiet b (u ++ w) v ↔ Quiet b u (w ++ v) ∧ Quiet (startAfter b u) w v := by
  induction u generalizing b with
  | nil => simp [Quiet]
  | cons c u ih =>
    rw [List.cons_append, Quiet, Quiet, ih, startAfter_cons, ← List.cons_append, List.append_assoc, and_assoc]

theorem findFence_append (h : Quiet b u v) :
    findFence b (u ++ v) = (findFence (startAfter b u) v).map fun p => (u ++ p.1, p.2) := by
  induction u generalizing b with
  | nil => simp
  | cons c u ih =>
    obtain ⟨hhere, hrest⟩ := h
    have hnone : (if b then fence? (c :: u ++ v) else none) = none := by
      cases b with
      | true => exact hhere rfl
      | false => rfl
    rw [List.cons_append, findFence]
    rw [List.cons_append] at hnone
    rw [hnone, startAfter_cons, ih hrest]
    show ((findFence _ v).map _).map _ = _
    rw [Option.map_map]
    rfl

theorem findFence_some {pre : Text} (h : findFence b t = some (pre, after)) :
    ∃ tail, t = pre ++ tail ∧ Quiet b pre tail ∧ startAfter b pre = true ∧ fence? tail = some after := by
  induction t generalizing b pre with
  | nil => cases h
  | cons c t ih =>
    unfold findFence at h
    split at h
    · rename_i hfence
      obtain ⟨rfl, rfl⟩ := Prod.mk.inj (Option.some.inj h)
      cases b with
      | true => exact ⟨c :: t, rfl, trivial, rfl, hfence⟩
      | false => cases hfence
    · rename_i hnone
      obtain ⟨⟨pre', after'⟩, hrest, heq⟩ := Option.map_eq_some_iff.1 h
      obtain ⟨rfl, rfl⟩ := Prod.mk.inj heq
      obtain ⟨tail, rfl, hquiet, hstart, hfence⟩ := ih hrest
      refine ⟨tail, rfl, ⟨?_, hquiet⟩, ?_, hfence⟩
      · rintro rfl
        exact hnone
      · rw [startAfter_cons]
        exact hstart

theorem findFence_none : findFence b t = none ↔ Quiet b t [] := by
  induction t generalizing b with
  | nil => simp [findFence, Quiet]
  | cons c t ih =>
    rw [Quiet, List.append_nil, findFence, ← ih]
    cases b with
    | true =>
      cases hfence : fence? (c :: t) with
      | none => simp
      | some after => simp
    | false => simp

/-- The characters of a line that is a fence. -/
def isFenceChar (c : Char) : Bool := c == '-' || c == '.' || isBlank c

theorem isFenceChar_not_terminator (h : isFenceChar c = true) : isTerminator c = false := by
  simp only [isFenceChar, Bool.or_eq_true, beq_iff_eq] at h
  obtain (rfl | rfl) | hblank := h
  · decide
  · decide
  · exact isBlank_not_terminator hblank

theorem isFenceChar_of_isFence (h : isFence l = true) (hc : c ∈ l) : isFenceChar c = true := by
  simp only [isFence, Bool.and_eq_true, decide_eq_true_eq, List.all_eq_true] at h
  obtain ⟨hthree, hblank⟩ := h
  rw [← List.take_append_drop 3 l] at hc
  obtain hc | hc := List.mem_append.1 hc
  · obtain heq | heq := hthree
    · rw [heq] at hc
      obtain rfl : c = '-' := by simpa using hc
      decide
    · rw [heq] at hc
      obtain rfl : c = '.' := by simpa using hc
      decide
  · simp [isFenceChar, hblank c hc]

theorem fence?_head {w : Text} (hl : ∀ d ∈ l, isFenceChar d = true) (hc : isFenceChar c = false) :
    (fence? (l ++ c :: w)).isSome = (isTerminator c && isFence l) := by
  cases hterm : isTerminator c with
  | true =>
    exact fence?_line (fun d hd => isFenceChar_not_terminator (hl d hd)) (by simpa using hterm)
  | false =>
    rw [Bool.false_and]
    -- the character is on the line
    have hsplit : l ++ c :: w = (l ++ c :: w.takeWhile fun d => !isTerminator d) ++ w.dropWhile fun d => !isTerminator d := by
      rw [List.append_assoc, List.cons_append, List.takeWhile_append_dropWhile]
    have hline : ∀ d ∈ l ++ c :: w.takeWhile fun d => !isTerminator d, isTerminator d = false := by
      intro d hd
      obtain hd | hd := List.mem_append.1 hd
      · exact isFenceChar_not_terminator (hl d hd)
      · obtain rfl | hd := List.mem_cons.1 hd
        · exact hterm
        · simpa using List.mem_takeWhile_imp hd
    have hend : (w.dropWhile fun d => !isTerminator d).head?.all isTerminator = true := by
      have hhead := List.head?_dropWhile_not (fun d => !isTerminator d) w
      revert hhead
      cases (w.dropWhile fun d => !isTerminator d).head? <;> simp
    rw [hsplit, fence?_line hline hend]
    by_contra hfence
    have hmine := isFenceChar_of_isFence (by simpa using hfence) (List.mem_append_right l List.mem_cons_self)
    rw [hc] at hmine
    cases hmine

theorem fence?_congr (hmem : c ∈ u) (hc : isFenceChar c = false) (v v' : Text) :
    (fence? (u ++ v)).isSome = (fence? (u ++ v')).isSome := by
  have hu := List.takeWhile_append_dropWhile (p := isFenceChar) (l := u)
  cases hrest : u.dropWhile isFenceChar with
  | nil =>
    have hall := List.dropWhile_eq_nil_iff.mp hrest c hmem
    rw [hc] at hall
    cases hall
  | cons d w =>
    have hl : ∀ x ∈ u.takeWhile isFenceChar, isFenceChar x = true := fun x hx => List.mem_takeWhile_imp hx
    have hd : isFenceChar d = false := by
      have hhead := List.head?_dropWhile_not isFenceChar u
      rw [hrest] at hhead
      simpa using hhead
    rw [hrest] at hu
    rw [← hu, List.append_assoc, List.append_assoc, List.cons_append, List.cons_append, fence?_head hl hd,
      fence?_head hl hd]

theorem Quiet.congr (h : Quiet b (u ++ [c]) v) (hc : isFenceChar c = false)
    (v' : Text) : Quiet b (u ++ [c]) v' := by
  induction u generalizing b with
  | nil =>
    refine ⟨?_, trivial⟩
    rintro rfl
    have hsame := fence?_congr (List.mem_singleton_self c) hc v v'
    rw [h.1 rfl] at hsame
    exact Option.isSome_eq_false_iff.mp hsame.symm |> Option.isNone_iff_eq_none.mp
  | cons d u ih =>
    obtain ⟨hhere, hrest⟩ := h
    refine ⟨?_, ih hrest⟩
    rintro rfl
    have hsame := fence?_congr (List.mem_append_right (d :: u) (List.mem_singleton_self c)) hc v v'
    have hnone : fence? (d :: u ++ [c] ++ v) = none := hhere rfl
    rw [hnone] at hsame
    exact Option.isSome_eq_false_iff.mp hsame.symm |> Option.isNone_iff_eq_none.mp

theorem Quiet.of_terminator {v' : Text} (h : Quiet b u v) (hv : v.head?.all isTerminator = true)
    (hv' : v'.head?.all isTerminator = true) : Quiet b u v' := by
  induction u generalizing b with
  | nil => trivial
  | cons c u ih =>
    refine ⟨?_, ih h.2⟩
    intro hb
    have hsame : (fence? (c :: u ++ v)).isSome = (fence? (c :: u ++ v')).isSome := by
      by_cases hline : ∀ d ∈ c :: u, isTerminator d = false
      · rw [fence?_line hline hv, fence?_line hline hv']
      · push Not at hline
        obtain ⟨d, hd, hterm⟩ := hline
        apply fence?_congr hd
        cases hchar : isFenceChar d with
        | false => rfl
        | true => exact absurd (isFenceChar_not_terminator hchar) hterm
    rw [h.1 hb] at hsame
    exact Option.isNone_iff_eq_none.mp (Option.isSome_eq_false_iff.mp hsame.symm)

theorem quiet_false (hu : ∀ c ∈ u, isTerminator c = false) (v : Text) : Quiet false u v := by
  induction u with
  | nil => trivial
  | cons c u ih =>
    refine ⟨by simp, ?_⟩
    rw [hu c List.mem_cons_self]
    exact ih fun d hd => hu d (List.mem_cons_of_mem c hd)

theorem quiet_line (hu : ∀ c ∈ u, isTerminator c = false) (hfence : fence? (u ++ v) = none) : Quiet b u v := by
  cases u with
  | nil => trivial
  | cons c u =>
    refine ⟨fun _ => hfence, ?_⟩
    rw [hu c List.mem_cons_self]
    exact quiet_false (fun d hd => hu d (List.mem_cons_of_mem c hd)) v

theorem quiet_newline {b' : Bool} (h : Quiet b u v) (hnl : newline? (u ++ v) = some rest) :
    Quiet b' u v := by
  cases u with
  | nil => trivial
  | cons c u =>
    refine ⟨fun _ => ?_, h.2⟩
    have hc : isTerminator c = true := by
      obtain heq | heq := newline?_cases hnl
      · obtain ⟨rfl, -⟩ := List.cons.inj heq
        decide
      · obtain ⟨rfl, -⟩ := List.cons.inj heq
        decide
    exact fence?_newline _ hc

theorem newline?_suffix (h : newline? t = some rest) : rest <:+ t := by
  obtain rfl | rfl := newline?_cases h
  · exact List.suffix_cons _ _
  · exact (List.suffix_cons _ _).trans (List.suffix_cons _ _)

theorem fence?_suffix (h : fence? t = some after) : after <:+ t := by
  unfold fence? at h
  split at h
  · have hrest : (t.drop 3).dropWhile isBlank <:+ t := (List.dropWhile_suffix _).trans (List.drop_suffix 3 t)
    unfold lineEnd? at h
    split at h
    · rename_i rest hnl
      obtain rfl := Option.some.inj h
      exact (newline?_suffix hnl).trans hrest
    · obtain ⟨-, rfl⟩ := Option.ite_some_none_eq_some.1 h
      exact hrest
  · cases h

structure IsBlock (opening lines fence body : Text) : Prop where
  opens (rest : Text) : afterOpen? (opening ++ rest) = some rest
  quiet : Quiet true lines fence
  starts : startAfter true lines = true
  closes : fence? fence = some body

theorem afterOpen?_some {inside : Text} (h : afterOpen? t = some inside) :
    ∃ opening, t = opening ++ inside ∧ ∀ rest, afterOpen? (opening ++ rest) = some rest := by
  unfold afterOpen? at h
  split at h
  · rename_i hdash
    have ht : t = t.take 3 ++ ((t.drop 3).takeWhile isBlank ++ (t.drop 3).dropWhile isBlank) := by
      rw [List.takeWhile_append_dropWhile, List.take_append_drop]
    have hblank : ∀ c ∈ (t.drop 3).takeWhile isBlank, isBlank c = true := fun c hc => List.mem_takeWhile_imp hc
    have hopens : ∀ nl : Text, (∀ rest, newline? (nl ++ rest) = some rest) →
        (∀ rest, (nl ++ rest).dropWhile isBlank = nl ++ rest) →
        ∀ rest, afterOpen? ("---".toList ++ (t.drop 3).takeWhile isBlank ++ nl ++ rest) = some rest := by
      intro nl hnl hdrop rest
      unfold afterOpen?
      have hdashes : ("---".toList ++ (t.drop 3).takeWhile isBlank ++ nl ++ rest).take 3 = "---".toList := rfl
      rw [if_pos hdashes]
      have hthree : ("---".toList ++ (t.drop 3).takeWhile isBlank ++ nl ++ rest).drop 3 =
          (t.drop 3).takeWhile isBlank ++ (nl ++ rest) := by
        simp
      rw [hthree, List.dropWhile_append_of_pos hblank, hdrop, hnl]
    obtain heq | heq := newline?_cases h
    · refine ⟨"---".toList ++ (t.drop 3).takeWhile isBlank ++ ['\n'], ?_, hopens ['\n'] (fun _ => rfl) fun _ => rfl⟩
      rw [heq, hdash] at ht
      simpa using ht
    · refine ⟨"---".toList ++ (t.drop 3).takeWhile isBlank ++ ['\r', '\n'], ?_,
        hopens ['\r', '\n'] (fun _ => rfl) fun _ => rfl⟩
      rw [heq, hdash] at ht
      simpa using ht
  · cases h

theorem IsBlock.findFrontmatter {opening lines fence body : Text} (h : IsBlock opening lines fence body) :
    findFrontmatter (opening ++ lines ++ fence) =
      some ⟨chop lines, (opening ++ lines ++ fence).length - body.length⟩ := by
  unfold Frontmatter.findFrontmatter
  have hfind : findFence true (lines ++ fence) = some (lines, body) := by
    rw [findFence_append h.quiet, h.starts, findFence_of_fence h.closes]
    simp
  rw [List.append_assoc, h.opens, Option.bind_some, findClose_eq, hfind]
  rfl

theorem IsBlock.strip {opening lines fence body : Text} (h : IsBlock opening lines fence body) :
    stripFrontmatter (opening ++ lines ++ fence) = body := by
  unfold stripFrontmatter
  rw [h.findFrontmatter]
  obtain ⟨closing, hclosing⟩ := fence?_suffix h.closes
  have hlen : (opening ++ lines ++ (closing ++ body)).length - body.length = (opening ++ lines ++ closing).length := by
    simp only [List.length_append]
    omega
  rw [← hclosing]
  simp only [hlen]
  rw [← List.append_assoc]
  exact List.drop_left

theorem findFrontmatter_some {markdown : Text} {block : FrontmatterBlock} (h : findFrontmatter markdown = some block) :
    ∃ opening lines fence body, markdown = opening ++ lines ++ fence ∧ IsBlock opening lines fence body := by
  obtain ⟨inside, hopen, hclose⟩ := Option.bind_eq_some_iff.1 h
  obtain ⟨opening, rfl, hopens⟩ := afterOpen?_some hopen
  rw [findClose_eq] at hclose
  obtain ⟨b, hfind, -⟩ := Option.map_eq_some_iff.1 hclose
  obtain ⟨⟨lines, body⟩, hfence, -⟩ := Option.map_eq_some_iff.1 hfind
  obtain ⟨fence, rfl, hquiet, hstarts, hcloses⟩ := findFence_some hfence
  exact ⟨opening, lines, fence, body, (List.append_assoc ..).symm, hopens, hquiet, hstarts, hcloses⟩

end Savoire.Frontmatter
