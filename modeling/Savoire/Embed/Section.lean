import Savoire.Embed.TitlePass
import Savoire.Outline.Lines

/-! The section of a note that an embed shows: the titles wanted, one below another, and the lines up to the next
title that is not deeper. -/
namespace Savoire.NoteEmbed
open Outlines (Units isSpace isBlank)

/-- What the host knows of Unicode. -/
structure Host where
  lower : Units → Units

def trim (s : Units) : Units := (s.dropWhile isSpace).rdropWhile isSpace

/-- `^ {0,3}` before another character. -/
def afterIndent (text : Units) : Option Units :=
  let rest := text.dropWhile (· == 32)
  if text.length - rest.length ≤ 3 then some rest else none

/-- `.` matches no end of a line. -/
def isLineEnd (c : Nat) : Bool := c == 10 || c == 13 || c == 0x2028 || c == 0x2029

/-- The shortest text before the closing marks of a title, where they come after a blank. -/
def titleText (rest : Units) : Units :=
  let text := rest.rdropWhile isBlank
  let open' := text.rdropWhile (· == 35)
  if open'.length < text.length ∧ open'.getLast?.any isBlank = true then open'.rdropWhile isBlank else text

def headingRe (text : Units) : Option (Title Units) :=
  (afterIndent text).bind fun rest =>
    let marks := rest.takeWhile (· == 35)
    let rest := rest.drop marks.length
    if 1 ≤ marks.length ∧ marks.length ≤ 6 ∧ rest.head?.any isBlank = true ∧ rest.any isLineEnd = false then
      some ⟨marks.length, titleText (rest.dropWhile isBlank)⟩
    else none

/-- The mark of a code fence and how often it stands there. -/
def fenceRe (text : Units) : Option (Nat × Nat) :=
  (afterIndent text).bind fun rest =>
    (rest.head?.filter fun c => c == 96 || c == 126).bind fun c =>
      let n := (rest.takeWhile (· == c)).length
      if 3 ≤ n then some (c, n) else none

def isIdChar (c : Nat) : Bool := (48 ≤ c && c ≤ 57) || (65 ≤ c && c ≤ 90) || (97 ≤ c && c ≤ 122) || c == 45

def blockIdRe (text : Units) : Option Units :=
  let marked := text.rdropWhile isBlank
  let before := marked.rdropWhile isIdChar
  if before.length < marked.length ∧ before.getLast? = some 94 then some (before.dropLast.rdropWhile isBlank) else none

def withoutBlockId (text : Units) : Units := (blockIdRe text).getD text

structure Line where
  text : Units
  inCode : Bool

/-- `\r\n?` becomes `\n`. -/
def lineEnds : Units → Units
  | [] => []
  | 13 :: 10 :: rest => 10 :: lineEnds rest
  | 13 :: rest => 10 :: lineEnds rest
  | c :: rest => c :: lineEnds rest

def closes (text : Units) (fence m : Nat × Nat) : Bool :=
  m.1 == fence.1 && decide (fence.2 ≤ m.2) && (trim ((trim text).drop m.2)).isEmpty

def scanLines : Option (Nat × Nat) → List Units → List Line
  | _, [] => []
  | some fence, text :: rest =>
    ⟨text, true⟩ :: scanLines (if (fenceRe text).any (closes text fence) then none else some fence) rest
  | none, text :: rest => ⟨text, (fenceRe text).isSome⟩ :: scanLines (fenceRe text) rest

def scan (markdown : Units) : List Line := scanLines none ((lineEnds markdown).splitOn 10)

def headingAt (line : Line) : Option (Title Units) := if line.inCode then none else headingRe line.text

def replaceAll (matchAt : Units → Option (Units × Units)) : Nat → Units → Units
  | 0, s => s
  | _+1, [] => []
  | n+1, c :: s =>
    match matchAt (c :: s) with
    | some (out, rest) => out ++ replaceAll matchAt n rest
    | none => c :: replaceAll matchAt n s

def replace (matchAt : Units → Option (Units × Units)) (s : Units) : Units := replaceAll matchAt s.length s

/-- `[[target|alias]]`. -/
def aliasRe : Units → Option (Units × Units)
  | 91 :: 91 :: s =>
    let target := s.takeWhile fun c => c != 93 && c != 124
    match s.drop target.length with
    | 124 :: s' =>
      let shown := s'.takeWhile (· != 93)
      match s'.drop shown.length with
      | 93 :: 93 :: rest => if target ≠ [] ∧ shown ≠ [] then some (shown, rest) else none
      | _ => none
    | _ => none
  | _ => none

/-- `[[target]]`. -/
def linkRe : Units → Option (Units × Units)
  | 91 :: 91 :: s =>
    let target := s.takeWhile (· != 93)
    match s.drop target.length with
    | 93 :: 93 :: rest => if target ≠ [] then some (target, rest) else none
    | _ => none
  | _ => none

/-- Each run of white space becomes a blank. -/
def collapse : Bool → Units → Units
  | _, [] => []
  | inSpace, c :: s =>
    if isSpace c then (if inSpace then collapse true s else 32 :: collapse true s) else c :: collapse false s

def isEmphasis (c : Nat) : Bool := c == 42 || c == 95 || c == 96 || c == 126 || c == 61

def normalizeHeading (host : Host) (text : Units) : Units :=
  let plain := replace linkRe (replace aliasRe (withoutBlockId text))
  host.lower (trim (collapse false (plain.filter fun c => !isEmphasis c)))

section Extract
variable (host : Host)

/-- The titles of a note, as they are compared. -/
def titles (lines : List Line) (i : Nat) : Option (Title Units) :=
  (lines[i]?.bind headingAt).map fun h => ⟨h.level, normalizeHeading host h.key⟩

def blank (text : Units) : Bool := (trim text).isEmpty

def trimBlank (lines : List Units) : Units := [10].intercalate ((lines.dropWhile blank).rdropWhile blank)

def ends (level : Nat) (line : Line) : Bool := (headingAt line).any fun h => decide (h.level ≤ level)

def extractHeading (lines : List Line) (wanted : List Units) : Option Units :=
  (pass (titles host lines) (wanted.map (normalizeHeading host)) 0 0 0 lines.length).map fun start =>
    let level := (titles host lines start).elim 0 Title.level
    let stop := start + 1 + (lines.drop (start + 1)).findIdx (ends level)
    trimBlank (((lines.take stop).drop start).map Line.text)

def stripLine (line : Line) : Option Units :=
  if line.inCode then some line.text
  else if blockIdRe line.text = some [] then none
  else some (withoutBlockId line.text)

def stripBlockIds (markdown : Units) : Units :=
  if 94 ∈ markdown then [10].intercalate ((scan markdown).filterMap stripLine) else markdown

/-- What an embed of the titles shows. -/
def extractSubpath (markdown : Units) (headings : List Units) : Option Units :=
  (extractHeading host (scan markdown) headings).map stripBlockIds

end Extract

def sectionAt (lines : List Line) (e : Nat) : List Line :=
  match lines.drop e with
  | [] => []
  | line :: rest => line :: rest.takeWhile fun l => !ends ((headingAt line).elim 0 Title.level) l

def blankLine (line : Line) : Bool := blank line.text

def trimmed (lines : List Line) : List Line := (lines.dropWhile blankLine).rdropWhile blankLine

/-- The section of the title at a line, without blank lines around it and without the markers outside code. -/
def shown (lines : List Line) (e : Nat) : Units := [10].intercalate ((trimmed (sectionAt lines e)).filterMap stripLine)

variable {lines : List Line} {texts : List Units} {fence : Option (Nat × Nat)} {e : Nat}

theorem text_scanLines (fence : Option (Nat × Nat)) (texts : List Units) :
    (scanLines fence texts).map Line.text = texts := by
  induction texts generalizing fence with
  | nil => cases fence <;> rfl
  | cons text rest ih => cases fence <;> simp [scanLines, ih]

theorem take_scanLines (fence : Option (Nat × Nat)) (texts : List Units) (n : Nat) :
    (scanLines fence texts).take n = scanLines fence (texts.take n) := by
  induction texts generalizing fence n with
  | nil => cases fence <;> simp [scanLines]
  | cons text rest ih => cases n <;> cases fence <;> simp [scanLines, ih]

theorem drop_scanLines {line : Line} (h : (scanLines fence texts)[e]? = some line) (hcode : line.inCode = false) :
    (scanLines fence texts).drop e = scanLines none (texts.drop e) := by
  induction e generalizing fence texts with
  | zero =>
    cases texts with
    | nil => cases fence <;> rfl
    | cons text rest => cases fence with
      | none => rfl
      | some fence =>
        obtain rfl := Option.some.inj h
        cases hcode
  | succ e ih =>
    cases texts with
    | nil => cases fence <;> cases h
    | cons text rest => cases fence <;> exact ih h

theorem notMem_lineEnds (markdown : Units) : 13 ∉ lineEnds markdown := by
  induction markdown using lineEnds.induct with
  | case1 => simp [lineEnds]
  | case2 rest ih => simp [lineEnds, ih]
  | case3 rest hnot ih =>
    rw [lineEnds]
    · simp [ih]
    · exact hnot
  | case4 c rest hnot hnot' ih =>
    rw [lineEnds]
    · rw [List.mem_cons, not_or]
      exact ⟨fun hc => hnot' hc.symm, ih⟩
    · exact hnot
    · exact hnot'

theorem lineEnds_eq_self {s : Units} (h : 13 ∉ s) : lineEnds s = s := by
  induction s with
  | nil => rfl
  | cons c rest ih =>
    rw [List.mem_cons, not_or] at h
    rw [lineEnds, ih h.2]
    · rintro _ hc
      exact absurd hc.symm h.1
    · rintro hc
      exact absurd hc.symm h.1

theorem notMem_intercalate {c : Nat} (hc : c ≠ 10) (h : ∀ l ∈ texts, c ∉ l) : c ∉ [10].intercalate texts := by
  induction texts with
  | nil => simp
  | cons l rest ih =>
    rw [List.forall_mem_cons] at h
    cases rest with
    | nil => simpa using h.1
    | cons l' rest =>
      rw [List.intercalate_cons_cons, List.mem_append, List.mem_append, List.mem_singleton]
      tauto

theorem scan_join {markdown : Units} {line : Line} (h : (scan markdown)[e]? = some line) (hcode : line.inCode = false)
    {n : Nat} (hn : 0 < n) :
    scan ([10].intercalate ((((scan markdown).drop e).take n).map Line.text)) = ((scan markdown).drop e).take n := by
  have hlines : ((scan markdown).drop e).take n =
      scanLines none ((((lineEnds markdown).splitOn 10).drop e).take n) := by
    rw [scan, drop_scanLines h hcode, take_scanLines]
  have hmem : ∀ l ∈ (((lineEnds markdown).splitOn 10).drop e).take n, l ∈ (lineEnds markdown).splitOn 10 :=
    fun l hl => List.mem_of_mem_drop (List.mem_of_mem_take hl)
  have hne : (((lineEnds markdown).splitOn 10).drop e).take n ≠ [] := by
    have he : e < (scan markdown).length := (List.getElem?_eq_some_iff.1 h).1
    have hlen := congrArg List.length (text_scanLines none ((lineEnds markdown).splitOn 10))
    rw [List.length_map] at hlen
    rw [scan, hlen] at he
    intro hnil
    have := congrArg List.length hnil
    rw [List.length_take, List.length_drop, List.length_nil] at this
    omega
  rw [hlines, text_scanLines, scan, lineEnds_eq_self, List.splitOn_intercalate 10 _ hne]
  · exact fun l hl => notMem_splitOn _ _ l (hmem l hl)
  · exact notMem_intercalate (by decide) fun l hl hmem' =>
      notMem_lineEnds markdown (subset_splitOn _ _ l (hmem l hl) hmem')

theorem mem_intercalate {l : Units} {c : Nat} (hl : l ∈ texts) (hc : c ∈ l) : c ∈ [10].intercalate texts := by
  induction texts with
  | nil => cases hl
  | cons l' rest ih =>
    cases rest with
    | nil =>
      obtain rfl := List.mem_singleton.1 hl
      simpa using hc
    | cons l'' rest =>
      rw [List.intercalate_cons_cons, List.mem_append]
      obtain rfl | hl := List.mem_cons.1 hl
      · exact .inl (List.mem_append_left _ hc)
      · exact .inr (ih hl)

theorem stripLine_of_notMem {line : Line} (h : 94 ∉ line.text) : stripLine line = some line.text := by
  have hnone : blockIdRe line.text = none := by
    refine if_neg fun hmarked => h ?_
    have hlast := List.mem_of_getLast? hmarked.2
    exact (List.rdropWhile_prefix _ _).subset ((List.rdropWhile_prefix _ _).subset hlast)
  rw [stripLine, withoutBlockId, hnone]
  simp

theorem stripBlockIds_join (h : scan ([10].intercalate (lines.map Line.text)) = lines) :
    stripBlockIds ([10].intercalate (lines.map Line.text)) = [10].intercalate (lines.filterMap stripLine) := by
  rw [stripBlockIds, h]
  split
  · rfl
  · rename_i hnone
    have hall : ∀ line ∈ lines, stripLine line = some line.text := fun line hline =>
      stripLine_of_notMem fun hmem => hnone (mem_intercalate (List.mem_map_of_mem hline) hmem)
    rw [List.filterMap_congr hall, List.filterMap_eq_map']

theorem trim_eq_nil {s : Units} : trim s = [] ↔ ∀ c ∈ s, isSpace c = true := by
  rw [trim, List.rdropWhile_eq_nil_iff]
  constructor
  · intro h
    have hnil : s.dropWhile isSpace = [] := by
      cases hdrop : s.dropWhile isSpace with
      | nil => rfl
      | cons c rest =>
        have hc := List.head?_dropWhile_not isSpace s
        rw [hdrop] at hc h
        simp [h c List.mem_cons_self] at hc
    exact List.dropWhile_eq_nil_iff.1 hnil
  · exact fun h c hc => h c ((List.dropWhile_sublist _).subset hc)

theorem headingRe_not_blank {text : Units} {h : Title Units} (hh : headingRe text = some h) : blank text = false := by
  obtain ⟨rest, hrest, hmarks⟩ := Option.bind_eq_some_iff.1 hh
  have hmem : 35 ∈ text := by
    rw [afterIndent] at hrest
    obtain ⟨-, rfl⟩ := Option.ite_some_none_eq_some.1 hrest
    dsimp only at hmarks
    split at hmarks
    · rename_i hlen
      cases hcons : (text.dropWhile (· == 32)).takeWhile (· == 35) with
      | nil =>
        rw [hcons] at hlen
        exact absurd hlen.1 (by decide)
      | cons c marks =>
        have hc : c ∈ (text.dropWhile (· == 32)).takeWhile (· == 35) := by rw [hcons]; exact List.mem_cons_self
        obtain rfl : c = 35 := by simpa using List.mem_takeWhile_imp hc
        exact (List.dropWhile_sublist _).subset ((List.takeWhile_prefix _).subset hc)
    · cases hmarks
  rw [blank, List.isEmpty_eq_false_iff]
  intro hnil
  exact absurd (trim_eq_nil.1 hnil 35 hmem) (by decide)

section Found
variable {host : Host} {markdown : Units} {wanted : List Units}

theorem titles_eq_some {g : Title Units} (h : titles host lines e = some g) :
    ∃ line x, lines[e]? = some line ∧ headingAt line = some x ∧ g.level = x.level ∧ line.inCode = false ∧
      blank line.text = false := by
  obtain ⟨x, hx, rfl⟩ := Option.map_eq_some_iff.1 h
  obtain ⟨line, hline, hx⟩ := Option.bind_eq_some_iff.1 hx
  refine ⟨line, x, hline, hx, rfl, ?_⟩
  rw [headingAt] at hx
  split at hx
  · cases hx
  · rename_i hcode
    exact ⟨by simpa using hcode, headingRe_not_blank hx⟩

theorem titles_lt {g : Title Units} (h : titles host lines e = some g) : e < lines.length := by
  obtain ⟨line, -, hline, -⟩ := titles_eq_some h
  exact (List.getElem?_eq_some_iff.1 hline).1

theorem extract_section {g : Title Units} (h : titles host (scan markdown) e = some g) :
    stripBlockIds (trimBlank ((((scan markdown).take (e + 1 +
      ((scan markdown).drop (e + 1)).findIdx (ends g.level))).drop e).map Line.text)) = shown (scan markdown) e := by
  obtain ⟨line, x, hline, hx, hlevel, hcode, hblank⟩ := titles_eq_some h
  have hdrop : (scan markdown).drop e = line :: (scan markdown).drop (e + 1) := by
    obtain ⟨he, rfl⟩ := List.getElem?_eq_some_iff.1 hline
    exact List.drop_eq_getElem_cons he
  have hsection : sectionAt (scan markdown) e =
      line :: ((scan markdown).drop (e + 1)).takeWhile fun l => !ends g.level l := by
    rw [sectionAt, hdrop]
    simp only [hx, Option.elim_some, hlevel]
  have hpart : ((scan markdown).take (e + 1 + ((scan markdown).drop (e + 1)).findIdx (ends g.level))).drop e =
      sectionAt (scan markdown) e := by
    rw [hsection, List.drop_take, hdrop, Nat.add_assoc, Nat.add_sub_cancel_left, Nat.add_comm 1, List.take_succ_cons,
      List.takeWhile_eq_take_findIdx_not]
    simp
  obtain ⟨rest, hrest⟩ : ∃ rest, sectionAt (scan markdown) e = line :: rest := ⟨_, hsection⟩
  have htrim : trimmed (sectionAt (scan markdown) e) = (sectionAt (scan markdown) e).rdropWhile blankLine := by
    rw [trimmed, hrest, List.dropWhile_cons_of_neg]
    rw [blankLine, hblank]
    decide
  have htext : trimBlank ((sectionAt (scan markdown) e).map Line.text) =
      [10].intercalate ((trimmed (sectionAt (scan markdown) e)).map Line.text) := by
    simp only [trimBlank, trimmed, List.rdropWhile, List.dropWhile_map, ← List.map_reverse]
    rfl
  have htake : trimmed (sectionAt (scan markdown) e) =
      ((scan markdown).drop e).take (trimmed (sectionAt (scan markdown) e)).length := by
    rw [← List.prefix_iff_eq_take, htrim]
    refine (List.rdropWhile_prefix _ _).trans ?_
    rw [← hpart, List.drop_take]
    exact List.take_prefix _ _
  have hpos : 0 < (trimmed (sectionAt (scan markdown) e)).length := by
    rw [List.length_pos_iff, htrim, hrest, ne_eq, List.rdropWhile_eq_nil_iff]
    intro hall
    have := hall line List.mem_cons_self
    rw [blankLine, hblank] at this
    cases this
  rw [hpart, htext, shown]
  refine stripBlockIds_join ?_
  have hscan := scan_join hline hcode hpos
  rwa [← htake] at hscan

def EndsChain (host : Host) (markdown : Units) (wanted : List Units) (e : Nat) : Prop :=
  ChainTo (titles host (scan markdown)) (wanted.map (normalizeHeading host)) 0 wanted.length e

structure ShowsSection (host : Host) (markdown : Units) (wanted : List Units) : Prop where
  none_iff : extractSubpath host markdown wanted = none ↔ ¬ ∃ e, EndsChain host markdown wanted e
  first : ∀ e, EndsChain host markdown wanted e → (∀ e' < e, ¬ EndsChain host markdown wanted e') →
    extractSubpath host markdown wanted = some (shown (scan markdown) e)

theorem extractSubpath_eq (host : Host) (markdown : Units) (wanted : List Units) :
    extractSubpath host markdown wanted =
      (passFrom (titles host (scan markdown)) (wanted.map (normalizeHeading host)) (scan markdown).length 0 0 0).map
        (shown (scan markdown)) := by
  rw [extractSubpath, extractHeading, Option.map_map]
  refine Option.map_congr fun e he => ?_
  obtain ⟨g, hg⟩ := (passFrom_sound (N := (scan markdown).length) he).title
  rw [Function.comp_apply, hg]
  exact extract_section hg

/-- What is shown is the section that the titles name, if and only if the first title that ends a chain of them is
kept, or one whose section has the same text. -/
theorem section_shown_iff (host : Host) (markdown : Units) (wanted : List Units) :
    ShowsSection host markdown wanted ↔
      ∀ e, EndsChain host markdown wanted e → (∀ e' < e, ¬ EndsChain host markdown wanted e') →
        ∃ e', Kept (titles host (scan markdown)) (wanted.map (normalizeHeading host)) e' 0 ∧
          shown (scan markdown) e' = shown (scan markdown) e := by
  obtain ⟨run, hrun⟩ : ∃ run, run =
    passFrom (titles host (scan markdown)) (wanted.map (normalizeHeading host)) (scan markdown).length 0 0 0 := ⟨_, rfl⟩
  have hextract := extractSubpath_eq host markdown wanted
  rw [← hrun] at hextract
  have hlen : (wanted.map (normalizeHeading host)).length = wanted.length := List.length_map _
  have hkept (e : Nat) : run = some e ↔
      Kept (titles host (scan markdown)) (wanted.map (normalizeHeading host)) e 0 := by
    rw [hrun]
    exact passFrom_iff_kept fun i g h => titles_lt h
  constructor
  · intro h e hchain hfirst
    obtain ⟨e', he', hshown⟩ := Option.map_eq_some_iff.1 (hextract.symm.trans (h.first e hchain hfirst))
    exact ⟨e', (hkept e').1 he', hshown⟩
  · intro h
    have hfirst : ∀ e, EndsChain host markdown wanted e → (∀ e' < e, ¬ EndsChain host markdown wanted e') →
        extractSubpath host markdown wanted = some (shown (scan markdown) e) := by
      intro e hchain hfirst
      obtain ⟨e', he', hshown⟩ := h e hchain hfirst
      rw [hextract, (hkept e').2 he', Option.map_some, hshown]
    refine ⟨⟨fun hnone hexists => ?_, fun hnone => ?_⟩, hfirst⟩
    · classical
      rw [hfirst (Nat.find hexists) (Nat.find_spec hexists) fun e' he' => Nat.find_min hexists he'] at hnone
      cases hnone
    · rw [hextract, Option.map_eq_none_iff]
      by_contra hsome
      obtain ⟨e, he⟩ := Option.ne_none_iff_exists'.1 hsome
      rw [hrun] at he
      have hchain := passFrom_sound he
      rw [hlen] at hchain
      exact hnone ⟨e, hchain⟩

end Found

/-- A third title below the second of two that are named alike: the end of the first section makes the pass forget the
title above both. -/
theorem third_title_lost :
    let host : Host := ⟨id⟩
    let markdown := Outlines.ascii "# A\n## B\n## B\n### C"
    let wanted := [Outlines.ascii "A", Outlines.ascii "B", Outlines.ascii "C"]
    extractSubpath host markdown wanted = none ∧ EndsChain host markdown wanted 3 ∧
      ¬ ShowsSection host markdown wanted := by
  intro host markdown wanted
  have hnone : extractSubpath host markdown wanted = none := by decide +kernel
  have hlines : ∀ i, titles host (scan markdown) i = [⟨1, [65]⟩, ⟨2, [66]⟩, ⟨2, [66]⟩, ⟨3, [67]⟩][i]? := by
    have hlen : (scan markdown).length = 4 := by decide +kernel
    have hfour : ∀ i < 4, titles host (scan markdown) i = [⟨1, [65]⟩, ⟨2, [66]⟩, ⟨2, [66]⟩, ⟨3, [67]⟩][i]? := by
      decide +kernel
    intro i
    by_cases hi : i < 4
    · exact hfour i hi
    · rw [titles, List.getElem?_eq_none (by omega), List.getElem?_eq_none (by simpa using hi)]
      rfl
  have htargets : wanted.map (normalizeHeading host) = [[65], [66], [67]] := by decide +kernel
  have hlevel : ∀ i g, titles host (scan markdown) i = some g → g.level = [1, 2, 2, 3].getD i 0 := by
    intro i g hg
    rw [hlines] at hg
    have hall : ∀ i < 4, ([⟨1, [65]⟩, ⟨2, [66]⟩, ⟨2, [66]⟩, ⟨3, [67]⟩] : List (Title Units))[i]?.map Title.level =
        some ([1, 2, 2, 3].getD i 0) := by decide
    have hi := hall i (List.getElem?_eq_some_iff.1 hg).1
    rw [hg] at hi
    exact Option.some.inj hi
  have hdeeper : ∀ a < 3, ∀ j < 4, a < j → (a = 0 ∨ a = 2) → Deeper (titles host (scan markdown)) a j := by
    intro a ha j hj haj hor x y hx hy
    rw [hlevel a x hx, hlevel j y hy]
    have hall : ∀ a < 3, ∀ j < 4, a < j → (a = 0 ∨ a = 2) → [1, 2, 2, 3].getD a 0 < [1, 2, 2, 3].getD j 0 := by decide
    exact hall a ha j hj haj hor
  have hchain : EndsChain host markdown wanted 3 := by
    refine .next (d := 2) (.next (d := 0) (.first le_rfl ?_) ⟨by decide, fun j h h' => ?_⟩ ?_)
      ⟨by decide, fun j h h' => ?_⟩ ?_
    · exact ⟨⟨1, [65]⟩, hlines 0, rfl⟩
    · exact hdeeper 0 (by decide) j (by omega) h (.inl rfl)
    · exact ⟨⟨2, [66]⟩, hlines 2, rfl⟩
    · exact hdeeper 2 (by decide) j (by omega) h (.inr rfl)
    · exact ⟨⟨3, [67]⟩, hlines 3, rfl⟩
  exact ⟨hnone, hchain, fun h => h.none_iff.1 hnone ⟨3, hchain⟩⟩

end Savoire.NoteEmbed
