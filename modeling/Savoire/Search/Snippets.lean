import Mathlib
import Savoire.Library.StableSort
import Savoire.Outline.Parse

/-! The words of a search in the text of a note, and the excerpts shown around them. A text is its UTF-16 units. -/
namespace Savoire.Snippets
open Outlines (Units isSpace)

/-- What the host knows of Unicode: two operations on texts and two classes of code points. -/
structure Host where
  nfd : Units → Units
  lower : Units → Units
  letterOrNumber : Nat → Bool
  mark : Nat → Bool

structure Range where
  start : Nat
  stop : Nat
  deriving DecidableEq

def slice (text : Units) (i j : Nat) : Units := (text.take j).drop i

def points : Units → List (Nat × Nat)
  | [] => []
  | [u] => [(u, 1)]
  | u :: v :: rest =>
    if 0xd800 ≤ u ∧ u ≤ 0xdbff ∧ 0xdc00 ≤ v ∧ v ≤ 0xdfff then
      (0x10000 + (u - 0xd800) * 0x400 + (v - 0xdc00), 2) :: points rest
    else (u, 1) :: points (v :: rest)

/-- The longest runs of code points of a class, from place `i` on; one may have begun at `start`. -/
def runs (among : Nat → Bool) : (i : Nat) → (start : Option Nat) → List (Nat × Nat) → List Range
  | i, start, [] => start.toList.map fun s => ⟨s, i⟩
  | i, start, (c, w) :: rest =>
    if among c then runs among (i + w) (some (start.getD i)) rest
    else start.toList.map (fun s => ⟨s, i⟩) ++ runs among (i + w) none rest

section Words
variable (host : Host)

/-- Lower case, without the marks from U+0300 to U+036F. -/
def foldText (s : Units) : Units :=
  host.lower ((host.nfd s).filter fun c => !(0x300 ≤ c && c ≤ 0x36f))

def words (s : Units) : List Units :=
  let folded := foldText host s
  (runs host.letterOrNumber 0 none (points folded)).map fun r => slice folded r.start r.stop

structure TextToken extends Range where
  folded : Units

def tokenize (s : Units) : List TextToken :=
  (runs (fun c => host.letterOrNumber c || host.mark c) 0 none (points s)).filterMap fun r =>
    (words host (slice s r.start r.stop)).head?.map fun w => ⟨r, w⟩

end Words

/-- Words, each of which also stands for those that begin with it, and sequences of words. -/
structure SearchTerms where
  terms : List Units
  phrases : List (List Units)
  phrases_ne : ∀ p ∈ phrases, p ≠ []

structure Match extends Range where
  term : Nat

section Find
variable (t : SearchTerms)

def phraseAt (tok : TextToken) (rest : List TextToken) : Option Match :=
  let tokens := tok :: rest
  (t.phrases.zipIdx.find? fun e => decide (e.1.length ≤ tokens.length) &&
    e.1 == (tokens.take e.1.length).map (·.folded)).map fun e =>
      ⟨⟨tok.start, (tokens.getD (e.1.length - 1) tok).stop⟩, t.terms.length + e.2⟩

def termAt (tok : TextToken) : Option Match :=
  (t.terms.zipIdx.find? fun e => e.1.isPrefixOf tok.folded).map fun e => ⟨tok.toRange, e.2⟩

def matchesFrom (busyUntil : Nat) : List TextToken → List Match
  | [] => []
  | tok :: rest =>
    if tok.start < busyUntil then matchesFrom busyUntil rest
    else match (phraseAt t tok rest).or (termAt t tok) with
      | some m => m :: matchesFrom m.stop rest
      | none => matchesFrom busyUntil rest

def findMatches (host : Host) (text : Units) : List Match := matchesFrom t 0 (tokenize host text)

end Find

def before : Nat := 60
def width : Nat := 180
def maxAnchors : Nat := 200

def snapStart (text : Units) (a : Nat) : Nat :=
  if a = 0 then 0
  else match (slice text a (a + 20)).findIdx? isSpace with
    | none => a
    | some space => a + space + 1

def snapEnd (text : Units) (b : Nat) : Nat :=
  if text.length ≤ b then text.length
  else
    let head := slice text (b - 20) b
    match head.reverse.findIdx? isSpace with
    | none => b
    | some k => b - head.length + (head.length - 1 - k)

structure Section where
  heading : Option Units
  text : Units

structure Candidate extends Range where
  part : Nat
  score : Nat
  inside : List Match

structure SearchSnippet where
  text : Units
  highlights : List Range
  heading : Option Units

def window (text : Units) (m : Match) : Range :=
  let start := snapStart text (m.start - before)
  ⟨start, max (snapEnd text (start + width)) m.stop⟩

section Build
variable (host : Host) (t : SearchTerms)

def candidatesOf (s : Section) (part : Nat) : List Candidate :=
  let all := findMatches t host s.text
  (all.take maxAnchors).map fun m =>
    let r := window s.text m
    let inside := all.filter fun x => decide (r.start ≤ x.start) && decide (x.stop ≤ r.stop)
    ⟨r, part, (inside.map (·.term)).dedup.length * 100 + inside.length, inside⟩

def candidates (sections : List Section) : List Candidate :=
  sections.zipIdx.flatMap fun e => candidatesOf host t e.1 e.2

end Build

def overlaps (c o : Candidate) : Bool :=
  o.part == c.part && decide (c.start < o.stop) && decide (o.start < c.stop)

def better (c best : Candidate) : Bool :=
  decide (best.score < c.score) || c.score == best.score && (decide (c.part < best.part) ||
    c.part == best.part && decide (c.start < best.start))

def best (chosen : List Candidate) (all : List Candidate) : Option Candidate :=
  all.foldl (fun best c =>
    if chosen.any (overlaps c) then best
    else match best with
      | none => some c
      | some b => if better c b then some c else some b) none

def choose (all : List Candidate) (chosen : List Candidate) : Nat → List Candidate
  | 0 => chosen
  | left+1 => match best chosen all with
    | none => chosen
    | some c => choose all (chosen ++ [c]) left

/-- The order in the note. -/
def compareParts : Candidate → Candidate → Ordering :=
  compareLex (compareOn Candidate.part) (compareOn fun c => c.start)

instance : Std.TransCmp compareParts :=
  inferInstanceAs (Std.TransCmp (compareLex (compareOn Candidate.part) (compareOn fun c => c.start)))

def ellipsis : Nat := 0x2026

def lineToSpace (c : Nat) : Nat := if c = 10 then 32 else c

def snippetOf (s : Section) (c : Candidate) : SearchSnippet :=
  let lead := if 0 < c.start then [ellipsis] else []
  { text := lead ++ (slice s.text c.start c.stop).map lineToSpace ++ if c.stop < s.text.length then [ellipsis] else []
    highlights := c.inside.map fun m => ⟨m.start + lead.length - c.start, m.stop + lead.length - c.start⟩
    heading := s.heading.filter (· ≠ []) }

def buildSnippets (host : Host) (t : SearchTerms) (sections : List Section) (max : Nat) : List SearchSnippet :=
  let chosen := choose (candidates host t sections) [] max
  (StableSort.sort compareParts chosen).map fun c => snippetOf (sections.getD c.part ⟨none, []⟩) c

/-- Ranges from one place to another, none of them empty, each after those before it. -/
structure Ordered (lo hi : Nat) (l : List Range) : Prop where
  bounds : ∀ r ∈ l, lo ≤ r.start ∧ r.start < r.stop ∧ r.stop ≤ hi
  sorted : l.Pairwise fun a b => a.stop ≤ b.start

section Ranges
variable {lo hi : Nat} {l l' : List Range} {r : Range}

theorem ordered_nil (lo hi : Nat) : Ordered lo hi [] where
  bounds r hr := by cases hr
  sorted := .nil

theorem Ordered.mono {lo' : Nat} (h : Ordered lo' hi l) (hlo : lo ≤ lo') : Ordered lo hi l where
  bounds r hr := by
    have := h.bounds r hr
    omega
  sorted := h.sorted

theorem Ordered.sublist (h : Ordered lo hi l) (hsub : l'.Sublist l) : Ordered lo hi l' where
  bounds r hr := h.bounds r (hsub.subset hr)
  sorted := h.sorted.sublist hsub

theorem ordered_cons : Ordered lo hi (r :: l) ↔
    (lo ≤ r.start ∧ r.start < r.stop ∧ r.stop ≤ hi) ∧ Ordered r.stop hi l := by
  constructor
  · intro h
    refine ⟨h.bounds r List.mem_cons_self, fun x hx => ?_, h.sorted.of_cons⟩
    have hafter := List.rel_of_pairwise_cons h.sorted hx
    have hbounds := h.bounds x (List.mem_cons_of_mem r hx)
    exact ⟨hafter, hbounds.2⟩
  · rintro ⟨hr, h⟩
    refine ⟨?_, List.pairwise_cons.2 ⟨fun x hx => (h.bounds x hx).1, h.sorted⟩⟩
    rw [List.forall_mem_cons]
    exact ⟨hr, (h.mono (by omega)).bounds⟩

end Ranges

theorem points_units (s : Units) : ((points s).map Prod.snd).sum = s.length ∧ ∀ e ∈ points s, 0 < e.2 := by
  induction s using points.induct with
  | case1 => simp [points]
  | case2 u => simp [points]
  | case3 u v rest hpair ih =>
    rw [points, if_pos hpair, List.map_cons, List.sum_cons, ih.1, List.forall_mem_cons]
    refine ⟨?_, by omega, ih.2⟩
    simp only [List.length_cons]
    omega
  | case4 u v rest hpair ih =>
    rw [points, if_neg hpair, List.map_cons, List.sum_cons, ih.1, List.forall_mem_cons]
    refine ⟨?_, by omega, ih.2⟩
    simp only [List.length_cons]
    omega

theorem runs_ordered (among : Nat → Bool) {l : List (Nat × Nat)} (hl : ∀ e ∈ l, 0 < e.2) (i : Nat)
    (start : Option Nat) (hstart : ∀ s ∈ start, s < i) :
    Ordered (start.getD i) (i + (l.map Prod.snd).sum) (runs among i start l) := by
  have hdone (hi : Nat) (hle : i ≤ hi) (tail : List Range) (htail : Ordered i hi tail) :
      Ordered (start.getD i) hi (start.toList.map (fun s => ⟨s, i⟩) ++ tail) := by
    cases start with
    | none => exact htail
    | some s => exact ordered_cons.2 ⟨⟨le_rfl, hstart s rfl, hle⟩, htail⟩
  induction l generalizing i start with
  | nil =>
    have h := hdone i le_rfl [] (ordered_nil i i)
    rwa [List.append_nil] at h
  | cons e rest ih =>
    obtain ⟨c, w⟩ := e
    rw [List.forall_mem_cons] at hl
    rw [runs, List.map_cons, List.sum_cons, ← Nat.add_assoc]
    split
    · have hle : start.getD i ≤ i := by
        cases start with
        | none => exact le_rfl
        | some s => exact (hstart s rfl).le
      refine ih hl.2 (i + w) (some (start.getD i)) ?_ ?_
      · rintro _ ⟨⟩
        omega
      · intro hi hi' tail htail
        exact ordered_cons.2 ⟨⟨le_rfl, by show start.getD i < i + w; omega, hi'⟩, htail⟩
    · refine hdone _ (by omega) _ (Ordered.mono (ih hl.2 (i + w) none ?_ ?_) (Nat.le_add_right i w))
      · rintro s ⟨⟩
      · exact fun hi hi' tail htail => htail

section Matches
variable {host : Host} {t : SearchTerms}

theorem map_tokenize_sublist (host : Host) (s : Units) : ((tokenize host s).map TextToken.toRange).Sublist
    (runs (fun c => host.letterOrNumber c || host.mark c) 0 none (points s)) := by
  rw [tokenize]
  induction runs (fun c => host.letterOrNumber c || host.mark c) 0 none (points s) with
  | nil => exact .slnil
  | cons r rest ih =>
    rw [List.filterMap_cons]
    cases (words host (slice s r.start r.stop)).head? with
    | none => exact ih.cons r
    | some w => exact ih.cons_cons r

theorem tokenize_ordered (host : Host) (s : Units) :
    Ordered 0 s.length ((tokenize host s).map TextToken.toRange) := by
  obtain ⟨hsum, hpos⟩ := points_units s
  have h := runs_ordered (fun c => host.letterOrNumber c || host.mark c) hpos 0 none (by simp)
  rw [hsum, Nat.zero_add] at h
  exact h.sublist (map_tokenize_sublist host s)

/-- A range holds a word that begins with one of the words, or a whole sequence. -/
def Holds (t : SearchTerms) (tokens : List TextToken) (r : Range) : Prop :=
  (∃ tok ∈ tokens, tok.toRange = r ∧ ∃ w ∈ t.terms, w <+: tok.folded) ∨
    ∃ u first run v, tokens = u ++ first :: run ++ v ∧ (first :: run).map (·.folded) ∈ t.phrases ∧
      first.start = r.start ∧ ((first :: run).getLast (by simp)).stop = r.stop

theorem Holds.cons {tokens : List TextToken} {r : Range} (h : Holds t tokens r) (tok : TextToken) :
    Holds t (tok :: tokens) r := by
  obtain ⟨tok', hmem, hrest⟩ | ⟨u, first, run, v, rfl, hrest⟩ := h
  · exact .inl ⟨tok', List.mem_cons_of_mem tok hmem, hrest⟩
  · exact .inr ⟨tok :: u, first, run, v, by simp, hrest⟩

theorem phraseAt_holds {tok : TextToken} {rest : List TextToken} {m : Match} (h : phraseAt t tok rest = some m) :
    m.start = tok.start ∧ (∃ last ∈ tok :: rest, m.stop = last.stop) ∧ Holds t (tok :: rest) m.toRange := by
  obtain ⟨⟨p, j⟩, hfind, rfl⟩ := Option.map_eq_some_iff.1 h
  have hp : p ∈ t.phrases := by
    have hmem := List.mem_of_find?_eq_some hfind
    rw [List.mk_mem_zipIdx_iff_getElem?] at hmem
    exact List.mem_of_getElem? hmem
  have htest := List.find?_some hfind
  simp only [Bool.and_eq_true, decide_eq_true_eq, beq_iff_eq] at htest
  obtain ⟨hle, heq⟩ := htest
  obtain ⟨k, hk⟩ : ∃ k, p.length = k + 1 := by
    refine ⟨p.length - 1, ?_⟩
    have := List.length_pos_iff.2 (t.phrases_ne p hp)
    omega
  rw [hk] at hle heq
  rw [List.length_cons] at hle
  rw [List.take_succ_cons] at heq
  have hlast : (tok :: rest).getD (p.length - 1) tok = (tok :: rest.take k).getLast (by simp) := by
    have hlen : (tok :: rest.take k).length = k + 1 := by
      rw [List.length_cons, List.length_take]
      omega
    rw [hk, Nat.add_sub_cancel, List.getLast_eq_getElem]
    simp only [hlen, Nat.add_sub_cancel]
    rw [List.getD_eq_getElem?_getD, List.getElem?_eq_getElem (by rw [List.length_cons]; omega), Option.getD_some]
    cases k with
    | zero => rfl
    | succ k => simp
  refine ⟨rfl, ⟨_, ?_, rfl⟩, .inr ⟨[], tok, rest.take k, rest.drop k, ?_, ?_, rfl, ?_⟩⟩
  · rw [hlast]
    refine List.Sublist.subset ?_ (List.getLast_mem _)
    exact (List.take_sublist k rest).cons_cons tok
  · simp
  · rw [← heq]
    exact hp
  · rw [← hlast]

theorem termAt_holds {tok : TextToken} (rest : List TextToken) {m : Match} (h : termAt t tok = some m) :
    m.toRange = tok.toRange ∧ Holds t (tok :: rest) m.toRange := by
  obtain ⟨⟨w, j⟩, hfind, rfl⟩ := Option.map_eq_some_iff.1 h
  have hw : w ∈ t.terms := by
    have hmem := List.mem_of_find?_eq_some hfind
    rw [List.mk_mem_zipIdx_iff_getElem?] at hmem
    exact List.mem_of_getElem? hmem
  have htest := List.find?_some hfind
  exact ⟨rfl, .inl ⟨tok, List.mem_cons_self, rfl, w, hw, List.isPrefixOf_iff_prefix.1 htest⟩⟩

theorem found_holds {tok : TextToken} {rest : List TextToken} {m : Match}
    (h : (phraseAt t tok rest).or (termAt t tok) = some m) :
    m.start = tok.start ∧ (∃ last ∈ tok :: rest, m.stop = last.stop) ∧ Holds t (tok :: rest) m.toRange := by
  cases hphrase : phraseAt t tok rest with
  | some m' =>
    rw [hphrase, Option.some_or, Option.some.injEq] at h
    exact h ▸ phraseAt_holds hphrase
  | none =>
    rw [hphrase, Option.none_or] at h
    obtain ⟨hrange, hholds⟩ := termAt_holds rest h
    exact ⟨congrArg Range.start hrange, ⟨tok, List.mem_cons_self, congrArg Range.stop hrange⟩, hholds⟩

theorem matchesFrom_spec {lo hi : Nat} {tokens : List TextToken} (h : Ordered lo hi (tokens.map TextToken.toRange))
    (busyUntil : Nat) :
    Ordered (max lo busyUntil) hi ((matchesFrom t busyUntil tokens).map Match.toRange) ∧
      ∀ m ∈ matchesFrom t busyUntil tokens, Holds t tokens m.toRange := by
  induction tokens generalizing lo busyUntil with
  | nil => exact ⟨ordered_nil _ _, by simp [matchesFrom]⟩
  | cons tok rest ih =>
    rw [List.map_cons, ordered_cons] at h
    obtain ⟨⟨hlo, hlt, hhi⟩, hrest⟩ := h
    have hskip : Ordered (max lo busyUntil) hi ((matchesFrom t busyUntil rest).map Match.toRange) ∧
        ∀ m ∈ matchesFrom t busyUntil rest, Holds t (tok :: rest) m.toRange := by
      obtain ⟨hordered, hholds⟩ := ih hrest busyUntil
      exact ⟨hordered.mono (by omega), fun m hm => (hholds m hm).cons tok⟩
    rw [matchesFrom]
    split
    · exact hskip
    · cases hfound : (phraseAt t tok rest).or (termAt t tok) with
      | none => exact hskip
      | some m =>
        obtain ⟨hstart, ⟨last, hlast, hstop⟩, hself⟩ := found_holds hfound
        have hlaststop : tok.stop ≤ last.stop ∧ last.stop ≤ hi := by
          obtain rfl | hmem := List.mem_cons.1 hlast
          · exact ⟨le_rfl, hhi⟩
          · have := hrest.bounds last.toRange (List.mem_map_of_mem hmem)
            omega
        obtain ⟨hordered, hholds⟩ := ih hrest m.stop
        refine ⟨ordered_cons.2 ⟨by omega, hordered.mono (by omega)⟩, ?_⟩
        rw [List.forall_mem_cons]
        exact ⟨hself, fun m' hm' => (hholds m' hm').cons tok⟩

theorem findMatches_spec (host : Host) (t : SearchTerms) (text : Units) :
    Ordered 0 text.length ((findMatches t host text).map Match.toRange) ∧
      ∀ m ∈ findMatches t host text, Holds t (tokenize host text) m.toRange := by
  obtain ⟨hordered, hholds⟩ := matchesFrom_spec (t := t) (tokenize_ordered host text) 0
  exact ⟨hordered.mono (by omega), hholds⟩

end Matches

theorem snapStart_le (text : Units) (a : Nat) : snapStart text a ≤ a + 20 := by
  rw [snapStart]
  split
  · omega
  · split
    · omega
    · rename_i space hspace
      have hlt : space < (slice text a (a + 20)).length := by
        obtain ⟨h, -⟩ := List.findIdx?_eq_some_iff_getElem.1 hspace
        exact h
      rw [slice, List.length_drop, List.length_take] at hlt
      omega

theorem snapStart_zero (text : Units) : snapStart text 0 = 0 := if_pos rfl

theorem snapEnd_le (text : Units) (b : Nat) : snapEnd text b ≤ text.length := by
  rw [snapEnd]
  split
  · exact le_rfl
  · dsimp only
    split
    · omega
    · rename_i k hk
      have hlt : k < (slice text (b - 20) b).length := by
        obtain ⟨h, -⟩ := List.findIdx?_eq_some_iff_getElem.1 hk
        rwa [List.length_reverse] at h
      rw [slice, List.length_drop, List.length_take] at hlt ⊢
      omega

theorem window_spec (text : Units) {m : Match} (hstop : m.stop ≤ text.length) :
    (window text m).start ≤ m.start ∧ m.stop ≤ (window text m).stop ∧ (window text m).stop ≤ text.length := by
  have hend := snapEnd_le text ((window text m).start + width)
  refine ⟨?_, le_max_right _ _, max_le hend hstop⟩
  rw [window]
  dsimp only
  by_cases hbefore : m.start ≤ before
  · rw [Nat.sub_eq_zero_of_le hbefore, snapStart_zero]
    exact Nat.zero_le _
  · have := snapStart_le text (m.start - before)
    rw [before] at *
    omega

section Choice
variable {all chosen : List Candidate} {c : Candidate}

theorem best_spec (h : best chosen all = some c) : c ∈ all ∧ chosen.any (overlaps c) = false := by
  suffices hall : ∀ (l : List Candidate) (start : Option Candidate), l.foldl (fun best c =>
      if chosen.any (overlaps c) then best
      else match best with
        | none => some c
        | some b => if better c b then some c else some b) start = some c →
      start = some c ∨ c ∈ l ∧ chosen.any (overlaps c) = false by
    obtain hnone | hfound := hall all none h
    · cases hnone
    · exact hfound
  intro l
  induction l with
  | nil => exact fun start hstart => .inl hstart
  | cons d l ih =>
    intro start hfold
    rw [List.foldl_cons] at hfold
    obtain hd | ⟨hmem, hfree⟩ := ih _ hfold
    · by_cases hover : chosen.any (overlaps d) = true
      · rw [if_pos hover] at hd
        exact .inl hd
      · rw [if_neg hover] at hd
        have hfree : chosen.any (overlaps d) = false := by simpa using hover
        cases start with
        | none =>
          obtain rfl := Option.some.inj hd
          exact .inr ⟨List.mem_cons_self, hfree⟩
        | some b =>
          dsimp only at hd
          split at hd
          · obtain rfl := Option.some.inj hd
            exact .inr ⟨List.mem_cons_self, hfree⟩
          · exact .inl hd
    · exact .inr ⟨List.mem_cons_of_mem d hmem, hfree⟩

structure Apart (all chosen : List Candidate) : Prop where
  mem : ∀ c ∈ chosen, c ∈ all
  apart : chosen.Pairwise fun o c => overlaps c o = false

theorem Apart.choose (h : Apart all chosen) (left : Nat) :
    Apart all (choose all chosen left) ∧ (choose all chosen left).length ≤ chosen.length + left := by
  induction left generalizing chosen with
  | zero => exact ⟨h, le_rfl⟩
  | succ left ih =>
    rw [Snippets.choose]
    cases hbest : best chosen all with
    | none => exact ⟨h, Nat.le_add_right _ _⟩
    | some c =>
      obtain ⟨hmem, hfree⟩ := best_spec hbest
      have hnext : Apart all (chosen ++ [c]) := by
        refine ⟨fun d hd => ?_, ?_⟩
        · obtain hd | hd := List.mem_append.1 hd
          · exact h.mem d hd
          · exact List.mem_singleton.1 hd ▸ hmem
        · rw [List.pairwise_append]
          refine ⟨h.apart, List.pairwise_singleton _ _, fun o ho d hd => ?_⟩
          rw [List.mem_singleton.1 hd]
          exact Bool.eq_false_iff.2 (List.any_eq_false.1 hfree o ho)
      obtain ⟨hapart, hlen⟩ := ih hnext
      rw [List.length_append, List.length_singleton] at hlen
      exact ⟨hapart, hlen.trans (by omega)⟩

theorem overlaps_comm (c o : Candidate) : overlaps c o = overlaps o c := by
  rw [overlaps, overlaps, Bool.eq_iff_iff]
  simp only [Bool.and_eq_true, beq_iff_eq, decide_eq_true_eq]
  omega

theorem sorted_apart (h : Apart all chosen) (hne : ∀ c ∈ all, c.start < c.stop) :
    (StableSort.sort compareParts chosen).Pairwise fun a b => a.part < b.part ∨ a.part = b.part ∧ a.stop ≤ b.start := by
  have hperm := StableSort.sort_perm compareParts chosen
  have hsorted : (StableSort.sort compareParts chosen).Pairwise fun a b => compareParts a b ≠ .gt :=
    StableSort.sort_pairwise (StableSort.consistent_of_trans _)
  have hapart : (StableSort.sort compareParts chosen).Pairwise fun o c => overlaps c o = false :=
    (hperm.pairwise_iff fun {a b} hab => by rwa [overlaps_comm]).2 h.apart
  refine (hsorted.and hapart).imp_of_mem fun {a b} ha hb hab => ?_
  have hb := hne b (h.mem b (hperm.subset hb))
  obtain ⟨hle, hover⟩ := hab
  have hparts : a.part < b.part ∨ a.part = b.part ∧ a.start ≤ b.start := by
    obtain hlt | ⟨heq, hle⟩ := Ordering.isLE_then_iff_or.1 (Ordering.ne_gt_iff_isLE.1 hle)
    · exact .inl (Nat.compare_eq_lt.1 hlt)
    · exact .inr ⟨Nat.compare_eq_eq.1 heq, Nat.isLE_compare.1 hle⟩
  obtain hlt | ⟨heq, hle⟩ := hparts
  · exact .inl hlt
  · by_contra hgt
    have : overlaps b a = true := by
      simp only [overlaps, Bool.and_eq_true, beq_iff_eq, decide_eq_true_eq]
      omega
    rw [hover] at this
    cases this

end Choice

section Shift
variable {lo hi : Nat} {l : List Range}

theorem Ordered.shift (h : Ordered lo hi l) {k d hi' : Nat} (hd : d ≤ lo) (hhi : hi + k - d ≤ hi') :
    Ordered 0 hi' (l.map fun r => ⟨r.start + k - d, r.stop + k - d⟩) where
  bounds r hr := by
    obtain ⟨x, hx, rfl⟩ := List.mem_map.1 hr
    have := h.bounds x hx
    dsimp only
    omega
  sorted := by
    rw [List.pairwise_map]
    refine h.sorted.imp fun {a b} hab => ?_
    dsimp only
    omega

theorem slice_append_right (u v : Units) (i j : Nat) : slice (u ++ v) (u.length + i) (u.length + j) = slice v i j := by
  rw [slice, slice, List.take_length_add_append, List.drop_length_add_append]

theorem slice_append_left {u : Units} (v : Units) (i : Nat) {j : Nat} (h : j ≤ u.length) :
    slice (u ++ v) i j = slice u i j := by
  rw [slice, slice, List.take_append_of_le_length h]

theorem slice_map (f : Nat → Nat) (u : Units) (i j : Nat) : slice (u.map f) i j = (slice u i j).map f := by
  rw [slice, slice, List.map_drop, List.map_take]

theorem slice_slice (u : Units) (d i : Nat) {e j : Nat} (h : d + j ≤ e) :
    slice (slice u d e) i j = slice u (d + i) (d + j) := by
  rw [slice, slice, slice, List.take_drop, List.take_take, List.drop_drop, Nat.min_eq_left h]

end Shift

def leadOf (start : Nat) : Units := if 0 < start then [ellipsis] else []

/-- An excerpt for a range of a section: its text, and highlights in order in it and apart, each of which stands for
a word found in the section at the place shifted back. -/
structure Shows (host : Host) (t : SearchTerms) (s : Section) (r : Range) (excerpt : SearchSnippet) : Prop where
  bounds : r.start < r.stop ∧ r.stop ≤ s.text.length
  text : ∃ tail, excerpt.text = leadOf r.start ++ (slice s.text r.start r.stop).map lineToSpace ++ tail
  highlights : Ordered 0 excerpt.text.length excerpt.highlights
  words : ∀ h ∈ excerpt.highlights, ∃ w : Range, Holds t (tokenize host s.text) w ∧
    h.start + r.start = w.start + (leadOf r.start).length ∧ h.stop + r.start = w.stop + (leadOf r.start).length ∧
    slice excerpt.text h.start h.stop = (slice s.text w.start w.stop).map lineToSpace

section Excerpts
variable {host : Host} {t : SearchTerms} {s : Section} {c : Candidate}

structure Fitting (host : Host) (t : SearchTerms) (s : Section) (c : Candidate) : Prop where
  bounds : c.start < c.stop ∧ c.stop ≤ s.text.length
  ordered : Ordered c.start c.stop (c.inside.map Match.toRange)
  holds : ∀ m ∈ c.inside, Holds t (tokenize host s.text) m.toRange

theorem candidatesOf_fitting {part : Nat} (hc : c ∈ candidatesOf host t s part) :
    c.part = part ∧ Fitting host t s c := by
  obtain ⟨hordered, hholds⟩ := findMatches_spec host t s.text
  obtain ⟨m, hm, rfl⟩ := List.mem_map.1 hc
  have hmem : m ∈ findMatches t host s.text := List.mem_of_mem_take hm
  have hbounds := hordered.bounds m.toRange (List.mem_map_of_mem hmem)
  obtain ⟨hstart, hstop, hend⟩ := window_spec s.text hbounds.2.2
  have hlt : (window s.text m).start < (window s.text m).stop := by omega
  refine ⟨rfl, ⟨hlt, hend⟩, ⟨fun r hr => ?_, ?_⟩, fun x hx => ?_⟩
  · obtain ⟨x, hx, rfl⟩ := List.mem_map.1 hr
    obtain ⟨hx, hin⟩ := List.mem_filter.1 hx
    rw [Bool.and_eq_true, decide_eq_true_eq, decide_eq_true_eq] at hin
    exact ⟨hin.1, (hordered.bounds x.toRange (List.mem_map_of_mem hx)).2.1, hin.2⟩
  · exact hordered.sorted.sublist (List.filter_sublist.map Match.toRange)
  · exact hholds x (List.mem_of_mem_filter hx)

theorem candidates_fitting {sections : List Section} (hc : c ∈ candidates host t sections) :
    ∃ s, sections[c.part]? = some s ∧ Fitting host t s c := by
  obtain ⟨⟨s, part⟩, hmem, hc⟩ := List.mem_flatMap.1 hc
  obtain ⟨rfl, hfit⟩ := candidatesOf_fitting hc
  exact ⟨s, List.mk_mem_zipIdx_iff_getElem?.1 hmem, hfit⟩

theorem snippetOf_shows (h : Fitting host t s c) : Shows host t s c.toRange (snippetOf s c) := by
  obtain ⟨hlt, hstop⟩ := h.bounds
  obtain ⟨lead, hlead⟩ : ∃ lead, lead = leadOf c.start := ⟨_, rfl⟩
  obtain ⟨tail, htail⟩ : ∃ tail : Units, tail = if c.stop < s.text.length then [ellipsis] else [] := ⟨_, rfl⟩
  have htext : (snippetOf s c).text = lead ++ (slice s.text c.start c.stop).map lineToSpace ++ tail := by
    rw [hlead, htail]
    rfl
  have hhighlights : (snippetOf s c).highlights =
      (c.inside.map Match.toRange).map fun r => ⟨r.start + lead.length - c.start, r.stop + lead.length - c.start⟩ := by
    rw [List.map_map, hlead]
    rfl
  have hlen : (slice s.text c.start c.stop).length = c.stop - c.start := by
    rw [slice, List.length_drop, List.length_take, Nat.min_eq_left hstop]
  refine ⟨h.bounds, ⟨tail, by rw [htext, hlead]⟩, ?_, fun r hr => ?_⟩
  · rw [hhighlights]
    refine h.ordered.shift le_rfl ?_
    rw [htext, List.length_append, List.length_append, List.length_map, hlen]
    omega
  · rw [hhighlights] at hr
    obtain ⟨w, hw, rfl⟩ := List.mem_map.1 hr
    have hbounds := h.ordered.bounds w hw
    have hholds : Holds t (tokenize host s.text) w := by
      obtain ⟨m, hm, rfl⟩ := List.mem_map.1 hw
      exact h.holds m hm
    refine ⟨w, hholds, ?_, ?_, ?_⟩
    · rw [← hlead]
      dsimp only
      omega
    · rw [← hlead]
      dsimp only
      omega
    · have hi : w.start + lead.length - c.start = lead.length + (w.start - c.start) := by omega
      have hj : w.stop + lead.length - c.start = lead.length + (w.stop - c.start) := by omega
      rw [htext, hi, hj, List.append_assoc, slice_append_right, slice_append_left _ _ (by
        rw [List.length_map, hlen]
        omega), slice_map, slice_slice _ _ _ (by omega), Nat.add_sub_cancel' (by omega),
        Nat.add_sub_cancel' (by omega)]

end Excerpts

/-- The excerpts are at most as many as asked for, in the order of the note and apart, and each shows its part of the
text with highlights on words that were looked for. -/
theorem buildSnippets_spec (host : Host) (t : SearchTerms) (sections : List Section) (max : Nat) :
    (buildSnippets host t sections max).length ≤ max ∧
      ∃ places : List (Nat × Range),
        List.Forall₂ (fun place excerpt => ∃ s, sections[place.1]? = some s ∧ Shows host t s place.2 excerpt) places
          (buildSnippets host t sections max) ∧
        places.Pairwise fun p q => p.1 < q.1 ∨ p.1 = q.1 ∧ p.2.stop ≤ q.2.start := by
  have hempty : Apart (candidates host t sections) [] := ⟨by simp, .nil⟩
  obtain ⟨hapart, hlen⟩ := hempty.choose max
  have hfit := fun c (hc : c ∈ candidates host t sections) => candidates_fitting hc
  obtain ⟨sorted, hsorted⟩ : ∃ l, l = StableSort.sort compareParts (choose (candidates host t sections) [] max) :=
    ⟨_, rfl⟩
  have hperm := StableSort.sort_perm compareParts (choose (candidates host t sections) [] max)
  rw [← hsorted] at hperm
  have hbuild : buildSnippets host t sections max = sorted.map fun c =>
      snippetOf (sections.getD c.part ⟨none, []⟩) c := by
    rw [hsorted]
    rfl
  rw [hbuild]
  refine ⟨?_, sorted.map fun c => (c.part, c.toRange), ?_, ?_⟩
  · rw [List.length_map, hperm.length_eq]
    simpa using hlen
  · rw [List.forall₂_map_left_iff, List.forall₂_map_right_iff, List.forall₂_same]
    intro c hc
    obtain ⟨s, hs, hfitting⟩ := hfit c (hapart.mem c (hperm.subset hc))
    have hget : sections.getD c.part ⟨none, []⟩ = s := by rw [List.getD_eq_getElem?_getD, hs, Option.getD_some]
    rw [hget]
    exact ⟨s, hs, snippetOf_shows hfitting⟩
  · rw [List.pairwise_map, hsorted]
    exact sorted_apart hapart fun c hc => by
      obtain ⟨s, -, hfitting⟩ := hfit c hc
      exact hfitting.bounds.1

end Savoire.Snippets
