import Mathlib.Data.List.Basic
import Mathlib.Data.Nat.Find
import Mathlib.Order.Basic
import Mathlib.Tactic.TypeStar

/-! The pass that looks for a title below another, and so on, in one go through the lines of a note; and where it
loses a title that is there. -/
namespace Savoire.NoteEmbed
variable {κ : Type*}

structure Title (κ : Type*) where
  level : ℕ
  key : κ
  deriving DecidableEq

section Pass
variable (head : ℕ → Option (Title κ)) (targets : List κ)

variable [DecidableEq κ] in
/-- From line `i` on, of which `left` remain: `step` titles are found, the last of them of level `parentLevel`. -/
def pass : (step parentLevel i left : ℕ) → Option ℕ
  | _, _, _, 0 => none
  | step, parentLevel, i, left+1 =>
    match head i with
    | none => pass step parentLevel (i + 1) left
    | some h =>
      let ended := decide (0 < step) && decide (h.level ≤ parentLevel)
      let step := if ended then 0 else step
      let parentLevel := if ended then 0 else parentLevel
      if targets[step]? ≠ some h.key then pass step parentLevel (i + 1) left
      else if step + 1 = targets.length then some i
      else pass (step + 1) h.level (i + 1) left

def Deeper (a j : ℕ) : Prop := ∀ h g, head a = some h → head j = some g → h.level < g.level

/-- Line `b` comes after the title at line `a` and before the next that is not deeper. -/
def InSection (a b : ℕ) : Prop := a < b ∧ ∀ j, a < j → j ≤ b → Deeper head a j

def Matches (i s : ℕ) : Prop := ∃ h, head i = some h ∧ targets[s]? = some h.key

/-- The first `s` titles stand one below another from line `lo` on, the last at line `e`. -/
inductive ChainTo (lo : ℕ) : ℕ → ℕ → Prop
  | first {e : ℕ} : lo ≤ e → Matches head targets e 0 → ChainTo lo 1 e
  | next {s d e : ℕ} : ChainTo lo s d → InSection head d e → Matches head targets e s → ChainTo lo (s + 1) e

/-- A title found first, in no section of another such title. -/
structure Outer (lo r : ℕ) : Prop where
  le : lo ≤ r
  root : Matches head targets r 0
  outer : ∀ a, lo ≤ a → a < r → Matches head targets a 0 → ¬ InSection head a r

/-- Below an outer title `r`, each time the first title that matches. -/
inductive Firsts (lo r : ℕ) : ℕ → ℕ → Prop
  | root : Outer head targets lo r → Firsts lo r 1 r
  | next {s d e : ℕ} : Firsts lo r s d → InSection head d e → Matches head targets e s →
      (∀ j, d < j → j < e → ¬ Matches head targets j s) → Firsts lo r (s + 1) e

/-- A title at line `k` that ends the section of a title found below `r` and not that of `r`, when the next title has
not been found yet. -/
structure Break (lo r k : ℕ) : Prop where
  found : ∃ s d, Firsts head targets lo r s d ∧ s < targets.length ∧ d < k ∧
    (∀ j, d < j → j < k → Deeper head d j ∧ ¬ Matches head targets j s) ∧ ¬ Deeper head d k
  inside : Deeper head r k

/-- The title at line `e` ends a chain from line `lo` on, and it is not lost: no break comes before it in the section
of the first title that holds it, or it is kept from a break on. -/
inductive Kept (e : ℕ) : ℕ → Prop
  | whole {lo : ℕ} : ChainTo head targets lo targets.length e →
      (∀ e' < e, ¬ ChainTo head targets lo targets.length e') →
      (∀ r k, Break head targets lo r k → k ≤ e → ¬ InSection head r e) → Kept e lo
  | rest {lo r k : ℕ} : Break head targets lo r k → (∀ e' < k, ¬ ChainTo head targets lo targets.length e') →
      Kept e k → Kept e lo

end Pass

variable {head : ℕ → Option (Title κ)} {targets : List κ} {lo r s d e i k n p : ℕ}

theorem Matches.title (h : Matches head targets i s) : ∃ g, head i = some g := by
  obtain ⟨g, hg, -⟩ := h
  exact ⟨g, hg⟩

theorem not_deeper_iff {a j : ℕ} : ¬ Deeper head a j ↔
    ∃ h g, head a = some h ∧ head j = some g ∧ g.level ≤ h.level := by
  simp only [Deeper, not_forall, not_lt]
  constructor
  · rintro ⟨h, g, hh, hg, hle⟩
    exact ⟨h, g, hh, hg, hle⟩
  · rintro ⟨h, g, hh, hg, hle⟩
    exact ⟨h, g, hh, hg, hle⟩

theorem Deeper.trans {a b c : ℕ} (h : Deeper head a b) (h' : Deeper head b c) (hb : ∃ g, head b = some g) :
    Deeper head a c := by
  obtain ⟨g, hg⟩ := hb
  exact fun x y hx hy => (h x g hx hg).trans (h' g y hg hy)

theorem InSection.trans {a b c : ℕ} (h : InSection head a b) (h' : InSection head b c) (hb : ∃ g, head b = some g) :
    InSection head a c := by
  refine ⟨h.1.trans h'.1, fun j haj hjc => ?_⟩
  by_cases hjb : j ≤ b
  · exact h.2 j haj hjb
  · exact (h.2 b h.1 le_rfl).trans (h'.2 j (by omega) hjc) hb

section
variable (h : ChainTo head targets lo s e)
include h

theorem ChainTo.title : ∃ g, head e = some g := by
  cases h with
  | first _ hm => exact hm.title
  | next _ _ hm => exact hm.title

theorem ChainTo.le : lo ≤ e := by
  induction h with
  | first hle _ => exact hle
  | next _ hsec _ ih => exact ih.trans hsec.1.le

theorem ChainTo.pos : 0 < s := by
  cases h <;> omega

theorem ChainTo.root :
    ∃ a, lo ≤ a ∧ Matches head targets a 0 ∧ (a = e ∨ InSection head a e) := by
  induction h with
  | first hle hm => exact ⟨_, hle, hm, .inl rfl⟩
  | next hchain hsec _ ih =>
    obtain ⟨a, hle, hm, rfl | ha⟩ := ih
    · exact ⟨a, hle, hm, .inr hsec⟩
    · exact ⟨a, hle, hm, .inr (ha.trans hsec hchain.title)⟩

end

section
variable (h : Firsts head targets lo r s d)
include h

theorem Firsts.chainTo : ChainTo head targets lo s d := by
  induction h with
  | root houter => exact .first houter.le houter.root
  | next _ hsec hm _ ih => exact .next ih hsec hm

theorem Firsts.outer : Outer head targets lo r := by
  induction h with
  | root houter => exact houter
  | next _ _ _ _ ih => exact ih

theorem Firsts.inSection : d = r ∨ InSection head r d := by
  induction h with
  | root _ => exact .inl rfl
  | next hfirsts hsec _ _ ih =>
    obtain rfl | ih := ih
    · exact .inr hsec
    · exact .inr (ih.trans hsec hfirsts.chainTo.title)

theorem Firsts.unique {d' : ℕ} (h' : Firsts head targets lo r s d') : d = d' := by
  induction h generalizing d' with
  | root _ =>
    cases h' with
    | root _ => rfl
    | next h' _ _ _ => exact absurd h'.chainTo.pos (by omega)
  | next hfirsts hsec hm hnone ih =>
    cases h' with
    | root _ => exact absurd hfirsts.chainTo.pos (by omega)
    | next hfirsts' hsec' hm' hnone' =>
      obtain rfl := ih hfirsts'
      rcases lt_trichotomy _ d' with hlt | heq | hgt
      · exact absurd hm (hnone' _ hsec.1 hlt)
      · exact heq
      · exact absurd hm' (hnone _ hsec'.1 hgt)

theorem Firsts.prior {m : ℕ} (hm : 0 < m) (hms : m ≤ s) :
    ∃ g, Firsts head targets lo r m g ∧ g ≤ d := by
  induction h with
  | root houter =>
    obtain rfl : m = 1 := by omega
    exact ⟨r, .root houter, le_rfl⟩
  | next hfirsts hsec hmatch hnone ih =>
    obtain rfl | hlt := Nat.eq_or_lt_of_le hms
    · exact ⟨_, .next hfirsts hsec hmatch hnone, le_rfl⟩
    · obtain ⟨g, hg, hle⟩ := ih (by omega)
      exact ⟨g, hg, hle.trans hsec.1.le⟩

theorem Firsts.most (hroot : ∀ a, lo ≤ a → Matches head targets a 0 → InSection head a e → r ≤ a)
    (hnone : ∀ j, d < j → j < e → ¬ Matches head targets j s) {m c : ℕ} (hchain : ChainTo head targets lo m c)
    (hsec : InSection head c e) : m ≤ s ∧ ∃ g, Firsts head targets lo r m g ∧ g ≤ c := by
  induction hchain with
  | first hle hm => exact ⟨h.chainTo.pos, r, .root h.outer, hroot _ hle hm hsec⟩
  | next hchain' hsec' hm ih =>
    rename_i m b c
    obtain ⟨hms, g, hg, hgb⟩ := ih (hsec'.trans hsec ⟨_, hm.title.choose_spec⟩)
    have hbc := hsec'.1
    obtain rfl | hlt := Nat.eq_or_lt_of_le hms
    · obtain rfl := h.unique hg
      exact absurd hm (hnone c (by omega) hsec.1)
    · obtain ⟨g', hg', -⟩ := h.prior (m := m + 1) (by omega) hlt
      refine ⟨hlt, g', hg', ?_⟩
      cases hg' with
      | root _ => exact absurd hchain'.pos (by omega)
      | next hfirsts hsec'' hm' hfirst =>
        obtain rfl := hg.unique hfirsts
        by_contra hgt
        exact hfirst c (by omega) (by omega) hm

end

/-- Some titles are found, and the section of the last is still open at line `i`. -/
structure State (head : ℕ → Option (Title κ)) (targets : List κ) (lo i s p : ℕ) : Prop where
  lt : s < targets.length
  last : 0 < s → ∃ d g, ChainTo head targets lo s d ∧ d < i ∧ head d = some g ∧ g.level = p ∧
    ∀ j, d < j → j < i → Deeper head d j

theorem state_zero (h : 0 < targets.length) (lo i : ℕ) : State head targets lo i 0 0 where
  lt := h
  last hs := absurd hs (lt_irrefl 0)

theorem State.extend (h : State head targets lo i s p) (hdeep : 0 < s → ∀ g, head i = some g → p < g.level) :
    State head targets lo (i + 1) s p where
  lt := h.lt
  last hs := by
    obtain ⟨d, g, hchain, hdi, hd, hp, hopen⟩ := h.last hs
    refine ⟨d, g, hchain, by omega, hd, hp, fun j hdj hji => ?_⟩
    obtain rfl | hlt := Nat.eq_or_lt_of_le (Nat.lt_succ_iff.1 hji)
    · intro x y hx hy
      obtain rfl := Option.some.inj (hd.symm.trans hx)
      exact hp ▸ hdeep hs y hy
    · exact hopen j hdj hlt

theorem State.chainTo (h : State head targets lo i s p) (hlo : lo ≤ i) {g : Title κ} (hg : head i = some g)
    (hs : s = 0 ∨ p < g.level) (hm : Matches head targets i s) : ChainTo head targets lo (s + 1) i := by
  obtain rfl | hpos := Nat.eq_zero_or_pos s
  · exact .first hlo hm
  · obtain ⟨d, x, hchain, hdi, hd, hp, hopen⟩ := h.last hpos
    refine .next hchain ⟨hdi, fun j hdj hji => ?_⟩ hm
    obtain rfl | hlt := Nat.eq_or_lt_of_le hji
    · intro x' y hx hy
      obtain rfl := Option.some.inj (hd.symm.trans hx)
      obtain rfl := Option.some.inj (hg.symm.trans hy)
      omega
    · exact hopen j hdj hlt

section Run
variable [DecidableEq κ] {N : ℕ}

variable (head targets) in
/-- The pass from line `i` on to the end. -/
def passFrom (N s p i : ℕ) : Option ℕ := pass head targets s p i (N - i)

theorem passFrom_none (hi : i < N) (h : head i = none) :
    passFrom head targets N s p i = passFrom head targets N s p (i + 1) := by
  rw [passFrom, show N - i = N - (i + 1) + 1 by omega, pass, h]
  rfl

theorem passFrom_reset {g : Title κ} (h : head i = some g) (hs : 0 < s) (hp : g.level ≤ p) :
    passFrom head targets N s p i = passFrom head targets N 0 0 i := by
  rw [passFrom, passFrom]
  cases N - i with
  | zero => rfl
  | succ left => simp [pass, h, hs, hp]

section Title
variable {g : Title κ} (hi : i < N) (h : head i = some g) (hs : s = 0 ∨ p < g.level)
include hi h hs

theorem passFrom_title : passFrom head targets N s p i =
    if targets[s]? ≠ some g.key then passFrom head targets N s p (i + 1)
    else if s + 1 = targets.length then some i
    else passFrom head targets N (s + 1) g.level (i + 1) := by
  have hended : (decide (0 < s) && decide (g.level ≤ p)) = false := by
    rw [Bool.and_eq_false_iff, decide_eq_false_iff_not, decide_eq_false_iff_not]
    omega
  rw [passFrom, show N - i = N - (i + 1) + 1 by omega, pass, h]
  simp only [hended]
  rfl

theorem passFrom_miss (hm : ¬ Matches head targets i s) :
    passFrom head targets N s p i = passFrom head targets N s p (i + 1) := by
  rw [passFrom_title hi h hs, if_pos fun hkey => hm ⟨g, h, hkey⟩]

theorem passFrom_match (hm : Matches head targets i s) : passFrom head targets N s p i =
    if s + 1 = targets.length then some i else passFrom head targets N (s + 1) g.level (i + 1) := by
  obtain ⟨g', h', hkey⟩ := hm
  obtain rfl := Option.some.inj (h.symm.trans h')
  rw [passFrom_title hi h hs, if_neg (not_not_intro hkey)]

end Title

theorem State.step (h : State head targets lo i s p) (hlo : lo ≤ i) (hi : i < N) :
    (passFrom head targets N s p i = some i ∧ ChainTo head targets lo targets.length i) ∨
      ∃ s' p', passFrom head targets N s p i = passFrom head targets N s' p' (i + 1) ∧
        State head targets lo (i + 1) s' p' := by
  -- A title that ends the open section is looked at as if none had been found.
  have htitle (s p : ℕ) (h : State head targets lo i s p) (g : Title κ) (hg : head i = some g)
      (hs : s = 0 ∨ p < g.level) : (passFrom head targets N s p i = some i ∧ ChainTo head targets lo targets.length i) ∨
        ∃ s' p', passFrom head targets N s p i = passFrom head targets N s' p' (i + 1) ∧
          State head targets lo (i + 1) s' p' := by
    by_cases hm : Matches head targets i s
    · have hchain := h.chainTo hlo hg hs hm
      rw [passFrom_match hi hg hs hm]
      split
      · rename_i hlen
        exact .inl ⟨rfl, hlen ▸ hchain⟩
      · have hlt := h.lt
        exact .inr ⟨_, _, rfl, by omega, fun _ => ⟨i, g, hchain, by omega, hg, rfl, fun j hij hji => by omega⟩⟩
    · refine .inr ⟨s, p, passFrom_miss hi hg hs hm, h.extend fun hpos x hx => ?_⟩
      obtain rfl := Option.some.inj (hg.symm.trans hx)
      omega
  cases hg : head i with
  | none => exact .inr ⟨s, p, passFrom_none hi hg, h.extend fun _ g hg' => by rw [hg] at hg'; cases hg'⟩
  | some g =>
    by_cases hs : s = 0 ∨ p < g.level
    · exact htitle s p h g hg hs
    · rw [passFrom_reset hg (by omega) (by omega)]
      exact htitle 0 0 (state_zero (by have := h.lt; omega) lo i) g hg (.inl rfl)

theorem State.sound (h : State head targets lo i s p) (hlo : lo ≤ i) (he : passFrom head targets N s p i = some e) :
    ChainTo head targets lo targets.length e := by
  obtain ⟨left, hleft⟩ : ∃ left, left = N - i := ⟨_, rfl⟩
  induction left generalizing i s p with
  | zero =>
    rw [passFrom, ← hleft] at he
    cases he
  | succ left ih =>
    obtain ⟨hfound, hchain⟩ | ⟨s', p', hnext, hstate⟩ := h.step (N := N) hlo (by omega)
    · rw [hfound] at he
      exact Option.some.inj he ▸ hchain
    · rw [hnext] at he
      exact ih hstate (by omega) he (by omega)

theorem passFrom_sound (he : passFrom head targets N 0 0 lo = some e) : ChainTo head targets lo targets.length e := by
  obtain hnil | ht := Nat.eq_zero_or_pos targets.length
  · obtain rfl := List.length_eq_zero_iff.1 hnil
    have hnone : ∀ left s p i, pass head ([] : List κ) s p i left = none := by
      intro left
      induction left with
      | zero => exact fun s p i => rfl
      | succ left ih => intro s p i; cases h : head i <;> simp [pass, h, ih]
    rw [passFrom, hnone] at he
    cases he
  · exact (state_zero ht lo lo).sound le_rfl he

theorem exists_state (ht : 0 < targets.length) (hlo : lo ≤ i) (hi : i ≤ N)
    (hnone : ∀ e < i, ¬ ChainTo head targets lo targets.length e) :
    ∃ s p, State head targets lo i s p ∧ passFrom head targets N 0 0 lo = passFrom head targets N s p i := by
  induction i, hlo using Nat.le_induction with
  | base => exact ⟨0, 0, state_zero ht lo lo, rfl⟩
  | succ i hlo ih =>
    obtain ⟨s, p, hstate, hrun⟩ := ih (by omega) fun e he => hnone e (by omega)
    obtain ⟨-, hchain⟩ | ⟨s', p', hnext, hstate'⟩ := hstate.step (N := N) hlo (by omega)
    · exact absurd hchain (hnone i (by omega))
    · exact ⟨s', p', hstate', hrun.trans hnext⟩

theorem passFrom_between (hi : i ≤ k) (hk : k ≤ N)
    (h : ∀ j, i ≤ j → j < k → (∀ g, head j = some g → s = 0 ∨ p < g.level) ∧ ¬ Matches head targets j s) :
    passFrom head targets N s p i = passFrom head targets N s p k := by
  induction k, hi using Nat.le_induction with
  | base => rfl
  | succ k hik ih =>
    rw [ih (by omega) fun j hij hjk => h j hij (by omega)]
    obtain ⟨hdeep, hmiss⟩ := h k hik (by omega)
    cases hg : head k with
    | none => exact passFrom_none (by omega) hg
    | some g => exact passFrom_miss (by omega) hg (hdeep g hg) hmiss

theorem Outer.reach {g : Title κ} (houter : Outer head targets lo r) (h : State head targets lo r s p)
    (hg : head r = some g) (hr : r < N) (ht : 1 < targets.length) :
    passFrom head targets N s p r = passFrom head targets N 1 g.level (r + 1) := by
  have hfresh : passFrom head targets N 0 0 r = passFrom head targets N 1 g.level (r + 1) := by
    rw [passFrom_match hr hg (.inl rfl) houter.root, if_neg (by omega)]
  obtain rfl | hpos := Nat.eq_zero_or_pos s
  · rw [← hfresh, passFrom_title hr hg (.inl rfl), passFrom_title hr hg (.inl rfl)]
    obtain ⟨g', hg', hkey⟩ := houter.root
    obtain rfl := Option.some.inj (hg.symm.trans hg')
    rw [if_neg (not_not_intro hkey), if_neg (not_not_intro hkey)]
  · -- The open section holds no outer title, so the title ends it.
    have hend : g.level ≤ p := by
      by_contra hlt
      obtain ⟨d, x, hchain, hdr, hd, hp, hopen⟩ := h.last hpos
      have hsec : InSection head d r := by
        refine ⟨hdr, fun j hdj hjr => ?_⟩
        obtain rfl | hjr := Nat.eq_or_lt_of_le hjr
        · intro x' y hx hy
          obtain rfl := Option.some.inj (hd.symm.trans hx)
          obtain rfl := Option.some.inj (hg.symm.trans hy)
          omega
        · exact hopen j hdj hjr
      obtain ⟨a, hle, hm, rfl | ha⟩ := hchain.root
      · exact houter.outer a hle hdr hm hsec
      · exact houter.outer a hle (ha.1.trans hdr) hm (ha.trans hsec hchain.title)
    rw [passFrom_reset hg hpos hend, hfresh]

variable (hN : ∀ i g, head i = some g → i < N)
include hN

theorem Firsts.reach (h : Firsts head targets lo r s d) (hs : s < targets.length)
    (hnone : ∀ e < d, ¬ ChainTo head targets lo targets.length e) {g : Title κ} (hg : head d = some g) :
    passFrom head targets N 0 0 lo = passFrom head targets N s g.level (d + 1) := by
  induction h generalizing g with
  | root houter =>
    have hr := hN r g hg
    obtain ⟨s, p, hstate, hrun⟩ := exists_state (N := N) (by omega) houter.le hr.le hnone
    have := houter.reach hstate hg hr (by omega)
    rw [hrun, this]
  | next hfirsts hsec hm hfirst ih =>
    obtain ⟨x, hx⟩ := hfirsts.chainTo.title
    have hd := hsec.1
    have hrun := ih (by omega) (fun e he => hnone e (by omega)) hx
    have he := hN _ g hg
    rw [hrun, passFrom_between (by omega) he.le fun j hdj hje => ⟨fun y hy => ?_, hfirst j (by omega) hje⟩,
      passFrom_match he hg (.inr (hsec.2 _ hd le_rfl x g hx hg)) hm, if_neg (by omega)]
    exact .inr (hsec.2 j (by omega) hje.le x y hx hy)

theorem Break.restart (h : Break head targets lo r k)
    (hnone : ∀ e < k, ¬ ChainTo head targets lo targets.length e) :
    passFrom head targets N 0 0 lo = passFrom head targets N 0 0 k := by
  obtain ⟨s, d, hfirsts, hs, hdk, hopen, hend⟩ := h.found
  obtain ⟨x, g, hx, hg, hle⟩ := not_deeper_iff.1 hend
  rw [hfirsts.reach hN hs (fun e he => hnone e (by omega)) hx,
    passFrom_between (by omega) (hN k g hg).le fun j hdj hjk => ⟨fun y hy => .inr ?_, (hopen j (by omega) hjk).2⟩,
    passFrom_reset hg hfirsts.chainTo.pos hle]
  exact (hopen j (by omega) hjk).1 x y hx hy

/-- Without a break before it in the section that holds it, the first end of a chain is found. -/
theorem passFrom_whole (hchain : ChainTo head targets lo targets.length e)
    (hnone : ∀ e' < e, ¬ ChainTo head targets lo targets.length e')
    (hwhole : ∀ r k, Break head targets lo r k → k ≤ e → ¬ InSection head r e) :
    passFrom head targets N 0 0 lo = some e := by
  obtain ⟨g, hg⟩ := hchain.title
  have he := hN e g hg
  obtain ⟨n, hn⟩ : ∃ n, n = targets.length := ⟨_, rfl⟩
  rw [← hn] at hchain
  cases hchain with
  | first hle hm =>
    obtain ⟨s, p, hstate, hrun⟩ := exists_state (N := N) (by omega) hle he.le hnone
    have hlt := hstate.lt
    obtain rfl : s = 0 := by omega
    rw [hrun, passFrom_match he hg (.inl rfl) hm, if_pos (by omega)]
  | next hchain hsec hm =>
    rename_i m d
    -- the first of the outer titles whose section holds the end
    have hexists : ∃ a, lo ≤ a ∧ Matches head targets a 0 ∧ InSection head a e := by
      obtain ⟨a, hle, ha, rfl | had⟩ := hchain.root
      · exact ⟨a, hle, ha, hsec⟩
      · exact ⟨a, hle, ha, had.trans hsec hchain.title⟩
    classical
    obtain ⟨r, ⟨hlo, hroot, hre⟩, hleast⟩ : ∃ r, (lo ≤ r ∧ Matches head targets r 0 ∧ InSection head r e) ∧
        ∀ a, lo ≤ a → Matches head targets a 0 → InSection head a e → r ≤ a :=
      ⟨Nat.find hexists, Nat.find_spec hexists, fun a hle ha hae => Nat.find_min' hexists ⟨hle, ha, hae⟩⟩
    have houter : Outer head targets lo r := by
      refine ⟨hlo, hroot, fun a hle har ha hsec => ?_⟩
      have := hleast a hle ha (hsec.trans hre hroot.title)
      omega
    have hdeep : ∀ s d i, Firsts head targets lo r s d → s < targets.length → d < i → i ≤ e →
        (∀ j, d < j → j < i → Deeper head d j ∧ ¬ Matches head targets j s) → Deeper head d i := by
      intro s d i hfirsts hs hdi hie hopen
      by_contra hend
      have hri : r < i := by
        obtain rfl | hsec := hfirsts.inSection
        · exact hdi
        · exact hsec.1.trans hdi
      exact hwhole r i ⟨⟨s, d, hfirsts, hs, hdi, hopen, hend⟩, hre.2 i hri hie⟩ hie hre
    have hfound : ∀ i, r < i → i ≤ e → ∃ s d, Firsts head targets lo r s d ∧ s < targets.length ∧ d < i ∧
        ∀ j, d < j → j < i → Deeper head d j ∧ ¬ Matches head targets j s := by
      intro i hri
      induction i, hri using Nat.le_induction with
      | base =>
        have hpos := hchain.pos
        exact fun _ => ⟨1, r, .root houter, by omega, by omega, fun j hrj hjr => by omega⟩
      | succ i hri ih =>
        intro hie
        obtain ⟨s, d, hfirsts, hs, hdi, hopen⟩ := ih (by omega)
        have hdeep := hdeep s d i hfirsts hs hdi (by omega) hopen
        by_cases hmatch : Matches head targets i s
        · have hnext : Firsts head targets lo r (s + 1) i := by
            refine .next hfirsts ⟨hdi, fun j hdj hji => ?_⟩ hmatch fun j hdj hji => (hopen j hdj hji).2
            obtain rfl | hlt := Nat.eq_or_lt_of_le hji
            · exact hdeep
            · exact (hopen j hdj hlt).1
          have hlen : s + 1 ≠ targets.length := fun hlen => hnone i (by omega) (hlen ▸ hnext.chainTo)
          exact ⟨s + 1, i, hnext, by omega, by omega, fun j hij hji => by omega⟩
        · refine ⟨s, d, hfirsts, hs, by omega, fun j hdj hji => ?_⟩
          obtain rfl | hlt := Nat.eq_or_lt_of_le (Nat.lt_succ_iff.1 hji)
          · exact ⟨hdeep, hmatch⟩
          · exact hopen j hdj hlt
    obtain ⟨s, d', hfirsts, hs, hde, hopen⟩ := hfound e hre.1 le_rfl
    obtain ⟨hms, -⟩ := hfirsts.most hleast (fun j hdj hje => (hopen j hdj hje).2) hchain hsec
    obtain rfl : s = m := by omega
    obtain ⟨x, hx⟩ := hfirsts.chainTo.title
    rw [hfirsts.reach hN hs (fun e' he' => hnone e' (by omega)) hx,
      passFrom_between (by omega) he.le fun j hdj hje => ⟨fun y hy => .inr ?_, (hopen j (by omega) hje).2⟩,
      passFrom_match he hg (.inr (hdeep s d' e hfirsts hs hde le_rfl hopen x g hx hg)) hm, if_pos hn]
    exact (hopen j (by omega) hje).1 x y hx hy

theorem passFrom_iff_kept :
    passFrom head targets N 0 0 lo = some e ↔ Kept head targets e lo := by
  constructor
  · intro hrun
    obtain ⟨left, hleft⟩ : ∃ left, left = N - lo := ⟨_, rfl⟩
    induction left using Nat.strong_induction_on generalizing lo with
    | _ left ih =>
      classical
      have hexists : ∃ f, ChainTo head targets lo targets.length f := ⟨e, passFrom_sound hrun⟩
      obtain ⟨f, hchain, hfirst⟩ : ∃ f, ChainTo head targets lo targets.length f ∧
          ∀ e' < f, ¬ ChainTo head targets lo targets.length e' :=
        ⟨Nat.find hexists, Nat.find_spec hexists, fun e' he' => Nat.find_min hexists he'⟩
      by_cases hwhole : ∀ r k, Break head targets lo r k → k ≤ f → ¬ InSection head r f
      · have hf := passFrom_whole hN hchain hfirst hwhole
        obtain rfl := Option.some.inj (hf.symm.trans hrun)
        exact .whole hchain hfirst hwhole
      · simp only [not_forall, not_not] at hwhole
        obtain ⟨r, k, hbreak, hkf, -⟩ := hwhole
        have hnone : ∀ e' < k, ¬ ChainTo head targets lo targets.length e' := fun e' he' => hfirst e' (by omega)
        rw [hbreak.restart hN hnone] at hrun
        obtain ⟨s, d, hfirsts, -, hdk, -, hend⟩ := hbreak.found
        obtain ⟨-, g, -, hg, -⟩ := not_deeper_iff.1 hend
        have hk := hN k g hg
        have hlo := hfirsts.chainTo.le
        exact .rest hbreak hnone (ih (N - k) (by omega) hrun rfl)
  · intro hkept
    induction hkept with
    | whole hchain hfirst hwhole => exact passFrom_whole hN hchain hfirst hwhole
    | rest hbreak hnone _ ih => rw [hbreak.restart hN hnone, ih]

end Run

end Savoire.NoteEmbed
