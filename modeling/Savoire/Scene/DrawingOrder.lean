import Savoire.Library.Increasing
import Savoire.Library.KeyedMap
import Savoire.Text

/-! The ranks that put the elements of a drawing in order: a longest run of elements already in order keeps its
ranks, the others are placed between them. -/
namespace Savoire.Scene

/-- The rank of the `m`-th of `k` elements between two ranks. -/
def rankIn (lo hi : Option ℚ) (k m : ℕ) : ℚ :=
  match lo, hi with
  | none, none => m + 1
  | none, some hi => hi - (k - m)
  | some lo, none => lo + m + 1
  | some lo, some hi => lo + (hi - lo) / (k + 1) * (m + 1)

def noRoom (lo hi : Option ℚ) (k : ℕ) : Bool :=
  match lo, hi with
  | some lo, some hi => decide ((hi - lo) / (k + 1) ≤ max 1 |lo| * (1 / 10 ^ 9))
  | _, _ => false

/-- The ranks of the places `i` to `i + k - 1`. -/
def ranks (lo hi : Option ℚ) (i k : ℕ) : Option (List (ℕ × ℚ)) :=
  if 0 < k ∧ noRoom lo hi k = true then none
  else some ((List.range k).map fun m => (i + m, rankIn lo hi k m))

section Rank
variable {lo hi : Option ℚ} {k m : ℕ}

theorem step_pos {a b : ℚ} (h : a < b) (k : ℕ) : 0 < (b - a) / ((k : ℚ) + 1) :=
  div_pos (sub_pos.2 h) (by positivity)

theorem rankIn_lt (h : ∀ a ∈ lo, ∀ b ∈ hi, a < b) {m' : ℕ} (hm : m < m') : rankIn lo hi k m < rankIn lo hi k m' := by
  have hm : (m : ℚ) < m' := by exact_mod_cast hm
  cases lo with
  | none => cases hi <;> simp only [rankIn] <;> linarith
  | some a => cases hi with
    | none => simp only [rankIn]; linarith
    | some b =>
      have hstep := step_pos (h a rfl b rfl) k
      have := mul_lt_mul_of_pos_left (add_lt_add_left hm 1) hstep
      simp only [rankIn]
      linarith

theorem lt_rankIn (h : ∀ a ∈ lo, ∀ b ∈ hi, a < b) {a : ℚ} (ha : a ∈ lo) : a < rankIn lo hi k m := by
  cases ha
  cases hi with
  | none => simp only [rankIn]; linarith
  | some b =>
    have hstep := step_pos (h a rfl b rfl) k
    have : 0 < (b - a) / ((k : ℚ) + 1) * (m + 1) := by positivity
    simp only [rankIn]
    linarith

theorem rankIn_lt_of_mem (h : ∀ a ∈ lo, ∀ b ∈ hi, a < b) (hm : m < k) {b : ℚ} (hb : b ∈ hi) :
    rankIn lo hi k m < b := by
  cases hb
  have hm : (m : ℚ) < k := by exact_mod_cast hm
  cases lo with
  | none => simp only [rankIn]; linarith
  | some a =>
    have hstep := step_pos (h a rfl b rfl) k
    have hall : (b - a) / ((k : ℚ) + 1) * (k + 1) = b - a := div_mul_cancel₀ _ (by positivity)
    have := mul_lt_mul_of_pos_left (add_lt_add_left hm 1) hstep
    simp only [rankIn]
    linarith

end Rank

variable {i : ℕ} {out : List (ℕ × ℚ)}

variable {lo hi : Option ℚ}

theorem ranks_spec {k : ℕ} (hout : ranks lo hi i k = some out)
    (h : ∀ a ∈ lo, ∀ b ∈ hi, a < b) :
    out.map Prod.fst = List.range' i k ∧ ∃ f : ℕ → ℚ,
      (∀ p, i ≤ p → p < i + k → out.lookup p = some (f p)) ∧ (∀ p q, p < q → i ≤ p → f p < f q) ∧
      ∀ p, i ≤ p → p < i + k → (∀ a ∈ lo, a < f p) ∧ ∀ b ∈ hi, f p < b := by
  rw [ranks] at hout
  split at hout
  · cases hout
  · obtain rfl := Option.some.inj hout
    have hkeys : ((List.range k).map fun m => (i + m, rankIn lo hi k m)).map Prod.fst = List.range' i k := by
      rw [List.map_map, List.range'_eq_map_range]
      rfl
    refine ⟨hkeys, fun p => rankIn lo hi k (p - i), fun p hp hpk => ?_, fun p q hpq hp =>
      rankIn_lt h (by omega), fun p hp hpk => ⟨fun a ha => lt_rankIn h ha, fun b hb =>
        rankIn_lt_of_mem h (by omega) hb⟩⟩
    have hmem : (p, rankIn lo hi k (p - i)) ∈ (List.range k).map fun m => (i + m, rankIn lo hi k m) :=
      List.mem_map.2 ⟨p - i, List.mem_range.2 (by omega), by rw [Nat.add_sub_cancel' hp]⟩
    exact (Entries.mem_iff_lookup (by rw [hkeys]; exact List.nodup_range')).1 hmem

section Fill
variable (zs : List (Option ℚ)) (ks : List ℕ)

def rankAt (i : ℕ) : Option ℚ := zs[i]?.join

/-- The places that keep their ranks. -/
def kept : List ℕ :=
  Increasing.longest (fun i => (rankAt zs i).getD 0) ((List.range zs.length).filter fun i => (rankAt zs i).isSome)

/-- The rank before a place. The place before a run keeps its own. -/
def rankBefore (i : ℕ) : Option ℚ := if i = 0 then none else rankAt zs (i - 1)

/-- New ranks from place `i` on, when the places from `i` to `j - 1` keep none and `left` places follow. -/
def fill (i j : ℕ) : ℕ → Option (List (ℕ × ℚ))
  | 0 => ranks (rankBefore zs i) none i (j - i)
  | left+1 =>
    if j ∈ ks then do
      let out ← ranks (rankBefore zs i) (rankAt zs j) i (j - i)
      return out ++ (← fill (j + 1) (j + 1) left)
    else fill i (j + 1) left

end Fill

def renumber (ids : List Text) (zOf : KeyedMap Text ℚ) : KeyedMap Text ℚ :=
  .ofList Prod.fst (fun e : Text × ℕ => (e.2 : ℚ) + 1)
    (ids.zipIdx.filter fun e => zOf.get e.1 ≠ some ((e.2 : ℚ) + 1))

/-- The ranks to write for the elements to be in the order given. -/
def assignOrder (ids : List Text) (zOf : KeyedMap Text ℚ) : KeyedMap Text ℚ :=
  let zs := ids.map zOf.get
  match fill zs (kept zs) 0 0 ids.length with
  | some out => .ofList (fun e => ids.getD e.1 []) Prod.snd out
  | none => renumber ids zOf

variable {zs : List (Option ℚ)} {ks : List ℕ}

/-- Places with ranks in order. -/
structure Kept (zs : List (Option ℚ)) (ks : List ℕ) : Prop where
  rank : ∀ p ∈ ks, ∃ z, rankAt zs p = some z
  sorted : ∀ p ∈ ks, ∀ q ∈ ks, p < q → ∀ a ∈ rankAt zs p, ∀ b ∈ rankAt zs q, a < b

/-- None of the places from `i` to `j - 1` keeps its rank, and the one before does. -/
structure Run (ks : List ℕ) (i j : ℕ) : Prop where
  le : i ≤ j
  free : ∀ p, i ≤ p → p < j → p ∉ ks
  start : 0 < i → i - 1 ∈ ks

variable {j : ℕ}

theorem Run.next (h : Run ks i j) (hj : j ∉ ks) : Run ks i (j + 1) where
  le := by have := h.le; omega
  free p hip hpj := by
    obtain rfl | hne := eq_or_ne p j
    · exact hj
    · exact h.free p hip (by omega)
  start := h.start

theorem run_after (hj : j ∈ ks) : Run ks (j + 1) (j + 1) where
  le := le_rfl
  free p hjp hpj := by omega
  start _ := by rwa [Nat.add_sub_cancel]

theorem Run.before_lt (h : Run ks i j) (hk : Kept zs ks) (hj : j ∈ ks) :
    ∀ a ∈ rankBefore zs i, ∀ b ∈ rankAt zs j, a < b := by
  intro a ha b hb
  rw [rankBefore] at ha
  split at ha
  · cases ha
  · have := h.le
    exact hk.sorted (i - 1) (h.start (by omega)) j hj (by omega) a ha b hb

theorem rankBefore_succ (j : ℕ) : rankBefore zs (j + 1) = rankAt zs j := by
  rw [rankBefore, if_neg (by omega), Nat.add_sub_cancel]

variable (zs) in
/-- The rank of a place once the new ones are written. -/
def rankAfter (out : List (ℕ × ℚ)) (p : ℕ) : ℚ := (out.lookup p).getD ((rankAt zs p).getD 0)

variable {p : ℕ}

theorem lookup_of_notMem (h : p ∉ out.map Prod.fst) : out.lookup p = none := by
  rw [List.lookup_eq_none_iff]
  rintro ⟨q, z⟩ hmem
  simpa using fun hpq : p = q => h (hpq ▸ List.mem_map_of_mem hmem)

variable {left : ℕ}

theorem fill_of_mem (hj : j ∈ ks) :
    fill zs ks i j (left + 1) = some out ↔ ∃ out₁ out₂, ranks (rankBefore zs i) (rankAt zs j) i (j - i) = some out₁ ∧
      fill zs ks (j + 1) (j + 1) left = some out₂ ∧ out = out₁ ++ out₂ := by
  rw [fill, if_pos hj]
  cases ranks (rankBefore zs i) (rankAt zs j) i (j - i) with
  | none => simp
  | some out₁ => cases hrest : fill zs ks (j + 1) (j + 1) left <;> simp [eq_comm]

/-- The new ranks are those of the places that do not keep theirs, and all are in order with them. -/
structure Filled (zs : List (Option ℚ)) (ks : List ℕ) (i n : ℕ) (out : List (ℕ × ℚ)) : Prop where
  places : out.map Prod.fst = (List.range' i (n - i)).filter (· ∉ ks)
  sorted : ∀ p q, i ≤ p → p < q → q < n → rankAfter zs out p < rankAfter zs out q
  above : ∀ p, i ≤ p → p < n → ∀ a ∈ rankBefore zs i, a < rankAfter zs out p

theorem Run.filter_range (h : Run ks i j) :
    (List.range' i (j - i)).filter (· ∉ ks) = List.range' i (j - i) := by
  rw [List.filter_eq_self]
  intro p hp
  have hp := List.mem_range'_1.1 hp
  exact decide_eq_true (h.free p hp.1 (by omega))

theorem fill_filled (hk : Kept zs ks) (h : Run ks i j)
    (hout : fill zs ks i j left = some out) : Filled zs ks i (j + left) out := by
  induction left generalizing i j out with
  | zero =>
    obtain ⟨hkeys, f, hf, hlt, hbetween⟩ := ranks_spec hout (by simp)
    have hafter (p : ℕ) (hip : i ≤ p) (hpj : p < j) : rankAfter zs out p = f p := by
      rw [rankAfter, hf p hip (by omega)]
      rfl
    refine ⟨?_, fun p q hip hpq hqj => ?_, fun p hip hpj a ha => ?_⟩
    · rw [hkeys, Nat.add_zero, h.filter_range]
    · rw [hafter p hip (by omega), hafter q (by omega) hqj]
      exact hlt p q hpq hip
    · rw [hafter p hip hpj]
      exact (hbetween p hip (by omega)).1 a ha
  | succ left ih =>
    by_cases hj : j ∈ ks
    · obtain ⟨out₁, out₂, hout₁, hout₂, rfl⟩ := (fill_of_mem hj).1 hout
      obtain ⟨z, hz⟩ := hk.rank j hj
      obtain ⟨hkeys, f, hf, hlt, hbetween⟩ := ranks_spec hout₁ (h.before_lt hk hj)
      have hrest := ih (run_after hj) hout₂
      have habove := hrest.above
      rw [rankBefore_succ, hz] at habove
      rw [hz] at hbetween
      have hle := h.le
      -- What a place gets comes from the run, from the place that ends it or from what follows.
      have hrun (p : ℕ) (hip : i ≤ p) (hpj : p < j) : rankAfter zs (out₁ ++ out₂) p = f p := by
        rw [rankAfter, List.lookup_append, hf p hip (by omega)]
        rfl
      have hlater (p : ℕ) (hjp : j ≤ p) : rankAfter zs (out₁ ++ out₂) p = rankAfter zs out₂ p := by
        have hnot : p ∉ out₁.map Prod.fst := by
          rw [hkeys, List.mem_range'_1]
          omega
        rw [rankAfter, List.lookup_append, lookup_of_notMem hnot, Option.none_or, rankAfter]
      have hself : rankAfter zs (out₁ ++ out₂) j = z := by
        have hnot : j ∉ out₂.map Prod.fst := by
          rw [hrest.places, List.mem_filter, List.mem_range'_1]
          omega
        rw [hlater j le_rfl, rankAfter, lookup_of_notMem hnot, hz]
        rfl
      have hend (q : ℕ) (hjq : j < q) (hq : q < j + (left + 1)) : z < rankAfter zs (out₁ ++ out₂) q := by
        rw [hlater q (by omega)]
        exact habove q (by omega) (by omega) z rfl
      refine ⟨?_, fun p q hip hpq hqn => ?_, fun p hip hpn a ha => ?_⟩
      · have hsplit : List.range' i (j + (left + 1) - i) =
            List.range' i (j - i) ++ j :: List.range' (j + 1) (j + 1 + left - (j + 1)) := by
          rw [← List.range'_succ, show j + (left + 1) - i = j - i + (left + 1) by omega,
            show j + 1 + left - (j + 1) + 1 = left + 1 by omega, ← List.range'_append_1,
            Nat.add_sub_cancel' hle]
        rw [hsplit, List.filter_append, List.filter_cons_of_neg (by simpa using hj), h.filter_range,
          List.map_append, hkeys, hrest.places]
      · rcases lt_trichotomy p j with hpj | rfl | hjp
        · rw [hrun p hip hpj]
          have hpz := (hbetween p hip (by omega)).2 z rfl
          rcases lt_trichotomy q j with hqj | rfl | hjq
          · rw [hrun q (by omega) hqj]
            exact hlt p q hpq hip
          · rwa [hself]
          · exact hpz.trans (hend q hjq hqn)
        · rw [hself]
          exact hend q hpq hqn
        · rw [hlater p hjp.le, hlater q (by omega)]
          exact hrest.sorted p q (by omega) hpq (by omega)
      · have haz : a < z := h.before_lt hk hj a ha z hz
        rcases lt_trichotomy p j with hpj | rfl | hjp
        · rw [hrun p hip hpj]
          exact (hbetween p hip (by omega)).1 a ha
        · rwa [hself]
        · exact haz.trans (hend p hjp hpn)
    · rw [fill, if_neg hj] at hout
      have hrest := ih (h.next hj) hout
      rwa [Nat.add_right_comm, Nat.add_assoc] at hrest

/-- Two places next to each other among those that keep their ranks, with places between them and no room. -/
structure CrowdedAt (zs : List (Option ℚ)) (ks : List ℕ) (p q : ℕ) : Prop where
  left : p ∈ ks
  right : q ∈ ks
  apart : p + 1 < q
  free : ∀ r, p < r → r < q → r ∉ ks
  close : ∃ lo hi, rankAt zs p = some lo ∧ rankAt zs q = some hi ∧
    (hi - lo) / ((q : ℚ) - p) ≤ max 1 |lo| * (1 / 10 ^ 9)

theorem ranks_eq_none {k : ℕ} : ranks lo hi i k = none ↔ 0 < k ∧ noRoom lo hi k = true := by
  rw [ranks]
  split <;> simp_all

theorem noRoom_iff {k : ℕ} : noRoom lo hi k = true ↔
    ∃ a b, lo = some a ∧ hi = some b ∧ (b - a) / (k + 1) ≤ max 1 |a| * (1 / 10 ^ 9) := by
  cases lo <;> cases hi <;> simp [noRoom]

theorem Run.crowdedAt (h : Run ks i j) (hj : j ∈ ks) :
    ranks (rankBefore zs i) (rankAt zs j) i (j - i) = none ↔ 0 < i ∧ CrowdedAt zs ks (i - 1) j := by
  rw [ranks_eq_none, noRoom_iff, rankBefore]
  cases i with
  | zero =>
    simp
  | succ p =>
    have hle := h.le
    have hcast : ((j - (p + 1) : ℕ) : ℚ) + 1 = (j : ℚ) - p := by
      rw [Nat.cast_sub hle]
      push_cast
      ring
    rw [if_neg (by omega), Nat.add_sub_cancel, hcast]
    constructor
    · rintro ⟨hpos, lo, hi, hlo, hhi, hclose⟩
      exact ⟨by omega, h.start (by omega), hj, by omega, fun r hpr hrj => h.free r (by omega) hrj, lo, hi, hlo,
        hhi, hclose⟩
    · rintro ⟨-, hcrowded⟩
      have hapart := hcrowded.apart
      obtain ⟨lo, hi, hlo, hhi, hclose⟩ := hcrowded.close
      exact ⟨by omega, lo, hi, hlo, hhi, hclose⟩

theorem fill_eq_none (h : Run ks i j) : fill zs ks i j left = none ↔
    ∃ p q, i ≤ p + 1 ∧ q < j + left ∧ CrowdedAt zs ks p q := by
  induction left generalizing i j with
  | zero =>
    rw [fill, ranks_eq_none, noRoom_iff]
    constructor
    · rintro ⟨-, lo, hi, -, hhi, -⟩
      cases hhi
    · rintro ⟨p, q, hip, hqj, hcrowded⟩
      have := hcrowded.apart
      exact absurd hcrowded.right (h.free q (by omega) hqj)
  | succ left ih =>
    by_cases hj : j ∈ ks
    · have hbind : fill zs ks i j (left + 1) = none ↔
          ranks (rankBefore zs i) (rankAt zs j) i (j - i) = none ∨ fill zs ks (j + 1) (j + 1) left = none := by
        rw [fill, if_pos hj]
        cases ranks (rankBefore zs i) (rankAt zs j) i (j - i) with
        | none => simp
        | some out => cases fill zs ks (j + 1) (j + 1) left <;> simp
      have hle := h.le
      rw [hbind, h.crowdedAt hj, ih (run_after hj)]
      constructor
      · rintro (⟨hpos, hcrowded⟩ | ⟨p, q, hjp, hqn, hcrowded⟩)
        · exact ⟨i - 1, j, by omega, by omega, hcrowded⟩
        · exact ⟨p, q, by omega, by omega, hcrowded⟩
      · rintro ⟨p, q, hip, hqn, hcrowded⟩
        have hapart := hcrowded.apart
        by_cases hjp : j ≤ p
        · exact .inr ⟨p, q, by omega, by omega, hcrowded⟩
        · -- The pair stands at both ends of the run.
          have hpi : p + 1 = i := by
            by_contra hne
            exact h.free p (by omega) (by omega) hcrowded.left
          have hqj : q = j := by
            rcases lt_trichotomy q j with hlt | heq | hgt
            · exact absurd hcrowded.right (h.free q (by omega) hlt)
            · exact heq
            · exact absurd hj (hcrowded.free j (by omega) hgt)
          subst hpi hqj
          exact .inl ⟨by omega, hcrowded⟩
    · rw [fill, if_neg hj, ih (h.next hj), Nat.add_right_comm, Nat.add_assoc]

variable (zs) in
theorem kept_spec : (kept zs).reverse.Sublist ((List.range zs.length).filter fun i => (rankAt zs i).isSome) ∧
    ((kept zs).reverse.Pairwise fun i j => (rankAt zs i).getD 0 < (rankAt zs j).getD 0) ∧
    ∀ c : List ℕ, c.Sublist ((List.range zs.length).filter fun i => (rankAt zs i).isSome) →
      (c.Pairwise fun i j => (rankAt zs i).getD 0 < (rankAt zs j).getD 0) → c.length ≤ (kept zs).length :=
  Increasing.longest_spec (List.nodup_range.filter _)

theorem mem_kept (hp : p ∈ kept zs) : p < zs.length ∧ (rankAt zs p).isSome := by
  have hmem := (kept_spec zs).1.subset (List.mem_reverse.2 hp)
  rwa [List.mem_filter, List.mem_range] at hmem

theorem filter_kept : (List.range zs.length).filter (· ∈ kept zs) = (kept zs).reverse := by
  have hfilter := Increasing.filter_mem_of_sublist ((kept_spec zs).1.trans List.filter_sublist) List.nodup_range
  simpa using hfilter

variable (zs) in
theorem kept_kept : Kept zs (kept zs) where
  rank p hp := Option.isSome_iff_exists.1 (mem_kept hp).2
  sorted p hp q hq hpq a ha b hb := by
    have hsorted := (kept_spec zs).2.1
    rw [← filter_kept, List.pairwise_filter] at hsorted
    have hlt := List.pairwise_iff_getElem.1 hsorted p q (by simpa using (mem_kept hp).1)
      (by simpa using (mem_kept hq).1) hpq (by simpa using hp) (by simpa using hq)
    rw [Option.mem_def] at ha hb
    simpa [ha, hb] using hlt

theorem mem_kept_of_rankAfter (h : Filled zs (kept zs) 0 zs.length out)
    (hp : p < zs.length) (hsame : rankAt zs p = some (rankAfter zs out p)) : p ∈ kept zs := by
  have hstay (q : ℕ) (hq : q ∈ kept zs) : rankAt zs q = some (rankAfter zs out q) := by
    obtain ⟨z, hz⟩ := (kept_kept zs).rank q hq
    have hnot : q ∉ out.map Prod.fst := by
      rw [h.places, List.mem_filter]
      simp [hq]
    rw [rankAfter, lookup_of_notMem hnot, hz]
    rfl
  obtain ⟨same, hdef⟩ : ∃ same, same = (List.range zs.length).filter fun q =>
    decide (rankAt zs q = some (rankAfter zs out q)) := ⟨_, rfl⟩
  have hmem (q : ℕ) : q ∈ same ↔ q < zs.length ∧ rankAt zs q = some (rankAfter zs out q) := by
    rw [hdef, List.mem_filter, List.mem_range, decide_eq_true_eq]
  have hle : same.length ≤ (kept zs).length := by
    refine (kept_spec zs).2.2 same ?_ ?_
    · rw [hdef]
      refine List.monotone_filter_right _ fun q hq => ?_
      rw [of_decide_eq_true hq]
      rfl
    · have hrange : (List.range zs.length).Pairwise fun i j =>
          (rankAt zs i = some (rankAfter zs out i)) → (rankAt zs j = some (rankAfter zs out j)) →
            (rankAt zs i).getD 0 < (rankAt zs j).getD 0 := by
        refine List.pairwise_iff_getElem.2 fun i j hi hj hij => ?_
        rw [List.getElem_range, List.getElem_range]
        intro hsi hsj
        rw [hsi, hsj]
        exact h.sorted i j (by omega) hij (by simpa using hj)
      rw [hdef, List.pairwise_filter]
      exact hrange.imp fun hlt hi hj => hlt (of_decide_eq_true hi) (of_decide_eq_true hj)
  have hsub : (kept zs).reverse.Sublist same := by
    rw [← filter_kept, hdef]
    refine List.monotone_filter_right _ fun q hq => ?_
    exact decide_eq_true (hstay q (of_decide_eq_true hq))
  have heq := hsub.eq_of_length_le (by simpa using hle)
  rw [← List.mem_reverse, heq, hmem]
  exact ⟨hp, hsame⟩

/-- The elements have ranks, in strictly increasing order. -/
def Ranked (zOf : KeyedMap Text ℚ) (ids : List Text) : Prop :=
  ∃ ranks : List ℚ, ids.map zOf.get = ranks.map some ∧ ranks.Pairwise (· < ·)

section Elements
variable {ids : List Text} {zOf : KeyedMap Text ℚ}

theorem ranked_map {name : ℕ → Text} (rank : ℕ → ℚ) {places : List ℕ}
    (h : ∀ p ∈ places, zOf.get (name p) = some (rank p)) :
    Ranked zOf (places.map name) ↔ places.Pairwise fun p q => rank p < rank q := by
  have hranks : (places.map name).map zOf.get = (places.map rank).map some := by
    rw [List.map_map, List.map_map]
    exact List.map_congr_left h
  constructor
  · rintro ⟨ranks, heq, hsorted⟩
    rw [hranks] at heq
    rw [← List.map_injective_iff.2 (Option.some_injective ℚ) heq, List.pairwise_map] at hsorted
    exact hsorted
  · intro hsorted
    exact ⟨places.map rank, hranks, List.pairwise_map.2 hsorted⟩

theorem ids_eq_map (ids : List Text) : (List.range ids.length).map (fun p => ids.getD p []) = ids := by
  refine List.ext_getElem (by simp) fun p hp hp' => ?_
  rw [List.getElem_map, List.getElem_range, List.getD_eq_getElem _ _ hp']

theorem rankAt_map (hp : p < ids.length) : rankAt (ids.map zOf.get) p = zOf.get (ids.getD p []) := by
  rw [rankAt, List.getElem?_map, List.getElem?_eq_getElem hp, List.getD_eq_getElem _ _ hp]
  rfl

theorem name_inj (h : ids.Nodup) {q : ℕ} (hp : p < ids.length) (hq : q < ids.length)
    (heq : ids.getD p [] = ids.getD q []) : p = q := by
  rw [List.getD_eq_getElem _ _ hp, List.getD_eq_getElem _ _ hq] at heq
  exact (List.Nodup.getElem_inj_iff h).1 heq

theorem get_ofPlaces (h : ids.Nodup) (hn : (out.map Prod.fst).Nodup)
    (hlt : ∀ p ∈ out.map Prod.fst, p < ids.length) (hp : p < ids.length) :
    (KeyedMap.ofList (fun e : ℕ × ℚ => ids.getD e.1 []) Prod.snd out).get (ids.getD p []) = out.lookup p := by
  have hnames : (out.map fun e : ℕ × ℚ => ids.getD e.1 []).Nodup := by
    have hmap := List.Nodup.map_on (f := fun p => ids.getD p [])
      (fun p hp q hq heq => name_inj h (hlt p hp) (hlt q hq) heq) hn
    rwa [List.map_map] at hmap
  refine KeyedMap.get_ofList_entries (fun p => ids.getD p []) hnames fun e he heq => ?_
  exact name_inj h (hlt e.1 (List.mem_map_of_mem he)) hp heq

theorem get_renumber (h : ids.Nodup) {id : Text} {z : ℚ} : (renumber ids zOf).get id = some z ↔
    ∃ p : ℕ, ids[p]? = some id ∧ z = p + 1 ∧ zOf.get id ≠ some z := by
  have hnames : ((ids.zipIdx.filter fun e : Text × ℕ => zOf.get e.1 ≠ some ((e.2 : ℚ) + 1)).map Prod.fst).Nodup := by
    have hsub := (List.filter_sublist (l := ids.zipIdx)
      (p := fun e : Text × ℕ => zOf.get e.1 ≠ some ((e.2 : ℚ) + 1))).map Prod.fst
    rw [List.zipIdx_map_fst] at hsub
    exact h.sublist hsub
  rw [renumber, KeyedMap.ofList, KeyedMap.get_foldl_set _ _ hnames]
  constructor
  · rintro (⟨⟨x, p⟩, hmem, rfl, rfl⟩ | ⟨-, hempty⟩)
    · rw [List.mem_filter, List.mk_mem_zipIdx_iff_getElem?, decide_eq_true_eq] at hmem
      exact ⟨p, hmem.1, rfl, hmem.2⟩
    · cases hempty
  · rintro ⟨p, hp, rfl, hne⟩
    refine .inl ⟨(id, p), ?_, rfl, rfl⟩
    rw [List.mem_filter, List.mk_mem_zipIdx_iff_getElem?, decide_eq_true_eq]
    exact ⟨hp, hne⟩

theorem get_renumbered (h : ids.Nodup) (hp : p < ids.length) :
    (zOf.putAll (renumber ids zOf)).get (ids.getD p []) = some ((p : ℚ) + 1) := by
  have hid : ids[p]? = some (ids.getD p []) := by rw [List.getD_eq_getElem _ _ hp, List.getElem?_eq_getElem hp]
  rw [KeyedMap.get_putAll]
  by_cases hsame : zOf.get (ids.getD p []) = some ((p : ℚ) + 1)
  · cases hnew : (renumber ids zOf).get (ids.getD p []) with
    | none => rw [Option.none_or, hsame]
    | some z =>
      obtain ⟨q, hq, rfl, hne⟩ := (get_renumber h).1 hnew
      have hlt := (List.getElem?_eq_some_iff.1 hq).1
      obtain rfl : q = p := (List.getElem?_inj hlt h).1 (hq.trans hid.symm)
      exact absurd hsame hne
  · rw [(get_renumber h).2 ⟨p, hid, rfl, hsame⟩]
    rfl

theorem fill_none_iff : fill zs (kept zs) 0 0 zs.length = none ↔ ∃ p q, CrowdedAt zs (kept zs) p q := by
  rw [fill_eq_none ⟨le_rfl, fun p _ hp => absurd hp (by omega), fun h => absurd h (by omega)⟩]
  constructor
  · rintro ⟨p, q, -, -, h⟩
    exact ⟨p, q, h⟩
  · rintro ⟨p, q, h⟩
    have := (mem_kept h.right).1
    exact ⟨p, q, by omega, by omega, h⟩

theorem fill_kept (hout : fill zs (kept zs) 0 0 zs.length = some out) :
    Filled zs (kept zs) 0 zs.length out := by
  have h := fill_filled (kept_kept zs) ⟨le_rfl, fun p _ hp => absurd hp (by omega), fun h => absurd h (by omega)⟩ hout
  rwa [Nat.zero_add] at h

/-- The elements of an order, of which a longest run in order has kept its ranks. -/
structure Ordered (ids : List Text) (zOf out : KeyedMap Text ℚ) : Prop where
  sorted : Ranked (zOf.putAll out) ids
  changed : ∀ id z, out.get id = some z → id ∈ ids ∧ zOf.get id ≠ some z
  stay : Ranked zOf (ids.filter fun id => out.get id = none)
  longest : ∀ c : List Text, c.Sublist ids → Ranked zOf c → c.length ≤ (ids.filter fun id => out.get id = none).length

theorem fill_ordered (h : ids.Nodup)
    (hout : fill (ids.map zOf.get) (kept (ids.map zOf.get)) 0 0 ids.length = some out) :
    Ordered ids zOf (.ofList (fun e : ℕ × ℚ => ids.getD e.1 []) Prod.snd out) := by
  obtain ⟨zs, hzs⟩ : ∃ zs, zs = ids.map zOf.get := ⟨_, rfl⟩
  obtain ⟨m, hm⟩ : ∃ m, m = KeyedMap.ofList (fun e : ℕ × ℚ => ids.getD e.1 []) Prod.snd out := ⟨_, rfl⟩
  have hlen : zs.length = ids.length := by rw [hzs, List.length_map]
  rw [← hzs, ← hlen] at hout
  have hfilled := fill_kept hout
  have hplaces (p : ℕ) : p ∈ out.map Prod.fst ↔ p < ids.length ∧ p ∉ kept zs := by
    rw [hfilled.places, List.mem_filter, List.mem_range'_1, decide_eq_true_eq, ← hlen]
    exact and_congr_left fun _ => by omega
  have hnodup : (out.map Prod.fst).Nodup := by
    rw [hfilled.places]
    exact List.Nodup.filter _ List.nodup_range'
  have hget (p : ℕ) (hp : p < ids.length) : m.get (ids.getD p []) = out.lookup p := by
    rw [hm]
    exact get_ofPlaces h hnodup (fun q hq => ((hplaces q).1 hq).1) hp
  have hrank (p : ℕ) (hp : p < ids.length) : zOf.get (ids.getD p []) = rankAt zs p := by
    rw [hzs, rankAt_map hp]
  have hlookup (p : ℕ) (hp : p < ids.length) : out.lookup p = none ↔ p ∈ kept zs := by
    constructor
    · intro hnone
      by_contra hnot
      obtain ⟨⟨q, z⟩, hmem, rfl⟩ := List.mem_map.1 ((hplaces p).2 ⟨hp, hnot⟩)
      rw [(Entries.mem_iff_lookup hnodup).1 hmem] at hnone
      cases hnone
    · intro hk
      exact lookup_of_notMem fun hmem => ((hplaces p).1 hmem).2 hk
  have hstay : (ids.filter fun id => m.get id = none) = (kept zs).reverse.map fun p => ids.getD p [] := by
    conv_lhs => rw [← ids_eq_map ids]
    rw [List.filter_map, ← filter_kept, hlen]
    refine congrArg _ (List.filter_congr fun p hp => ?_)
    have hp := List.mem_range.1 hp
    simp only [Function.comp_apply, hget p hp, hlookup p hp]
  rw [← hm]
  refine ⟨?_, fun id z hz => ?_, ?_, fun c hc hranked => ?_⟩
  · rw [← ids_eq_map ids, ranked_map (rankAfter zs out)]
    · refine List.pairwise_iff_getElem.2 fun p q hp hq hpq => ?_
      rw [List.getElem_range, List.getElem_range]
      exact hfilled.sorted p q (by omega) hpq (by simpa [hlen] using hq)
    · intro p hp
      have hp := List.mem_range.1 hp
      rw [KeyedMap.get_putAll, hget p hp, hrank p hp, rankAfter]
      cases hl : out.lookup p with
      | some z => rfl
      | none =>
        obtain ⟨z, hz⟩ := (kept_kept zs).rank p ((hlookup p hp).1 hl)
        rw [hz]
        rfl
  · have hz' := hz
    rw [hm] at hz'
    obtain ⟨⟨p, z'⟩, hmem, rfl, rfl⟩ := KeyedMap.of_get_ofList hz'
    obtain ⟨hp, hnot⟩ := (hplaces p).1 (List.mem_map_of_mem hmem)
    refine ⟨?_, fun hsame => hnot (mem_kept_of_rankAfter hfilled (by omega) ?_)⟩
    · rw [List.getD_eq_getElem _ _ hp]
      exact List.getElem_mem hp
    · rw [← hrank p hp, hsame, rankAfter, (Entries.mem_iff_lookup hnodup).1 hmem]
      rfl
  · rw [hstay, ranked_map fun p => (rankAt zs p).getD 0]
    · exact (kept_spec zs).2.1
    · intro p hp
      obtain ⟨z, hz⟩ := (kept_kept zs).rank p (List.mem_reverse.1 hp)
      rw [hrank p (hlen ▸ (mem_kept (List.mem_reverse.1 hp)).1), hz]
      rfl
  · rw [← ids_eq_map ids, List.sublist_map_iff] at hc
    obtain ⟨places, hsub, rfl⟩ := hc
    have hlt (p : ℕ) (hp : p ∈ places) : p < ids.length := List.mem_range.1 (hsub.subset hp)
    have hsome (p : ℕ) (hp : p ∈ places) : (rankAt zs p).isSome := by
      obtain ⟨ranks, hranks, -⟩ := hranked
      rw [List.map_map] at hranks
      have hmem : zOf.get (ids.getD p []) ∈ ranks.map some := by
        rw [← hranks]
        exact List.mem_map_of_mem (f := zOf.get ∘ fun p => ids.getD p []) hp
      obtain ⟨z, -, hz⟩ := List.mem_map.1 hmem
      rw [← hrank p (hlt p hp), ← hz]
      rfl
    rw [ranked_map fun p => (rankAt zs p).getD 0] at hranked
    · rw [hstay, List.length_map, List.length_map, List.length_reverse]
      refine (kept_spec zs).2.2 places ?_ hranked
      have hfilter := hsub.filter fun p => (rankAt zs p).isSome
      rwa [List.filter_eq_self.2 hsome, ← hlen] at hfilter
    · intro p hp
      obtain ⟨z, hz⟩ := Option.isSome_iff_exists.1 (hsome p hp)
      rw [hrank p (hlt p hp), hz]
      rfl

end Elements

/-- The ranks written put the elements in the order given and none of them is the old one. A longest run in order
keeps its ranks, unless two of its neighbours leave no room: then the elements are numbered from one on. -/
theorem assignOrder_spec (ids : List Text) (zOf : KeyedMap Text ℚ) (h : ids.Nodup) :
    let zs := ids.map zOf.get
    let out := assignOrder ids zOf
    Ranked (zOf.putAll out) ids ∧ (∀ id z, out.get id = some z → id ∈ ids ∧ zOf.get id ≠ some z) ∧
      ((¬ ∃ p q, CrowdedAt zs (kept zs) p q) → Ranked zOf (ids.filter fun id => out.get id = none) ∧
        ∀ c : List Text, c.Sublist ids → Ranked zOf c → c.length ≤ (ids.filter fun id => out.get id = none).length) ∧
      ((∃ p q, CrowdedAt zs (kept zs) p q) →
        ∀ (p : ℕ) (id : Text), ids[p]? = some id → (zOf.putAll out).get id = some ((p : ℚ) + 1)) := by
  intro zs out
  have hlen : zs.length = ids.length := List.length_map _
  cases hfill : fill zs (kept zs) 0 0 ids.length with
  | some places =>
    have hroom : ¬ ∃ p q, CrowdedAt zs (kept zs) p q := by
      rw [← fill_none_iff, hlen, hfill]
      simp
    have hout : out = .ofList (fun e : ℕ × ℚ => ids.getD e.1 []) Prod.snd places := by
      simp only [out, assignOrder, zs, hfill]
    have hordered := fill_ordered h hfill
    rw [← hout] at hordered
    exact ⟨hordered.sorted, hordered.changed, fun _ => ⟨hordered.stay, hordered.longest⟩, fun hcrowded =>
      absurd hcrowded hroom⟩
  | none =>
    have hcrowded : ∃ p q, CrowdedAt zs (kept zs) p q := by
      rw [← fill_none_iff, hlen, hfill]
    have hout : out = renumber ids zOf := by
      simp only [out, assignOrder, zs, hfill]
    rw [hout]
    refine ⟨?_, fun id z hz => ?_, fun hroom => absurd hcrowded hroom, fun _ p id hp => ?_⟩
    · rw [← ids_eq_map ids, ranked_map fun p => (p : ℚ) + 1]
      · refine List.pairwise_iff_getElem.2 fun p q hp hq hpq => ?_
        rw [List.getElem_range, List.getElem_range]
        have : (p : ℚ) < q := by exact_mod_cast hpq
        linarith
      · intro p hp
        rw [ids_eq_map]
        exact get_renumbered h (List.mem_range.1 hp)
    · obtain ⟨p, hp, -, hne⟩ := (get_renumber h).1 hz
      exact ⟨List.mem_of_getElem? hp, hne⟩
    · obtain ⟨hlt, rfl⟩ := List.getElem?_eq_some_iff.1 hp
      have : (zOf.putAll (renumber ids zOf)).get (ids.getD p []) = some ((p : ℚ) + 1) := get_renumbered h hlt
      rwa [List.getD_eq_getElem _ _ hlt] at this

theorem assignOrder_spec_three :
    let ids := ["a".toList, "b".toList, "c".toList]
    let zOf := KeyedMap.ofList Prod.fst Prod.snd [("a".toList, (5 : ℚ)), ("c".toList, 1 / 2)]
    ids.Nodup ∧ Ranked (zOf.putAll (assignOrder ids zOf)) ids :=
  ⟨by decide +kernel, (assignOrder_spec _ _ (by decide +kernel)).1⟩

/-- An element between two whose ranks differ by a thousand millionth: all three are numbered anew, though two
were in order. -/
theorem no_room_renumbers :
    let ids := ["a".toList, "b".toList, "c".toList]
    let zOf := KeyedMap.ofList Prod.fst Prod.snd [("a".toList, (0 : ℚ)), ("c".toList, 1 / 10 ^ 9)]
    (ids.filter fun id => (assignOrder ids zOf).get id = none) = [] ∧
      ¬ ∀ c : List Text, c.Sublist ids → Ranked zOf c →
        c.length ≤ (ids.filter fun id => (assignOrder ids zOf).get id = none).length := by
  intro ids zOf
  have hnone : (ids.filter fun id => (assignOrder ids zOf).get id = none) = [] := by decide +kernel
  refine ⟨hnone, fun h => ?_⟩
  have hranked : Ranked zOf ["a".toList, "c".toList] := ⟨[0, 1 / 10 ^ 9], by decide +kernel, by simp⟩
  have hlen := h ["a".toList, "c".toList] (by simp [ids]) hranked
  rw [hnone] at hlen
  simp at hlen

end Savoire.Scene
