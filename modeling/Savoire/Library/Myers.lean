import Mathlib.Data.List.Basic
import Mathlib.Tactic.TypeStar

/-! The greedy search for a short edit script between two lists: how far each diagonal is reached
with a number of edits, and the script read back from the stages of the search. -/
namespace Myers
variable {α : Type*} [DecidableEq α]

inductive Op
  | same | delete | insert
  deriving DecidableEq

/-- The operations lead from the first list to the second. -/
inductive Aligned : List α → List α → List Op → Prop
  | nil : Aligned [] [] []
  | same (c : α) {a b : List α} {ops : List Op} : Aligned a b ops → Aligned (c :: a) (c :: b) (.same :: ops)
  | delete (c : α) {a b : List α} {ops : List Op} : Aligned a b ops → Aligned (c :: a) b (.delete :: ops)
  | insert (c : α) {a b : List α} {ops : List Op} : Aligned a b ops → Aligned a (c :: b) (.insert :: ops)

/-- How many elements two lists begin with in common. -/
def common : List α → List α → Nat
  | c :: a, d :: b => if c = d then common a b + 1 else 0
  | _, _ => 0

/-- The place reached on each diagonal, where diagonal `k` holds the places `x` of the first list and
`x - k` of the second. -/
abbrev Reach := Int → Int

variable (a b : List α)

/-- Equal elements from place `x` of diagonal `k` on are passed. -/
def slide (x k : Int) : Int := x + common (a.drop x.toNat) (b.drop (x - k).toNat)

/-- Whether the edit that leads to diagonal `k` comes from diagonal `k + 1`. -/
def down (v : Reach) (d k : Int) : Bool := k == -d || (k != d && decide (v (k - 1) < v (k + 1)))

def extend (v : Reach) (d k : Int) : Int :=
  slide a b (if down v d k then v (k + 1) else v (k - 1) + 1) k

def finished (x k : Int) : Bool := decide ((a.length : Int) ≤ x) && decide ((b.length : Int) ≤ x - k)

/-- One more edit on each diagonal, until the end is reached. -/
def stage (d : Int) : List Int → Reach → Reach × Bool
  | [], v => (v, false)
  | k :: ks, v =>
    let x := extend a b v d k
    let v' : Reach := Function.update v k x
    if finished a b x k then (v', true) else stage d ks v'

def diagonals (d : Nat) : List Int := (List.range (d + 1)).map fun i : Nat => 2 * (i : Int) - d

/-- The arrays at the start of each stage, the last stage first, if `left` more stages suffice. -/
def search : (left d : Nat) → Reach → List Reach → Option (List Reach)
  | 0, _, _, _ => none
  | left + 1, d, v, trace =>
    match stage a b d (diagonals d) v with
    | (_, true) => some (v :: trace)
    | (v', false) => search left (d + 1) v' (v :: trace)

/-- The script, read from its end: back over what was passed, then over the edit of each stage. -/
def back : List Reach → (x y : Int) → List Op → List Op
  | [], _, _, ops => ops
  | [_], x, y, ops => List.replicate (min x y).toNat .same ++ ops
  | v :: w :: trace, x, y, ops =>
    let k := x - y
    let d : Int := (w :: trace).length
    let prevK := if down v d k then k + 1 else k - 1
    let prevX := v prevK
    let prevY := prevX - prevK
    let passed := (min (x - prevX) (y - prevY)).toNat
    let ops := List.replicate passed .same ++ ops
    if x - passed = prevX then back (w :: trace) (x - passed) (y - passed - 1) (.insert :: ops)
    else back (w :: trace) (x - passed - 1) (y - passed) (.delete :: ops)

/-- A script of at most `max` edits. -/
def script (max : Nat) : Option (List Op) :=
  (search a b (max + 1) 0 (fun _ => 0) []).map fun trace => back trace a.length b.length []

variable {a b : List α}

theorem common_le : ∀ a b : List α, common a b ≤ a.length ∧ common a b ≤ b.length
  | [], _ => by simp [common]
  | _ :: _, [] => by simp [common]
  | c :: a, d :: b => by
    have h := common_le a b
    simp only [common, List.length_cons]
    split <;> omega

theorem take_common : ∀ a b : List α, a.take (common a b) = b.take (common a b)
  | [], _ => by simp [common]
  | _ :: _, [] => by simp [common]
  | c :: a, d :: b => by
    have h := take_common a b
    simp only [common]
    split
    · rename_i heq
      rw [heq, List.take_succ_cons, List.take_succ_cons, h]
    · rfl

theorem take_of_le_common {n : Nat} (h : n ≤ common a b) : a.take n = b.take n := by
  calc a.take n = (a.take (common a b)).take n := by rw [List.take_take, Nat.min_eq_left h]
    _ = (b.take (common a b)).take n := by rw [take_common]
    _ = b.take n := by rw [List.take_take, Nat.min_eq_left h]

theorem drop_of_le_common {n : Nat} (h : n ≤ common a.reverse b.reverse) :
    a.drop (a.length - n) = b.drop (b.length - n) := by
  have htake := congrArg List.reverse (take_of_le_common h)
  rwa [List.reverse_take, List.reverse_take, List.reverse_reverse, List.reverse_reverse, List.length_reverse,
    List.length_reverse] at htake

theorem Aligned.keep (ops : List Op) : ∀ a b : List α, Aligned (a.drop (common a b)) (b.drop (common a b)) ops →
    Aligned a b (List.replicate (common a b) .same ++ ops)
  | [], _, h => by simpa [common] using h
  | _ :: _, [], h => by simpa [common] using h
  | c :: a, d :: b, h => by
    have ih := Aligned.keep ops a b
    simp only [common] at h ⊢
    split
    · rename_i heq
      rw [if_pos heq] at h
      rw [← heq]
      exact .same c (ih h)
    · rename_i hne
      rw [if_neg hne] at h
      exact h

theorem le_slide (x k : Int) : x ≤ slide a b x k := by
  unfold slide
  omega

variable {x k : Int}

theorem slide_le (hx : 0 ≤ x) (hy : 0 ≤ x - k) (h : slide a b x k ≠ x) :
    slide a b x k ≤ a.length ∧ slide a b x k - k ≤ b.length := by
  have hc := common_le (a.drop x.toNat) (b.drop (x - k).toNat)
  rw [List.length_drop, List.length_drop] at hc
  unfold slide at h ⊢
  omega

theorem Aligned.slide (ops : List Op) (hx : 0 ≤ x) (hy : 0 ≤ x - k)
    (h : Aligned (a.drop (Myers.slide a b x k).toNat) (b.drop (Myers.slide a b x k - k).toNat) ops) :
    Aligned (a.drop x.toNat) (b.drop (x - k).toNat)
      (List.replicate (Myers.slide a b x k - x).toNat .same ++ ops) := by
  have hpassed : (Myers.slide a b x k - x).toNat = common (a.drop x.toNat) (b.drop (x - k).toNat) := by
    unfold Myers.slide
    omega
  have hcol : (Myers.slide a b x k).toNat = x.toNat + common (a.drop x.toNat) (b.drop (x - k).toNat) := by
    unfold Myers.slide
    omega
  have hrow : (Myers.slide a b x k - k).toNat =
      (x - k).toNat + common (a.drop x.toNat) (b.drop (x - k).toNat) := by
    unfold Myers.slide
    omega
  rw [hpassed]
  refine Aligned.keep ops _ _ ?_
  rw [List.drop_drop, List.drop_drop, ← hcol, ← hrow]
  exact h

variable (a b) in
/-- The furthest place on each diagonal with `d` edits, without the arrays. -/
def reach : Nat → Reach
  | 0 => fun k => slide a b 0 k
  | d + 1 => fun k => extend a b (reach d) (d + 1 : Nat) k

theorem reach_zero (k : Int) : reach a b 0 k = slide a b 0 k := rfl

theorem reach_succ (d : Nat) (k : Int) : reach a b (d + 1) k = extend a b (reach a b d) (d + 1 : Nat) k := rfl

/-- The diagonals of stage `d`. -/
def Diag (d : Nat) (k : Int) : Prop := -(d : Int) ≤ k ∧ k ≤ d ∧ (k + d) % 2 = 0

variable {d : Nat}

theorem mem_diagonals (h : k ∈ diagonals d) : Diag d k := by
  obtain ⟨i, hi, rfl⟩ := List.mem_map.mp h
  rw [List.mem_range] at hi
  unfold Diag
  omega

theorem reach_cases (hk : Diag (d + 1) k) :
    (down (reach a b d) (d + 1 : Nat) k = true ∧ Diag d (k + 1) ∧
      reach a b (d + 1) k = slide a b (reach a b d (k + 1)) k) ∨
    (down (reach a b d) (d + 1 : Nat) k = false ∧ Diag d (k - 1) ∧
      reach a b (d + 1) k = slide a b (reach a b d (k - 1) + 1) k) := by
  unfold Diag at hk ⊢
  cases hdown : down (reach a b d) (d + 1 : Nat) k with
  | true =>
    refine .inl ⟨rfl, ?_, by rw [reach_succ, extend, if_pos hdown]⟩
    have hne : k ≠ (d + 1 : Nat) := by
      simp [down] at hdown
      omega
    omega
  | false =>
    refine .inr ⟨rfl, ?_, by rw [reach_succ, extend, hdown]; rfl⟩
    have hne : k ≠ -((d + 1 : Nat) : Int) := by
      rintro rfl
      simp [down] at hdown
    omega

theorem Diag.zero (h : Diag 0 k) : k = 0 := by
  unfold Diag at h
  omega

theorem reach_nonneg : ∀ {d : Nat} {k : Int}, Diag d k → 0 ≤ reach a b d k ∧ k ≤ reach a b d k
  | 0, k, hk => by
    have h := le_slide (a := a) (b := b) 0 k
    rw [hk.zero] at h ⊢
    exact ⟨h, h⟩
  | d + 1, k, hk => by
    obtain ⟨-, hd, heq⟩ | ⟨-, hd, heq⟩ := reach_cases (a := a) (b := b) hk
    · have ih := reach_nonneg hd
      have h := le_slide (a := a) (b := b) (reach a b d (k + 1)) k
      omega
    · have ih := reach_nonneg hd
      have h := le_slide (a := a) (b := b) (reach a b d (k - 1) + 1) k
      omega

theorem reach_le (hk : Diag d k) :
    reach a b d k ≤ reach a b (d + 1) (k - 1) ∧ reach a b d k + 1 ≤ reach a b (d + 1) (k + 1) := by
  have hminus : Diag (d + 1) (k - 1) := by
    unfold Diag at hk ⊢
    omega
  have hplus : Diag (d + 1) (k + 1) := by
    unfold Diag at hk ⊢
    omega
  have hk' : k - 1 + 1 = k := by omega
  have hk'' : k + 1 - 1 = k := by omega
  constructor
  · obtain ⟨-, -, heq⟩ | ⟨hdown, hd, heq⟩ := reach_cases (a := a) (b := b) hminus
    · have h := le_slide (a := a) (b := b) (reach a b d (k - 1 + 1)) (k - 1)
      rw [hk'] at h heq
      omega
    · have h := le_slide (a := a) (b := b) (reach a b d (k - 1 - 1) + 1) (k - 1)
      unfold Diag at hk
      simp [down, hk'] at hdown
      omega
  · obtain ⟨hdown, hd, heq⟩ | ⟨-, -, heq⟩ := reach_cases (a := a) (b := b) hplus
    · have h := le_slide (a := a) (b := b) (reach a b d (k + 1 + 1)) (k + 1)
      unfold Diag at hk
      simp [down, hk''] at hdown
      omega
    · have h := le_slide (a := a) (b := b) (reach a b d (k + 1 - 1) + 1) (k + 1)
      rw [hk''] at h heq
      omega

theorem reach_zero_le (hk : Diag 0 k) : reach a b 0 k ≤ a.length ∧ reach a b 0 k - k ≤ b.length := by
  have hk := hk.zero
  have hle := slide_le (a := a) (b := b) (x := 0) (k := k) (Int.le_refl 0) (by omega)
  rw [reach_zero]
  by_cases hz : slide a b 0 k = 0 <;> omega

theorem reach_beyond : ∀ {d : Nat} {k : Int}, Diag d k → (a.length : Int) < reach a b d k →
    ∃ d', d = d' + 1 ∧ Diag d' (k - 1) ∧ reach a b d k ≤ reach a b d' (k - 1) + 1
  | 0, k, hk, h => by
    have hle := reach_zero_le (a := a) (b := b) hk
    omega
  | d + 1, k, hk, h => by
    refine ⟨d, rfl, ?_⟩
    obtain ⟨-, hd, heq⟩ | ⟨-, hd, heq⟩ := reach_cases (a := a) (b := b) hk
    · have hpos := reach_nonneg (a := a) (b := b) hd
      have hle := slide_le (a := a) (b := b) (x := reach a b d (k + 1)) (k := k) (by omega) (by omega)
      obtain ⟨d', rfl, hd', hr⟩ := reach_beyond hd (by omega)
      rw [Int.add_sub_cancel] at hd' hr
      have hmore := (reach_le (a := a) (b := b) hd').1
      unfold Diag at hd' ⊢
      omega
    · have hpos := reach_nonneg (a := a) (b := b) hd
      have hle := slide_le (a := a) (b := b) (x := reach a b d (k - 1) + 1) (k := k) (by omega) (by omega)
      refine ⟨hd, ?_⟩
      by_cases hz : slide a b (reach a b d (k - 1) + 1) k = reach a b d (k - 1) + 1 <;> omega

theorem reach_below : ∀ {d : Nat} {k : Int}, Diag d k → (b.length : Int) < reach a b d k - k →
    ∃ d', d = d' + 1 ∧ Diag d' (k + 1) ∧ reach a b d k ≤ reach a b d' (k + 1)
  | 0, k, hk, h => by
    have hle := reach_zero_le (a := a) (b := b) hk
    omega
  | d + 1, k, hk, h => by
    refine ⟨d, rfl, ?_⟩
    obtain ⟨-, hd, heq⟩ | ⟨-, hd, heq⟩ := reach_cases (a := a) (b := b) hk
    · have hpos := reach_nonneg (a := a) (b := b) hd
      have hle := slide_le (a := a) (b := b) (x := reach a b d (k + 1)) (k := k) (by omega) (by omega)
      refine ⟨hd, ?_⟩
      by_cases hz : slide a b (reach a b d (k + 1)) k = reach a b d (k + 1) <;> omega
    · have hpos := reach_nonneg (a := a) (b := b) hd
      have hle := slide_le (a := a) (b := b) (x := reach a b d (k - 1) + 1) (k := k) (by omega) (by omega)
      obtain ⟨d', rfl, hd', hr⟩ := reach_below hd (by omega)
      rw [Int.sub_add_cancel] at hd' hr
      have hmore := (reach_le (a := a) (b := b) hd').2
      unfold Diag at hd' ⊢
      omega

omit [DecidableEq α] in
theorem finished_iff (x k : Int) :
    finished a b x k = true ↔ (a.length : Int) ≤ x ∧ (b.length : Int) ≤ x - k := by
  simp [finished]

theorem reach_end (hk : Diag d k) (hend : finished a b (reach a b d k) k = true)
    (hfirst : ∀ d' < d, ∀ k', Diag d' k' → finished a b (reach a b d' k') k' = false) :
    reach a b d k = a.length ∧ reach a b d k - k = b.length := by
  rw [finished_iff] at hend
  have hcol : ¬ (a.length : Int) < reach a b d k := by
    intro h
    obtain ⟨d', rfl, hd', hr⟩ := reach_beyond hk h
    have hno := hfirst d' (by omega) _ hd'
    rw [Bool.eq_false_iff, Ne, finished_iff] at hno
    omega
  have hrow : ¬ (b.length : Int) < reach a b d k - k := by
    intro h
    obtain ⟨d', rfl, hd', hr⟩ := reach_below hk h
    have hno := hfirst d' (by omega) _ hd'
    rw [Bool.eq_false_iff, Ne, finished_iff] at hno
    omega
  omega

/-- The array holds what stage `d` has reached. -/
def Holds (a b : List α) (d : Nat) (v : Reach) : Prop := ∀ k, Diag d k → v k = reach a b d k

variable {v : Reach}

theorem Holds.down (h : Holds a b d v) (hk : Diag (d + 1) k) :
    down v (d + 1 : Nat) k = down (reach a b d) (d + 1 : Nat) k := by
  by_cases hlow : k = -((d + 1 : Nat) : Int)
  · simp [Myers.down, hlow]
  by_cases hhigh : k = (d + 1 : Nat)
  · simp [Myers.down, hhigh]
  have hbelow : v (k - 1) = reach a b d (k - 1) := h _ (by unfold Diag at hk ⊢; omega)
  have habove : v (k + 1) = reach a b d (k + 1) := h _ (by unfold Diag at hk ⊢; omega)
  simp only [Myers.down, hbelow, habove]

theorem Holds.extend (h : Holds a b d v) (hk : Diag (d + 1) k) :
    extend a b v (d + 1 : Nat) k = reach a b (d + 1) k := by
  have hdown := h.down hk
  obtain ⟨hr, hd, heq⟩ | ⟨hr, hd, heq⟩ := reach_cases (a := a) (b := b) hk
  · rw [heq, Myers.extend, hdown, hr, if_pos rfl, h _ hd]
  · rw [heq, Myers.extend, hdown, hr, h _ hd]
    rfl

theorem stage_spec {w : Reach} (hw : ∀ v : Reach, (∀ k, ¬ Diag d k → v k = w k) →
      ∀ k, Diag d k → extend a b v d k = reach a b d k) :
    ∀ (ks : List Int) (v : Reach), (∀ k ∈ ks, Diag d k) → (∀ k, ¬ Diag d k → v k = w k) →
      (∀ k, ¬ Diag d k → (stage a b d ks v).1 k = w k) ∧
      (∀ k, Diag d k → (stage a b d ks v).1 k = v k ∨ (stage a b d ks v).1 k = reach a b d k) ∧
      ((stage a b d ks v).2 = false → (∀ k ∈ ks, (stage a b d ks v).1 k = reach a b d k) ∧
        ∀ k ∈ ks, finished a b (reach a b d k) k = false) ∧
      ((stage a b d ks v).2 = true → ∃ k ∈ ks, finished a b (reach a b d k) k = true)
  | [], v, _, hv => ⟨hv, fun _ _ => .inl rfl, fun _ => ⟨fun _ h => (nomatch h), fun _ h => (nomatch h)⟩,
      fun h => by cases h⟩
  | k :: ks, v, hks, hv => by
    have hk := hks k List.mem_cons_self
    have hx : extend a b v d k = reach a b d k := hw v hv k hk
    have hv' : ∀ k', ¬ Diag d k' → Function.update v k (reach a b d k) k' = w k' := by
      intro k' hk'
      rw [Function.update_of_ne (by rintro rfl; exact hk' hk)]
      exact hv k' hk'
    simp only [stage, hx]
    split
    · rename_i hend
      refine ⟨hv', fun k' _ => ?_, (fun h => by cases h), fun _ => ⟨k, List.mem_cons_self, hend⟩⟩
      by_cases heq : k' = k
      · subst heq
        exact .inr (Function.update_self ..)
      · exact .inl (Function.update_of_ne heq ..)
    · rename_i hend
      obtain ⟨h1, h2, h3, h4⟩ := stage_spec hw ks _ (fun k' hk' => hks k' (List.mem_cons_of_mem k hk')) hv'
      have hself : ∀ k', Diag d k' → k' = k →
          (stage a b d ks (Function.update v k (reach a b d k))).1 k' = reach a b d k' := by
        rintro k' hk' rfl
        obtain h | h := h2 k' hk'
        · rw [h, Function.update_self]
        · exact h
      refine ⟨h1, fun k' hk' => ?_, fun h => ⟨fun k' hk' => ?_, fun k' hk' => ?_⟩, fun h => ?_⟩
      · by_cases heq : k' = k
        · exact .inr (hself k' hk' heq)
        · obtain h | h := h2 k' hk'
          · rw [Function.update_of_ne heq] at h
            exact .inl h
          · exact .inr h
      · obtain rfl | hk' := List.mem_cons.mp hk'
        · exact hself k' hk rfl
        · exact (h3 h).1 k' hk'
      · obtain rfl | hk' := List.mem_cons.mp hk'
        · simpa using hend
        · exact (h3 h).2 k' hk'
      · obtain ⟨k', hk', hend'⟩ := h4 h
        exact ⟨k', List.mem_cons_of_mem k hk', hend'⟩

/-- The arrays at the start of the stages up to `d`. -/
inductive Traces (a b : List α) : Nat → List Reach → Prop
  | zero (v : Reach) : Traces a b 0 [v]
  | succ {d : Nat} {v : Reach} {trace : List Reach} :
      Holds a b d v → Traces a b d trace → Traces a b (d + 1) (v :: trace)

theorem mem_diagonals_iff : k ∈ diagonals d ↔ Diag d k := by
  refine ⟨mem_diagonals, fun h => List.mem_map.mpr ⟨((k + d) / 2).toNat, ?_, ?_⟩⟩
  · unfold Diag at h
    rw [List.mem_range]
    omega
  · unfold Diag at h
    omega

theorem stage_diagonals (hv : ∀ w : Reach, (∀ k, ¬ Diag d k → w k = v k) →
      ∀ k, Diag d k → extend a b w d k = reach a b d k) :
    ((stage a b d (diagonals d) v).2 = false → Holds a b d (stage a b d (diagonals d) v).1 ∧
      ∀ k, Diag d k → finished a b (reach a b d k) k = false) ∧
    ((stage a b d (diagonals d) v).2 = true → ∃ k, Diag d k ∧ finished a b (reach a b d k) k = true) := by
  obtain ⟨-, -, hno, hyes⟩ := stage_spec hv (diagonals d) v (fun k hk => mem_diagonals hk) fun _ _ => rfl
  refine ⟨fun h => ⟨fun k hk => (hno h).1 k (mem_diagonals_iff.mpr hk),
    fun k hk => (hno h).2 k (mem_diagonals_iff.mpr hk)⟩, fun h => ?_⟩
  obtain ⟨k, hk, hend⟩ := hyes h
  exact ⟨k, mem_diagonals hk, hend⟩

theorem extend_first (v : Reach) (hv : v 1 = 0) (hk : Diag 0 k) : extend a b v 0 k = reach a b 0 k := by
  rw [hk.zero, reach_zero]
  simp [extend, down, hv]

theorem search_spec : ∀ (left d : Nat) (v : Reach) (trace found : List Reach),
    (∀ w : Reach, (∀ k, ¬ Diag d k → w k = v k) → ∀ k, Diag d k → extend a b w d k = reach a b d k) →
    Traces a b d (v :: trace) →
    (∀ d' < d, ∀ k, Diag d' k → finished a b (reach a b d' k) k = false) →
    search a b left d v trace = some found →
    ∃ d k, Traces a b d found ∧ Diag d k ∧ reach a b d k = a.length ∧ reach a b d k - k = b.length
  | 0, _, _, _, _, _, _, _, h => by cases h
  | left + 1, d, v, trace, found, hv, htrace, hfirst, h => by
    obtain ⟨hno, hyes⟩ := stage_diagonals hv
    unfold search at h
    split at h
    · rename_i v' hstage
      obtain rfl := Option.some.inj h
      obtain ⟨k, hk, hend⟩ := hyes (by rw [hstage])
      exact ⟨d, k, htrace, hk, reach_end hk hend hfirst⟩
    · rename_i v' hstage
      obtain ⟨hholds, hopen⟩ := hno (by rw [hstage])
      rw [hstage] at hholds
      refine search_spec left (d + 1) v' (v :: trace) found (fun w hw k hk => ?_) (.succ hholds htrace)
        (fun d' hd' k hk => ?_) h
      · refine Holds.extend (fun k' hk' => ?_) hk
        rw [hw k' (by unfold Diag at hk' ⊢; omega)]
        exact hholds k' hk'
      · obtain hlt | rfl := Nat.lt_succ_iff_lt_or_eq.mp hd'
        · exact hfirst d' hlt k hk
        · exact hopen k hk

theorem Traces.length {trace : List Reach} (h : Traces a b d trace) : trace.length = d + 1 := by
  induction h with
  | zero => rfl
  | succ _ _ ih => rw [List.length_cons, ih]

variable {ops : List Op}

omit [DecidableEq α] in
theorem Aligned.deleteAt {b' : List α} (hx : 0 ≤ x) (hxa : x < a.length)
    (h : Aligned (a.drop (x + 1).toNat) b' ops) : Aligned (a.drop x.toNat) b' (.delete :: ops) := by
  have hlt : x.toNat < a.length := by omega
  have hnext : (x + 1).toNat = x.toNat + 1 := by omega
  rw [List.drop_eq_getElem_cons hlt, ← hnext]
  exact .delete _ h

omit [DecidableEq α] in
theorem Aligned.insertAt {y : Int} {a' : List α} (hy : 0 ≤ y) (hyb : y < b.length)
    (h : Aligned a' (b.drop (y + 1).toNat) ops) : Aligned a' (b.drop y.toNat) (.insert :: ops) := by
  have hlt : y.toNat < b.length := by omega
  have hnext : (y + 1).toNat = y.toNat + 1 := by omega
  rw [List.drop_eq_getElem_cons hlt, ← hnext]
  exact .insert _ h

theorem Aligned.back {trace : List Reach} (htrace : Traces a b d trace) :
    ∀ {x y : Int} {ops : List Op}, Diag d (x - y) → x = reach a b d (x - y) → x ≤ a.length → y ≤ b.length →
      Aligned (a.drop x.toNat) (b.drop y.toNat) ops → Aligned a b (Myers.back trace x y ops) := by
  induction htrace with
  | zero v =>
    intro x y ops hk hx hxa hyb h
    have hxy : x = y := by
      have := hk.zero
      omega
    subst hxy
    rw [Int.sub_self, reach_zero] at hx
    have hslide := Aligned.slide (a := a) (b := b) ops (Int.le_refl 0) (Int.le_refl 0)
      (by rwa [← hx, Int.sub_zero])
    rw [← hx] at hslide
    simpa [Myers.back] using hslide
  | @succ d v trace hholds htrace ih =>
    intro x y ops hk hx hxa hyb h
    obtain ⟨w, rest, rfl⟩ : ∃ w rest, trace = w :: rest := by
      cases htrace with
      | zero v => exact ⟨v, [], rfl⟩
      | succ _ _ => exact ⟨_, _, rfl⟩
    have hlen : ((w :: rest).length : Int) = (d + 1 : Nat) := by rw [htrace.length]
    have hdown : down v (d + 1 : Nat) (x - y) = down (reach a b d) (d + 1 : Nat) (x - y) := hholds.down hk
    simp only [Myers.back, hlen, hdown]
    obtain ⟨hr, hd, heq⟩ | ⟨hr, hd, heq⟩ := reach_cases (a := a) (b := b) hk
    · rw [hr, if_pos rfl, hholds _ hd]
      have hpos := reach_nonneg (a := a) (b := b) hd
      have hle := le_slide (a := a) (b := b) (reach a b d (x - y + 1)) (x - y)
      generalize hp : reach a b d (x - y + 1) = p at *
      rw [← hx] at heq
      have hpassed : (min (x - p) (y - (p - (x - y + 1)))).toNat = (x - p).toNat := by omega
      have hcol : x - ((x - p).toNat : Int) = p := by omega
      have hrow : y - ((x - p).toNat : Int) - 1 = p - (x - y + 1) := by omega
      have hdiag : p - (p - (x - y + 1)) = x - y + 1 := by omega
      have hslide := Aligned.slide (a := a) (b := b) ops (x := p) (k := x - y) (by omega) (by omega)
        (by rwa [← heq, Int.sub_sub_self])
      rw [← heq] at hslide
      rw [hpassed, hcol, if_pos rfl, hrow]
      refine ih (by rwa [hdiag]) (by rw [hdiag, hp]) (by omega) (by omega) ?_
      refine Aligned.insertAt (by omega) (by omega) ?_
      rwa [show p - (x - y + 1) + 1 = p - (x - y) by omega]
    · rw [hr, if_neg Bool.false_ne_true, hholds _ hd]
      have hpos := reach_nonneg (a := a) (b := b) hd
      have hle := le_slide (a := a) (b := b) (reach a b d (x - y - 1) + 1) (x - y)
      generalize hp : reach a b d (x - y - 1) = p at *
      rw [← hx] at heq
      have hpassed : (min (x - p) (y - (p - (x - y - 1)))).toNat = (x - (p + 1)).toNat := by omega
      have hcol : x - ((x - (p + 1)).toNat : Int) = p + 1 := by omega
      have hrow : y - ((x - (p + 1)).toNat : Int) = p - (x - y - 1) := by omega
      have hdiag : p - (p - (x - y - 1)) = x - y - 1 := by omega
      have hslide := Aligned.slide (a := a) (b := b) ops (x := p + 1) (k := x - y) (by omega) (by omega)
        (by rwa [← heq, Int.sub_sub_self])
      rw [← heq] at hslide
      rw [hpassed, hcol, if_neg (by omega), hrow, Int.add_sub_cancel]
      refine ih (by rwa [hdiag]) (by rw [hdiag, hp]) (by omega) (by omega) ?_
      refine Aligned.deleteAt (by omega) (by omega) ?_
      rwa [show p - (x - y - 1) = p + 1 - (x - y) by omega]

theorem script_aligned {max : Nat} (h : script a b max = some ops) : Aligned a b ops := by
  obtain ⟨trace, hsearch, rfl⟩ := Option.map_eq_some_iff.mp h
  have hfirst : ∀ w : Reach, (∀ k, ¬ Diag 0 k → w k = 0) → ∀ k, Diag 0 k → extend a b w 0 k = reach a b 0 k :=
    fun w hw k hk => extend_first w (hw 1 (by unfold Diag; omega)) hk
  obtain ⟨d, k, htrace, hk, hcol, hrow⟩ := search_spec (max + 1) 0 _ [] trace hfirst (.zero _)
    (fun d' hd' => absurd hd' (Nat.not_lt_zero d')) hsearch
  have hdiag : (a.length : Int) - b.length = k := by omega
  refine Aligned.back htrace (by rwa [hdiag]) (by rw [hdiag, hcol]) (Int.le_refl _) (Int.le_refl _) ?_
  simpa using .nil

end Myers
