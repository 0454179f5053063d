import Mathlib

/-! A longest increasing sublist, by the least end of those of each length. -/
namespace Increasing

/-- By halves, between `lo` and `hi`. -/
def firstFail (test : Nat → Bool) : Nat → Nat → Nat → Nat
  | 0, lo, _ => lo
  | n+1, lo, hi =>
    if lo < hi then
      let mid := (lo + hi) / 2
      if test mid then firstFail test n (mid + 1) hi else firstFail test n lo mid
    else lo

theorem lt_firstFail {test : Nat → Bool} (hmono : ∀ i j, i ≤ j → test j = true → test i = true) :
    ∀ n lo hi : Nat, hi ≤ lo + n → (∀ i < lo, test i = true) → (∀ i, hi ≤ i → test i = false) →
      ∀ i, i < firstFail test n lo hi ↔ test i = true := by
  intro n
  induction n with
  | zero =>
    intro lo hi hn hlo hhi i
    rw [firstFail]
    refine ⟨hlo i, fun hi' => ?_⟩
    by_contra hge
    rw [hhi i (by omega)] at hi'
    exact absurd hi' (by decide)
  | succ n ih =>
    intro lo hi hn hlo hhi i
    rw [firstFail]
    by_cases hlt : lo < hi
    · rw [if_pos hlt]
      dsimp only
      cases hmid : test ((lo + hi) / 2) with
      | true =>
        refine ih _ _ (by omega) (fun j hj => hmono j _ (by omega) hmid) hhi i
      | false =>
        refine ih _ _ (by omega) hlo (fun j hj => ?_) i
        cases htest : test j with
        | false => rfl
        | true => rw [hmono _ j hj htest] at hmid; exact absurd hmid (by decide)
    · rw [if_neg hlt]
      refine ⟨hlo i, fun hi' => ?_⟩
      by_contra hge
      rw [hhi i (by omega)] at hi'
      exact absurd hi' (by decide)

section Follow
variable {ι : Type*} (prev : ι → Option ι)

def follow : Nat → Option ι → List ι
  | 0, _ => []
  | _, none => []
  | n+1, some a => a :: follow n (prev a)

inductive Follows : Option ι → List ι → Prop
  | stop : Follows none []
  | step {a : ι} {l : List ι} : Follows (prev a) l → Follows (some a) (a :: l)

variable {prev} {start : Option ι} {l : List ι}

theorem Follows.follow_eq (h : Follows prev start l) : ∀ n, l.length ≤ n → follow prev n start = l := by
  induction h with
  | stop => intro n _; cases n <;> rfl
  | step _ ih =>
    intro n hn
    cases n with
    | zero => simp at hn
    | succ n => rw [follow, ih n (by simpa using hn)]

theorem Follows.update [DecidableEq ι] {a : ι} {o : Option ι} (h : Follows prev start l) (ha : a ∉ l) :
    Follows (Function.update prev a o) start l := by
  induction h with
  | stop => exact .stop
  | step _ ih =>
    rw [List.mem_cons, not_or] at ha
    refine .step ?_
    rw [Function.update_of_ne (Ne.symm ha.1)]
    exact ih ha.2

end Follow

section Ends
variable {ι α : Type*} [LinearOrder α] (key : ι → α)

/-- The least end of the increasing sublists of each length, and what comes before each entry. -/
structure Ends (ι : Type*) where
  ends : List ι
  prev : ι → Option ι

/-- The place of the first end that is not below entry `i`. -/
def place (s : Ends ι) (i : ι) : Nat :=
  firstFail (fun m => (s.ends[m]?).any fun e => key e < key i) s.ends.length 0 s.ends.length

/-- What the ends stand for, once the entries `seen` have been added. -/
structure Piled (seen : List ι) (s : Ends ι) : Prop where
  fresh : ∀ i ∉ seen, s.prev i = none
  chain : ∀ n e, s.ends[n]? = some e → ∃ c, Follows s.prev (some e) (e :: c) ∧ c.length = n ∧
    (e :: c).reverse.Sublist seen ∧ (e :: c).Pairwise fun a b => key b < key a
  sorted : ∀ (m n : Nat) (e f : ι), m < n → s.ends[m]? = some e → s.ends[n]? = some f → key e < key f
  least : ∀ (c : List ι) (x : ι), (c ++ [x]).Sublist seen → ((c ++ [x]).Pairwise fun a b => key a < key b) →
    ∃ e, s.ends[c.length]? = some e ∧ key e ≤ key x

variable {key} {seen : List ι} {s : Ends ι} {i : ι}

theorem piled_nil : Piled key [] (⟨[], fun _ => none⟩ : Ends ι) where
  fresh _ _ := rfl
  chain n e h := by simp at h
  sorted m n e f _ h := by simp at h
  least c x h := by simp at h

theorem Piled.lt_place (h : Piled key seen s) (i : ι) (m : Nat) :
    m < place key s i ↔ ∃ e, s.ends[m]? = some e ∧ key e < key i := by
  rw [place, lt_firstFail]
  · simp [Option.any_eq_true]
  · intro a b hab hb
    obtain ⟨f, hf, hlt⟩ := Option.any_eq_true .. |>.1 hb
    obtain rfl | hab := Nat.eq_or_lt_of_le hab
    · exact hb
    · have hlen : b < s.ends.length := (List.getElem?_eq_some_iff.1 hf).1
      have ha : s.ends[a]? = some s.ends[a] := List.getElem?_eq_getElem (by omega)
      rw [ha]
      simpa using (h.sorted a b _ f hab ha hf).trans (by simpa using hlt)
  · omega
  · omega
  · intro j hj
    rw [List.getElem?_eq_none hj]
    rfl

theorem Piled.place_le (h : Piled key seen s) (i : ι) : place key s i ≤ s.ends.length := by
  by_contra hgt
  obtain ⟨e, he, -⟩ := (h.lt_place i s.ends.length).1 (by omega)
  simp at he

section Add
variable [DecidableEq ι]

variable (key) in
/-- Entry `i` becomes the end at its place, after the end before it. -/
def add (s : Ends ι) (i : ι) : Ends ι :=
  let lo := place key s i
  { ends := if lo < s.ends.length then s.ends.set lo i else s.ends ++ [i]
    prev := if 0 < lo then Function.update s.prev i (s.ends[lo - 1]?) else s.prev }

variable (key) in
def endsOf (idx : List ι) : Ends ι := idx.foldl (add key) ⟨[], fun _ => none⟩

variable (key) in
/-- The entries of a longest increasing sublist, the last first. -/
def longest (idx : List ι) : List ι := follow (endsOf key idx).prev idx.length (endsOf key idx).ends.getLast?

theorem Piled.ends_add (h : Piled key seen s) (i : ι) (m : Nat) :
    (add key s i).ends[m]? = if m = place key s i then some i else s.ends[m]? := by
  have hle := h.place_le i
  rw [add]
  by_cases hlt : place key s i < s.ends.length
  · rw [if_pos hlt, List.getElem?_set]
    by_cases hm : m = place key s i
    · simp [hm, hlt]
    · rw [if_neg (Ne.symm hm), if_neg hm]
  · have heq : place key s i = s.ends.length := by omega
    rw [if_neg hlt, heq]
    by_cases hm : m = s.ends.length
    · simp [hm]
    · rw [if_neg hm]
      by_cases hml : m < s.ends.length
      · rw [List.getElem?_append_left hml]
      · rw [List.getElem?_eq_none (by simp; omega), List.getElem?_eq_none (by omega)]

theorem prev_add {j : ι} (hj : j ≠ i) : (add key s i).prev j = s.prev j := by
  rw [add]
  dsimp only
  by_cases hpos : 0 < place key s i
  · rw [if_pos hpos, Function.update_of_ne hj]
  · rw [if_neg hpos]

theorem Piled.prev_add_self (h : Piled key seen s) (hi : i ∉ seen) :
    (add key s i).prev i = if 0 < place key s i then s.ends[place key s i - 1]? else none := by
  rw [add]
  dsimp only
  by_cases hpos : 0 < place key s i
  · rw [if_pos hpos, if_pos hpos, Function.update_self]
  · rw [if_neg hpos, if_neg hpos, h.fresh i hi]

theorem Follows.add {start : Option ι} {l : List ι} (h : Follows s.prev start l) (hi : i ∉ l) :
    Follows (add key s i).prev start l := by
  have heq : (Increasing.add key s i).prev =
      Function.update s.prev i ((Increasing.add key s i).prev i) := by
    funext j
    by_cases hj : j = i
    · rw [hj, Function.update_self]
    · rw [Function.update_of_ne hj, prev_add hj]
  rw [heq]
  exact h.update hi

section
variable (h : Piled key seen s)
include h

theorem Piled.chain_add (hi : i ∉ seen) {n : Nat} {e : ι}
    (he : (add key s i).ends[n]? = some e) : ∃ c, Follows (add key s i).prev (some e) (e :: c) ∧ c.length = n ∧
      (e :: c).reverse.Sublist (seen ++ [i]) ∧ (e :: c).Pairwise fun a b => key b < key a := by
  rw [h.ends_add] at he
  by_cases hn : n = place key s i
  · rw [if_pos hn, Option.some.injEq] at he
    subst he
    have hprev := h.prev_add_self hi
    cases n with
    | zero =>
      rw [if_neg (by omega)] at hprev
      refine ⟨[], .step ?_, rfl, by simp, by simp⟩
      rw [hprev]
      exact .stop
    | succ n =>
      obtain ⟨f, hf, hlt⟩ := (h.lt_place i n).1 (by omega)
      obtain ⟨c, hc, hlen, hsub, hpair⟩ := h.chain n f hf
      have hic : i ∉ f :: c := fun hmem => hi (hsub.subset (List.mem_reverse.2 hmem))
      rw [if_pos (by omega), ← hn, Nat.add_sub_cancel, hf] at hprev
      refine ⟨f :: c, .step ?_, by simp [hlen], ?_, ?_⟩
      · rw [hprev]
        exact hc.add hic
      · rw [List.reverse_cons]
        exact hsub.append_right [i]
      · rw [List.pairwise_cons]
        refine ⟨fun b hb => ?_, hpair⟩
        obtain rfl | hb := List.mem_cons.1 hb
        · exact hlt
        · exact (List.rel_of_pairwise_cons hpair hb).trans hlt
  · rw [if_neg hn] at he
    obtain ⟨c, hc, hlen, hsub, hpair⟩ := h.chain n e he
    have hic : i ∉ e :: c := fun hmem => hi (hsub.subset (List.mem_reverse.2 hmem))
    exact ⟨c, hc.add hic, hlen, hsub.trans (List.sublist_append_left seen [i]), hpair⟩

theorem Piled.sorted_add {m n : Nat} {e f : ι} (hmn : m < n)
    (he : (add key s i).ends[m]? = some e) (hf : (add key s i).ends[n]? = some f) : key e < key f := by
  rw [h.ends_add] at he hf
  by_cases hn : n = place key s i
  · rw [if_pos hn, Option.some.injEq] at hf
    rw [if_neg (by omega)] at he
    obtain ⟨e', he', hlt⟩ := (h.lt_place i m).1 (by omega)
    rw [he, Option.some.injEq] at he'
    rw [← hf, he']
    exact hlt
  · rw [if_neg hn] at hf
    by_cases hm : m = place key s i
    · rw [if_pos hm, Option.some.injEq] at he
      subst he
      -- The end that is replaced is not below the new one.
      have hlen : n < s.ends.length := (List.getElem?_eq_some_iff.1 hf).1
      have hold : s.ends[m]? = some s.ends[m] := List.getElem?_eq_getElem (by omega)
      have hnot : ¬ key s.ends[m] < key i := fun hlt => by
        have := (h.lt_place i m).2 ⟨_, hold, hlt⟩
        omega
      exact (not_lt.1 hnot).trans_lt (h.sorted m n _ f hmn hold hf)
    · rw [if_neg hm] at he
      exact h.sorted m n e f hmn he hf

theorem Piled.least_add {c : List ι} {x : ι} (hsub : (c ++ [x]).Sublist (seen ++ [i]))
    (hpair : (c ++ [x]).Pairwise fun a b => key a < key b) :
    ∃ e, (add key s i).ends[c.length]? = some e ∧ key e ≤ key x := by
  rw [h.ends_add]
  obtain ⟨l, l', heq, hl, hl'⟩ := List.sublist_append_iff.1 hsub
  obtain rfl | rfl := List.sublist_singleton.1 hl'
  · rw [List.append_nil] at heq
    obtain ⟨e, he, hle⟩ := h.least c x (heq ▸ hl) hpair
    by_cases hc : c.length = place key s i
    · rw [if_pos hc]
      have hnot : ¬ key e < key i := fun hlt => by
        have := (h.lt_place i _).2 ⟨e, he, hlt⟩
        omega
      exact ⟨i, rfl, (not_lt.1 hnot).trans hle⟩
    · rw [if_neg hc]
      exact ⟨e, he, hle⟩
  · obtain ⟨rfl, hx⟩ := List.append_inj' heq rfl
    obtain rfl : x = i := by simpa using hx
    have hle : c.length ≤ place key s x := by
      obtain rfl | ⟨c, y, rfl⟩ := List.eq_nil_or_concat c
      · simp
      · rw [List.concat_eq_append] at hl hpair ⊢
        rw [List.pairwise_append] at hpair
        obtain ⟨e, he, hle⟩ := h.least c y hl hpair.1
        have := (h.lt_place x _).2 ⟨e, he, hle.trans_lt (hpair.2.2 y (by simp) x (by simp))⟩
        rw [List.length_append, List.length_singleton]
        omega
    by_cases hc : c.length = place key s x
    · rw [if_pos hc]
      exact ⟨x, rfl, le_rfl⟩
    · rw [if_neg hc]
      obtain ⟨e, he, hlt⟩ := (h.lt_place x c.length).1 (by omega)
      exact ⟨e, he, hlt.le⟩

theorem Piled.add (hi : i ∉ seen) : Piled key (seen ++ [i]) (add key s i) where
  fresh j hj := by
    rw [List.mem_append, List.mem_singleton, not_or] at hj
    rw [prev_add hj.2]
    exact h.fresh j hj.1
  chain _ _ he := h.chain_add hi he
  sorted _ _ _ _ hmn he hf := h.sorted_add hmn he hf
  least _ _ hsub hpair := h.least_add hsub hpair

theorem piled_foldl {idx : List ι} (hidx : (seen ++ idx).Nodup) :
    Piled key (seen ++ idx) (idx.foldl (add key) s) := by
  induction idx generalizing seen s with
  | nil => rwa [List.append_nil]
  | cons i idx ih =>
    have hassoc : seen ++ i :: idx = seen ++ [i] ++ idx := by simp
    rw [hassoc] at hidx ⊢
    refine ih (h.add ?_) hidx
    have hnodup := hidx.of_append_left
    rw [List.nodup_append] at hnodup
    exact fun hmem => hnodup.2.2 i hmem i (by simp) rfl

end

theorem longest_spec {idx : List ι} (hidx : idx.Nodup) :
    (longest key idx).reverse.Sublist idx ∧ ((longest key idx).reverse.Pairwise fun a b => key a < key b) ∧
      ∀ c : List ι, c.Sublist idx → (c.Pairwise fun a b => key a < key b) → c.length ≤ (longest key idx).length := by
  have hpiled : Piled key idx (endsOf key idx) := piled_foldl piled_nil hidx
  obtain ⟨hlen, hsub, hpair⟩ : (longest key idx).length = (endsOf key idx).ends.length ∧
      (longest key idx).reverse.Sublist idx ∧ (longest key idx).Pairwise fun a b => key b < key a := by
    cases hlast : (endsOf key idx).ends.getLast? with
    | none =>
      have hnil : longest key idx = [] := by
        rw [longest, hlast]
        cases idx <;> rfl
      rw [List.getLast?_eq_none_iff] at hlast
      simp [hnil, hlast]
    | some e =>
      rw [List.getLast?_eq_getElem?] at hlast
      obtain ⟨c, hc, hlen, hsub, hpair⟩ := hpiled.chain _ e hlast
      have hpos : (endsOf key idx).ends.length - 1 < (endsOf key idx).ends.length :=
        (List.getElem?_eq_some_iff.1 hlast).1
      have heq : longest key idx = e :: c := by
        rw [longest, List.getLast?_eq_getElem?, hlast]
        refine hc.follow_eq _ ?_
        simpa using hsub.length_le
      rw [heq]
      exact ⟨by rw [List.length_cons]; omega, hsub, hpair⟩
  refine ⟨hsub, List.pairwise_reverse.2 hpair, fun c hc hinc => ?_⟩
  obtain rfl | ⟨c, x, rfl⟩ := List.eq_nil_or_concat c
  · simp
  · rw [List.concat_eq_append] at hc hinc ⊢
    obtain ⟨e, he, -⟩ := hpiled.least c x hc hinc
    have := (List.getElem?_eq_some_iff.1 he).1
    rw [List.length_append, List.length_singleton]
    omega

end Add
end Ends
theorem filter_mem_of_sublist {α : Type*} [DecidableEq α] {l l' : List α} (h : l.Sublist l') (hn : l'.Nodup) :
    l'.filter (· ∈ l) = l := by
  have hsub := h.filter (· ∈ l)
  rw [List.filter_eq_self.2 fun a ha => decide_eq_true ha] at hsub
  refine (hsub.eq_of_length_le (List.subperm_of_subset (hn.filter _) fun a ha => ?_).length_le).symm
  simpa using (List.mem_filter.1 ha).2

end Increasing
