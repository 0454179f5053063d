import Savoire.Desktop.TextDiff

/-! No edit of a delta begins or ends between the two halves of a surrogate pair, in the old text or in the
new one. -/
namespace Savoire.TextDiff
open Myers

def TextEdit.after (q : Nat × Nat) : TextEdit → Nat × Nat
  | retain n => (q.1 + n, q.2 + n)
  | delete n => (q.1 + n, q.2)
  | insert s => (q.1, q.2 + s.length)

def stop (q : Nat × Nat) (es : List TextEdit) : Nat × Nat := es.foldl TextEdit.after q

def bounds : Nat × Nat → List TextEdit → List (Nat × Nat)
  | q, [] => [q]
  | q, e :: es => q :: bounds (e.after q) es

def spans : Nat → List TextEdit → List (Nat × Nat)
  | _, [] => []
  | i, e :: es => (i, (e.after (i, 0)).1) :: spans (e.after (i, 0)).1 es

variable {q p : Nat × Nat} {es es' es'' : List TextEdit}

theorem mem_bounds_start (q : Nat × Nat) (es : List TextEdit) : q ∈ bounds q es := by
  cases es <;> simp [bounds]

theorem mem_bounds_append : p ∈ bounds q (es ++ es') ↔ p ∈ bounds q es ∨ p ∈ bounds (stop q es) es' := by
  induction es generalizing q with
  | nil =>
    simp only [List.nil_append, bounds, stop, List.foldl_nil, List.mem_singleton]
    exact ⟨.inr, fun h => h.elim (fun h => h ▸ mem_bounds_start q es') id⟩
  | cons e es ih =>
    simp only [List.cons_append, bounds, List.mem_cons, ih, stop, List.foldl_cons, or_assoc]

/-- The bounds of the first delta are among those of the second. -/
def Coarser (es es' : List TextEdit) : Prop := ∀ q, ∀ p ∈ bounds q es, p ∈ bounds q es'

theorem Coarser.refl (es : List TextEdit) : Coarser es es := fun _ _ h => h

theorem Coarser.trans (h : Coarser es es') (h' : Coarser es' es'') : Coarser es es'' :=
  fun q p hp => h' q p (h q p hp)

theorem Coarser.append (h : Coarser es es') (ops : List TextEdit) : Coarser (ops ++ es) (ops ++ es') := by
  intro q p hp
  rw [mem_bounds_append] at hp ⊢
  exact hp.imp id (h _ p)

theorem coarser_cons (e : TextEdit) (h : ∀ q, e.after q = q) (es : List TextEdit) : Coarser es (e :: es) := by
  intro q p hp
  rw [bounds, h q]
  exact List.mem_cons_of_mem q hp

theorem coarser_push {e e₁ e₂ : TextEdit} (h : ∀ q, e.after q = e₂.after (e₁.after q)) (ops es : List TextEdit) :
    Coarser ((e :: ops).reverse ++ es) ((e₁ :: ops).reverse ++ e₂ :: es) := by
  have hmerge : Coarser (e :: es) (e₁ :: e₂ :: es) := by
    intro q p hp
    simp only [bounds, List.mem_cons, h q] at hp ⊢
    exact hp.imp id .inr
  simpa using hmerge.append ops.reverse

theorem pushRetain_coarser (n : Nat) (ops es : List TextEdit) :
    Coarser ((pushRetain n ops).reverse ++ es) (ops.reverse ++ .retain n :: es) := by
  unfold pushRetain
  split
  · rename_i hn
    subst hn
    exact (coarser_cons _ (fun q => by simp [TextEdit.after]) es).append _
  · split
    · exact coarser_push (fun q => by simp [TextEdit.after, Nat.add_assoc]) _ es
    · simpa using Coarser.refl _

theorem pushDelete_coarser (n : Nat) (ops es : List TextEdit) :
    Coarser ((pushDelete n ops).reverse ++ es) (ops.reverse ++ .delete n :: es) := by
  unfold pushDelete
  split
  · rename_i hn
    subst hn
    exact (coarser_cons _ (fun q => by simp [TextEdit.after]) es).append _
  · split
    · exact coarser_push (fun q => by simp [TextEdit.after, Nat.add_assoc]) _ es
    · simpa using Coarser.refl _

theorem pushInsert_coarser (s : Units) (ops es : List TextEdit) :
    Coarser ((pushInsert s ops).reverse ++ es) (ops.reverse ++ .insert s :: es) := by
  unfold pushInsert
  split
  · rename_i hs
    subst hs
    exact (coarser_cons _ (fun q => by simp [TextEdit.after]) es).append _
  · split
    · exact coarser_push (fun q => by simp [TextEdit.after, Nat.add_assoc]) _ es
    · simpa using Coarser.refl _

theorem replace_coarser (n : Nat) (s : Units) (ops es : List TextEdit) :
    Coarser ((replace n s ops).reverse ++ es) (ops.reverse ++ .delete n :: .insert s :: es) :=
  (pushInsert_coarser s (pushDelete n ops) es).trans (pushDelete_coarser n ops (.insert s :: es))

theorem pushHunk_coarser (h : Hunk) (ops es : List TextEdit) :
    Coarser ((pushHunk ops h).reverse ++ es) (ops.reverse ++ (hunkEdits h ++ es)) := by
  cases h with
  | same a => exact pushRetain_coarser a.length ops es
  | change a b =>
    exact (pushRetain_coarser _ _ es).trans ((replace_coarser _ _ _ _).trans (pushRetain_coarser _ ops _))

theorem foldl_pushHunk_coarser (hs : List Hunk) (ops es : List TextEdit) :
    Coarser ((hs.foldl pushHunk ops).reverse ++ es) (ops.reverse ++ (hs.flatMap hunkEdits ++ es)) := by
  induction hs generalizing ops with
  | nil => exact .refl _
  | cons h hs ih =>
    rw [List.foldl_cons, List.flatMap_cons, List.append_assoc]
    exact (ih (pushHunk ops h)).trans (pushHunk_coarser h ops _)

theorem finish_coarser (ops : List TextEdit) : Coarser (finish ops) ops.reverse := by
  intro q p hp
  have hsplit := List.takeWhile_append_dropWhile (p := TextEdit.isRetain) (l := ops)
  have hrev : ops.reverse = finish ops ++ (ops.takeWhile TextEdit.isRetain).reverse := by
    rw [finish, ← List.reverse_append, hsplit]
  rw [hrev, mem_bounds_append]
  exact .inl hp

/-- The unit before the place is the first half of a pair and the one after it the second half. -/
def Splits (text : Units) (i : Nat) : Prop :=
  (text.take i).getLast?.any isHighSurrogate = true ∧ (text.drop i).head?.any isLowSurrogate = true

theorem high_not_low {c : Nat} (h : isHighSurrogate c = true) : isLowSurrogate c = false := by
  simp only [isHighSurrogate, isLowSurrogate, Bool.and_eq_true, decide_eq_true_eq, Bool.and_eq_false_iff,
    decide_eq_false_iff_not] at *
  omega

theorem not_splits_of_last {text : Units} {i : Nat} (h : (text.take i).getLast?.any isHighSurrogate = false) :
    ¬ Splits text i := by
  rintro ⟨hhigh, -⟩
  rw [h] at hhigh
  cases hhigh

theorem not_splits_of_head {text : Units} {i : Nat} (h : (text.drop i).head?.any isLowSurrogate = false) :
    ¬ Splits text i := by
  rintro ⟨-, hlow⟩
  rw [h] at hlow
  cases hlow

theorem not_splits_zero (text : Units) : ¬ Splits text 0 := not_splits_of_last (by simp)

theorem not_splits_length (text : Units) : ¬ Splits text text.length := not_splits_of_head (by simp)

theorem not_splits_append {u x v : Units} {s : Nat} (hs : s ≤ x.length) (hstart : ¬ Splits (u ++ x ++ v) u.length)
    (hend : ¬ Splits (u ++ x ++ v) (u.length + x.length)) (h : ¬ Splits x s) : ¬ Splits (u ++ x ++ v) (u.length + s) := by
  by_cases hzero : s = 0
  · rwa [hzero]
  by_cases hfull : s = x.length
  · rwa [hfull]
  have htake : (u ++ x ++ v).take (u.length + s) = u ++ x.take s := by
    rw [List.append_assoc, List.take_append, List.take_of_length_le (by omega), Nat.add_sub_cancel_left,
      List.take_append_of_le_length hs]
  have hdrop : (u ++ x ++ v).drop (u.length + s) = x.drop s ++ v := by
    rw [List.append_assoc, List.drop_append, List.drop_of_length_le (by omega), Nat.add_sub_cancel_left,
      List.drop_append_of_le_length hs, List.nil_append]
  have hne : x.take s ≠ [] := by
    rw [ne_eq, List.take_eq_nil_iff]
    rintro (h0 | rfl)
    · exact hzero h0
    · simp at hs
      exact hzero hs
  have hne' : x.drop s ≠ [] := by
    rw [ne_eq, List.drop_eq_nil_iff]
    omega
  rw [Splits, htake, hdrop, List.getLast?_append_of_ne_nil _ hne, List.head?_append_of_ne_nil _ hne']
  exact h

variable {a b : Units}

theorem getLast?_take {n : Nat} (hn : 0 < n) (hle : n ≤ a.length) : (a.take n).getLast? = a[n - 1]? := by
  rw [List.getLast?_eq_getElem?, List.length_take, Nat.min_eq_left hle, List.getElem?_take_of_lt (by omega)]

theorem not_splits_commonPrefix (a b : Units) :
    ¬ Splits a (commonPrefix a b) ∧ ¬ Splits b (commonPrefix a b) := by
  have hle := common_le a b
  have hsame : a.take (common a b) = b.take (common a b) := take_common a b
  have hget : ∀ n < common a b, b[n]? = a[n]? := by
    intro n hn
    rw [← List.getElem?_take_of_lt hn, ← hsame, List.getElem?_take_of_lt hn]
  simp only [commonPrefix]
  split
  · rename_i h
    simp only [Bool.and_eq_true, decide_eq_true_eq] at h
    obtain ⟨hpos, hhigh⟩ := h
    -- The first half itself comes next.
    have hlow : a[common a b - 1]?.any isLowSurrogate = false := by
      cases hc : a[common a b - 1]? with
      | none => rfl
      | some c =>
        rw [hc] at hhigh
        exact high_not_low hhigh
    refine ⟨not_splits_of_head ?_, not_splits_of_head ?_⟩
    · rw [List.head?_drop]
      exact hlow
    · rw [List.head?_drop, hget _ (by omega)]
      exact hlow
  · rename_i h
    by_cases hzero : common a b = 0
    · rw [hzero]
      exact ⟨not_splits_zero a, not_splits_zero b⟩
    · have hhigh : a[common a b - 1]?.any isHighSurrogate = false := by
        simpa [Nat.pos_of_ne_zero hzero] using h
      refine ⟨not_splits_of_last ?_, not_splits_of_last ?_⟩
      · rw [getLast?_take (by omega) hle.1]
        exact hhigh
      · rw [getLast?_take (by omega) hle.2, hget _ (by omega)]
        exact hhigh

theorem not_splits_commonSuffix (a b : Units) (start : Nat) :
    ¬ Splits a (a.length - commonSuffix a b start) ∧ ¬ Splits b (b.length - commonSuffix a b start) := by
  have hle := common_le a.reverse b.reverse
  have hget : ∀ n, 0 < n → n ≤ common a.reverse b.reverse → b[b.length - n]? = a[a.length - n]? := by
    intro n hpos hn
    have hdrop : a.drop (a.length - n) = b.drop (b.length - n) := drop_of_le_common hn
    rw [← List.head?_drop, ← List.head?_drop, hdrop]
  simp only [commonSuffix]
  generalize hi : min (common a.reverse b.reverse) (min a.length b.length - start) = i
  have hia : i ≤ common a.reverse b.reverse := by omega
  split
  · rename_i h
    simp only [Bool.and_eq_true, decide_eq_true_eq] at h
    obtain ⟨hpos, hlow⟩ := h
    -- The second half is the last unit before.
    have hhigh : a[a.length - i]?.any isHighSurrogate = false := by
      cases hc : a[a.length - i]? with
      | none => rfl
      | some c =>
        rw [hc] at hlow
        by_contra hhigh
        have hlow' := high_not_low (by simpa using hhigh)
        simp only [Option.any_some] at hlow
        rw [hlow] at hlow'
        cases hlow'
    have hpred : ∀ n, i ≤ n → n - (i - 1) - 1 = n - i := by omega
    refine ⟨not_splits_of_last ?_, not_splits_of_last ?_⟩
    · rw [getLast?_take (by omega) (by omega), hpred _ (by omega)]
      exact hhigh
    · rw [getLast?_take (by omega) (by omega), hpred _ (by omega), hget i hpos hia]
      exact hhigh
  · rename_i h
    by_cases hzero : i = 0
    · rw [hzero]
      exact ⟨not_splits_length a, not_splits_length b⟩
    · have hlow : a[a.length - i]?.any isLowSurrogate = false := by
        simpa [Nat.pos_of_ne_zero hzero] using h
      refine ⟨not_splits_of_head ?_, not_splits_of_head ?_⟩
      · rw [List.head?_drop]
        exact hlow
      · rw [List.head?_drop, hget i (by omega) hia]
        exact hlow

/-- Blocks made of the first lines of both sides, each block of whole lines. -/
inductive Blocks : List Units → List Units → List Hunk → Prop
  | nil : Blocks [] [] []
  | cons {la lb ka kb : List Units} {h : Hunk} {hs : List Hunk} : h.before = ka.flatten → h.after = kb.flatten →
      Blocks la lb hs → Blocks (ka ++ la) (kb ++ lb) (h :: hs)

theorem hunks_blocks {la lb : List Units} {script : List Op} (h : Aligned la lb script) :
    Blocks la lb (hunks script la lb) := by
  have hline : ∀ l : Units, l = [l].flatten := by simp
  have hnil : ([] : Units) = ([] : List Units).flatten := rfl
  induction h with
  | nil => exact .nil
  | same l _ ih =>
    simp only [hunks]
    split
    · rename_i heq
      rw [heq] at ih
      cases ih with
      | @cons la lb ka kb _ _ hbefore hafter hrest =>
        refine @Blocks.cons _ _ (l :: ka) (l :: kb) _ _ ?_ ?_ hrest
        · rw [List.flatten_cons, ← hbefore]
          rfl
        · rw [List.flatten_cons, ← hafter]
          rfl
    · exact @Blocks.cons _ _ [l] [l] _ _ (hline l) (hline l) ih
  | delete l _ ih =>
    simp only [hunks]
    split
    · rename_i heq
      rw [heq] at ih
      cases ih with
      | @cons la lb ka kb _ _ hbefore hafter hrest =>
        refine @Blocks.cons _ _ (l :: ka) kb _ _ ?_ hafter hrest
        rw [List.flatten_cons, ← hbefore]
        rfl
    · exact @Blocks.cons _ _ [l] [] _ _ (hline l) hnil ih
  | @insert l la lb script h ih =>
    rw [hunks_insert]
    split
    · rename_i heq
      rw [heq] at ih
      cases ih with
      | @cons la lb ka kb _ _ hbefore hafter hrest =>
        refine @Blocks.cons _ _ ka (l :: kb) _ _ hbefore ?_ hrest
        rw [List.flatten_cons, ← hafter]
        rfl
    · exact @Blocks.cons _ _ [] [l] _ _ hnil (hline l) ih

/-- Every line but the last ends with a line feed. -/
def Ended : List Units → Prop
  | [] => True
  | [_] => True
  | l :: ls => l.getLast? = some 10 ∧ Ended ls

theorem ended_cons {l : Units} {ls : List Units} (h : l.getLast? = some 10) (hls : Ended ls) : Ended (l :: ls) := by
  cases ls with
  | nil => trivial
  | cons k ls => exact ⟨h, hls⟩

theorem Ended.cons_of_ne_nil {l c : Units} {ls : List Units} (h : Ended (l :: ls)) (hl : l ≠ []) :
    Ended ((c ++ l) :: ls) := by
  cases ls with
  | nil => trivial
  | cons k ls => exact ⟨by rw [List.getLast?_append_of_ne_nil _ hl]; exact h.1, h.2⟩

theorem splitLines_ne_nil (text : Units) : ∀ l ∈ splitLines text, l ≠ [] := by
  induction text with
  | nil => simp [splitLines]
  | cons c text ih =>
    simp only [splitLines]
    split
    · simpa using ih
    · split
      · simp
      · rename_i heq
        rw [heq, List.forall_mem_cons] at ih
        rw [List.forall_mem_cons]
        exact ⟨by simp, ih.2⟩

theorem splitLines_ended (text : Units) : Ended (splitLines text) := by
  induction text with
  | nil => trivial
  | cons c text ih =>
    simp only [splitLines]
    split
    · rename_i hc
      exact ended_cons (by simp [hc]) ih
    · split
      · trivial
      · rename_i line lines heq
        rw [heq] at ih
        have hline : line ≠ [] := splitLines_ne_nil text line (by simp [heq])
        exact ih.cons_of_ne_nil (c := [c]) hline

theorem Ended.append {ka la : List Units} (h : Ended (ka ++ la)) :
    Ended la ∧ (la = [] ∨ ka.flatten = [] ∨ ka.flatten.getLast? = some 10) := by
  induction ka with
  | nil => exact ⟨h, .inr (.inl rfl)⟩
  | cons l ka ih =>
    rw [List.cons_append] at h
    cases hrest : ka ++ la with
    | nil => exact ⟨by simp [(List.append_eq_nil_iff.mp hrest).2, Ended], .inl (List.append_eq_nil_iff.mp hrest).2⟩
    | cons k ls =>
      rw [hrest] at h
      have hls : Ended (ka ++ la) := by
        rw [hrest]
        exact h.2
      obtain ⟨hla, hend⟩ := ih hls
      refine ⟨hla, ?_⟩
      obtain hnil | hflat | hlast := hend
      · exact .inl hnil
      · rw [List.flatten_cons, hflat, List.append_nil]
        exact .inr (.inr h.1)
      · rw [List.flatten_cons, List.getLast?_append, hlast]
        exact .inr (.inr rfl)

theorem not_splits_lines {u v : Units} {ka la : List Units} (hlines : Ended (ka ++ la))
    (hstart : ¬ Splits (u ++ (ka ++ la).flatten ++ v) u.length)
    (hend : ¬ Splits (u ++ (ka ++ la).flatten ++ v) (u.length + (ka ++ la).flatten.length)) :
    ¬ Splits (u ++ (ka ++ la).flatten ++ v) (u.length + ka.flatten.length) := by
  obtain ⟨-, hnil | hnil | hlast⟩ := hlines.append
  · rw [hnil, List.append_nil] at hend ⊢
    exact hend
  · rwa [hnil, List.length_nil, Nat.add_zero]
  · refine not_splits_of_last ?_
    rw [List.flatten_append, ← List.append_assoc, List.append_assoc (u ++ ka.flatten), ← List.length_append,
      List.take_left, List.getLast?_append, hlast]
    rfl

def Whole (a b : Units) (q : Nat × Nat) (es : List TextEdit) : Prop :=
  ∀ p ∈ bounds q es, ¬ Splits a p.1 ∧ ¬ Splits b p.2

theorem whole_append : Whole a b q (es ++ es') ↔ Whole a b q es ∧ Whole a b (stop q es) es' := by
  simp only [Whole, mem_bounds_append]
  exact ⟨fun h => ⟨fun p hp => h p (.inl hp), fun p hp => h p (.inr hp)⟩, fun h p hp => hp.elim (h.1 p) (h.2 p)⟩

theorem whole_cons (e : TextEdit) :
    Whole a b q (e :: es) ↔ (¬ Splits a q.1 ∧ ¬ Splits b q.2) ∧ Whole a b (e.after q) es := by
  simp only [Whole, bounds, List.forall_mem_cons]

theorem whole_nil : Whole a b q [] ↔ ¬ Splits a q.1 ∧ ¬ Splits b q.2 := by simp [Whole, bounds]

/-- Two parts of the texts, their ends outside pairs. -/
structure Parts (a b u x v u' y v' : Units) : Prop where
  old : a = u ++ x ++ v
  new : b = u' ++ y ++ v'
  start : ¬ Splits a u.length ∧ ¬ Splits b u'.length
  last : ¬ Splits a (u.length + x.length) ∧ ¬ Splits b (u'.length + y.length)

theorem Parts.refine {u x v u' y v' : Units} (h : Parts a b u x v u' y v') :
    Whole a b (u.length, u'.length) (refineEdits x y) ∧
      stop (u.length, u'.length) (refineEdits x y) = (u.length + x.length, u'.length + y.length) := by
  obtain ⟨rfl, rfl, hstart, hlast⟩ := h
  have hpre := commonPrefix_le x y
  have hsuf := commonSuffix_le x y (commonPrefix x y)
  have hle := common_le x y
  have hle' := common_le x.reverse y.reverse
  have hbegin := not_splits_commonPrefix x y
  have hfinal := not_splits_commonSuffix x y (commonPrefix x y)
  simp only [refineEdits]
  generalize commonSuffix x y (commonPrefix x y) = tail at hsuf hfinal ⊢
  generalize commonPrefix x y = s at hpre hbegin hsuf ⊢
  have hold : ∀ n ≤ x.length, ¬ Splits x n → ¬ Splits (u ++ x ++ v) (u.length + n) :=
    fun n hn h => not_splits_append hn hstart.1 hlast.1 h
  have hnew : ∀ n ≤ y.length, ¬ Splits y n → ¬ Splits (u' ++ y ++ v') (u'.length + n) :=
    fun n hn h => not_splits_append hn hstart.2 hlast.2 h
  have hdel : u.length + s + (x.length - s - tail) = u.length + (x.length - tail) := by omega
  have hins : u'.length + s + ((y.take (y.length - tail)).drop s).length = u'.length + (y.length - tail) := by
    rw [List.length_drop, List.length_take]
    omega
  have hxend : u.length + (x.length - tail) + tail = u.length + x.length := by omega
  have hyend : u'.length + (y.length - tail) + tail = u'.length + y.length := by omega
  have hs := And.intro (hold s (by omega) hbegin.1) (hnew s (by omega) hbegin.2)
  have ht := And.intro (hold (x.length - tail) (by omega) hfinal.1) (hnew (y.length - tail) (by omega) hfinal.2)
  constructor
  · simp only [whole_cons, whole_nil, TextEdit.after, hdel, hins, hxend, hyend]
    exact ⟨hstart, hs, ⟨ht.1, hs.2⟩, ht, hlast⟩
  · simp only [stop, List.foldl_cons, List.foldl_nil, TextEdit.after, hdel, hins, hxend, hyend]

theorem Parts.hunks {la lb : List Units} {hs : List Hunk} (hblocks : Blocks la lb hs) {u v u' v' : Units}
    (hla : Ended la) (hlb : Ended lb) (h : Parts a b u la.flatten v u' lb.flatten v') :
    Whole a b (u.length, u'.length) (hs.flatMap hunkEdits) ∧
      stop (u.length, u'.length) (hs.flatMap hunkEdits) = (u.length + la.flatten.length, u'.length + lb.flatten.length) := by
  induction hblocks generalizing u u' with
  | nil => exact ⟨whole_nil.mpr h.start, rfl⟩
  | @cons la lb ka kb hk hs hbefore hafter _ ih =>
    obtain ⟨hold, hnew, hstart, hlast⟩ := h
    -- Between the first block and the rest both sides have whole lines before them.
    have hmid : ¬ Splits a (u.length + ka.flatten.length) ∧ ¬ Splits b (u'.length + kb.flatten.length) := by
      subst hold hnew
      exact ⟨not_splits_lines hla hstart.1 hlast.1, not_splits_lines hlb hstart.2 hlast.2⟩
    have hfirst : Parts a b u ka.flatten (la.flatten ++ v) u' kb.flatten (lb.flatten ++ v') :=
      ⟨by rw [hold]; simp, by rw [hnew]; simp, hstart, hmid⟩
    have hrest : Parts a b (u ++ ka.flatten) la.flatten v (u' ++ kb.flatten) lb.flatten v' := by
      refine ⟨by rw [hold]; simp, by rw [hnew]; simp, by simpa using hmid, ?_⟩
      simpa [Nat.add_assoc] using hlast
    obtain ⟨hwhole, hstop⟩ := ih hla.append.1 hlb.append.1 hrest
    have hblock : Whole a b (u.length, u'.length) (hunkEdits hk) ∧
        stop (u.length, u'.length) (hunkEdits hk) = (u.length + ka.flatten.length, u'.length + kb.flatten.length) := by
      cases hk with
      | same x =>
        rw [← hbefore, ← hafter] at hmid ⊢
        exact ⟨by simpa [hunkEdits, whole_cons, whole_nil, TextEdit.after] using ⟨hstart, hmid⟩, rfl⟩
      | change x y =>
        rw [← hbefore, ← hafter] at hfirst ⊢
        exact hfirst.refine
    rw [List.length_append, List.length_append] at hwhole hstop
    rw [List.flatMap_cons, whole_append, hblock.2]
    refine ⟨⟨hblock.1, hwhole⟩, ?_⟩
    rw [stop, List.foldl_append]
    change stop (stop (u.length, u'.length) (hunkEdits hk)) _ = _
    rw [hblock.2, hstop]
    simp [Nat.add_assoc]

theorem whole_diffText (a b : Units) : Whole a b (0, 0) (diffText a b) := by
  by_cases hne : a = b
  · simp only [diffText, if_pos hne]
    exact whole_nil.mpr ⟨not_splits_zero a, not_splits_zero b⟩
  have hbegin := not_splits_commonPrefix a b
  have hfinal := not_splits_commonSuffix a b (commonPrefix a b)
  obtain ⟨u, v, hu, hv, ha, hb⟩ := cut_common a b
  simp only [diffText, if_neg hne]
  rw [← hv] at hfinal ha hb ⊢
  rw [← hu] at hbegin ha hb ⊢
  generalize (a.take (a.length - v.length)).drop u.length = midA at ha ⊢
  generalize (b.take (b.length - v.length)).drop u.length = midB at hb ⊢
  have hparts : Parts a b u midA v u midB v := by
    have hlena := congrArg List.length ha
    have hlenb := congrArg List.length hb
    rw [List.length_append, List.length_append] at hlena hlenb
    refine ⟨ha, hb, hbegin, ?_⟩
    have hxa : u.length + midA.length = a.length - v.length := by omega
    have hxb : u.length + midB.length = b.length - v.length := by omega
    rw [hxa, hxb]
    exact hfinal
  have hzero : (u.length, u.length) = TextEdit.after (0, 0) (.retain u.length) := by simp [TextEdit.after]
  have hstart : ∀ mid, Whole a b (u.length, u.length) mid → Whole a b (0, 0) (.retain u.length :: mid) := by
    intro mid hmid
    rw [whole_cons, ← hzero]
    exact ⟨⟨not_splits_zero a, not_splits_zero b⟩, hmid⟩
  have hcoarse : ∀ {ops mid : List TextEdit}, Coarser ops.reverse ((pushRetain u.length []).reverse ++ mid) →
      Whole a b (u.length, u.length) mid → Whole a b (0, 0) (finish ops) := by
    intro ops mid hops hmid p hp
    have hretain := pushRetain_coarser u.length [] mid
    exact hstart mid hmid p (hretain _ p (hops _ p (finish_coarser ops _ p hp)))
  cases hlines : diffLines midA midB with
  | none =>
    refine @hcoarse _ [.delete midA.length, .insert midB] ?_ ?_
    · simpa using replace_coarser midA.length midB (pushRetain u.length []) []
    · simp only [whole_cons, whole_nil, TextEdit.after]
      exact ⟨hparts.start, ⟨hparts.last.1, hparts.start.2⟩, hparts.last⟩
  | some hs =>
    obtain ⟨script, hscript, rfl⟩ := Option.map_eq_some_iff.mp hlines
    have hblocks := hunks_blocks (script_aligned hscript)
    rw [← splitLines_flatten midA, ← splitLines_flatten midB] at hparts
    refine hcoarse ?_ (hparts.hunks hblocks (splitLines_ended midA) (splitLines_ended midB)).1
    simpa using foldl_pushHunk_coarser _ (pushRetain u.length []) []

theorem spans_start (i : Nat) (es : List TextEdit) : ∀ s ∈ spans i es, i ≤ s.1 ∧ s.1 ≤ s.2 := by
  induction es generalizing i with
  | nil => simp [spans]
  | cons e es ih =>
    have hle : i ≤ (e.after (i, 0)).1 := by cases e <;> simp [TextEdit.after]
    rw [spans, List.forall_mem_cons]
    exact ⟨⟨le_rfl, hle⟩, fun s hs => ⟨hle.trans (ih _ s hs).1, (ih _ s hs).2⟩⟩

theorem spans_sorted (i : Nat) (es : List TextEdit) : (spans i es).Pairwise fun s t => s.2 ≤ t.1 := by
  induction es generalizing i with
  | nil => exact .nil
  | cons e es ih => exact .cons (fun s hs => (spans_start _ es s hs).1) (ih _)

theorem spans_le {i n : Nat} (h : Fits n es) : ∀ s ∈ spans i es, s.2 ≤ i + n := by
  induction es generalizing i n with
  | nil => simp [spans]
  | cons e es ih =>
    rw [spans, List.forall_mem_cons]
    cases e with
    | retain k =>
      have hrest := ih (i := i + k) h.2
      have hk : k ≤ n := h.1
      exact ⟨by simpa [TextEdit.after] using hk, fun s hs => (hrest s hs).trans (by omega)⟩
    | delete k =>
      have hrest := ih (i := i + k) h.2
      have hk : k ≤ n := h.1
      exact ⟨by simpa [TextEdit.after] using hk, fun s hs => (hrest s hs).trans (by omega)⟩
    | insert t => exact ⟨by simp [TextEdit.after], ih (i := i) h⟩

/-- The delta leads from the one text to the other, its edits follow one another inside the old text, and none
of them cuts a surrogate pair of either text. -/
theorem diffText_correct (a b : Units) :
    applyTextEdits a (diffText a b) = b ∧
      (∀ s ∈ spans 0 (diffText a b), s.1 ≤ s.2 ∧ s.2 ≤ a.length) ∧
      ((spans 0 (diffText a b)).Pairwise fun s t => s.2 ≤ t.1) ∧
      ∀ p ∈ bounds (0, 0) (diffText a b), ¬ Splits a p.1 ∧ ¬ Splits b p.2 := by
  refine ⟨applyTextEdits_diffText a b, fun s hs => ⟨(spans_start 0 _ s hs).2, ?_⟩, spans_sorted 0 _, whole_diffText a b⟩
  simpa using spans_le (i := 0) (fits_diffText a b) s hs

/-- Two emojis of the same first half: the pair is replaced as a whole. -/
example : diffText [97, 0xD83D, 0xDE00, 98] [97, 0xD83D, 0xDE01, 98] =
    [.retain 1, .delete 2, .insert [0xD83D, 0xDE01]] := by decide

end Savoire.TextDiff
