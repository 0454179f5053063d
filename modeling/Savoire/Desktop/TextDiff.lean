import Mathlib.Data.List.TakeWhile
import Savoire.Library.Myers

/-! The delta that turns one text into another: common beginning and end set apart, the middle compared
line by line, each changed block refined unit by unit. A text is its UTF-16 units. -/
namespace Savoire.TextDiff
open Myers

abbrev Units := List Nat

inductive TextEdit
  | retain (n : Nat)
  | delete (n : Nat)
  | insert (text : Units)
  deriving DecidableEq

def maxLineEdits : Nat := 500

def applyTextEdits : Units → List TextEdit → Units
  | text, [] => text
  | text, .retain n :: edits => text.take n ++ applyTextEdits (text.drop n) edits
  | text, .delete n :: edits => applyTextEdits (text.drop n) edits
  | text, .insert s :: edits => s ++ applyTextEdits text edits

def Fits : Nat → List TextEdit → Prop
  | _, [] => True
  | n, .retain k :: edits => k ≤ n ∧ Fits (n - k) edits
  | n, .delete k :: edits => k ≤ n ∧ Fits (n - k) edits
  | n, .insert _ :: edits => Fits n edits

def isHighSurrogate (code : Nat) : Bool := decide (0xd800 ≤ code) && decide (code ≤ 0xdbff)
def isLowSurrogate (code : Nat) : Bool := decide (0xdc00 ≤ code) && decide (code ≤ 0xdfff)

/-- One less where the last unit in common is the first half of a pair. -/
def commonPrefix (a b : Units) : Nat :=
  let i := common a b
  if decide (0 < i) && (a[i - 1]?).any isHighSurrogate then i - 1 else i

def commonSuffix (a b : Units) (start : Nat) : Nat :=
  let i := min (common a.reverse b.reverse) (min a.length b.length - start)
  if decide (0 < i) && (a[a.length - i]?).any isLowSurrogate then i - 1 else i

def pushRetain (n : Nat) (ops : List TextEdit) : List TextEdit :=
  if n = 0 then ops else
    match ops with
    | .retain k :: ops => .retain (k + n) :: ops
    | ops => .retain n :: ops

def pushDelete (n : Nat) (ops : List TextEdit) : List TextEdit :=
  if n = 0 then ops else
    match ops with
    | .delete k :: ops => .delete (k + n) :: ops
    | ops => .delete n :: ops

def pushInsert (s : Units) (ops : List TextEdit) : List TextEdit :=
  if s = [] then ops else
    match ops with
    | .insert t :: ops => .insert (t ++ s) :: ops
    | ops => .insert s :: ops

def replace (deleteCount : Nat) (s : Units) (ops : List TextEdit) : List TextEdit :=
  pushInsert s (pushDelete deleteCount ops)

def TextEdit.isRetain : TextEdit → Bool
  | retain _ => true
  | _ => false

def finish (ops : List TextEdit) : List TextEdit := (ops.dropWhile TextEdit.isRetain).reverse

def splitLines : Units → List Units
  | [] => []
  | c :: text =>
    if c = 10 then [c] :: splitLines text
    else match splitLines text with
      | [] => [[c]]
      | line :: lines => (c :: line) :: lines

inductive Hunk
  | same (a : Units)
  | change (a b : Units)

/-- The operations of one kind that follow one another are one block. -/
def hunks : List Op → List Units → List Units → List Hunk
  | .same :: ops, l :: la, _ :: lb =>
    match hunks ops la lb with
    | .same a :: rest => .same (l ++ a) :: rest
    | rest => .same l :: rest
  | .delete :: ops, l :: la, lb =>
    match hunks ops la lb with
    | .change a b :: rest => .change (l ++ a) b :: rest
    | rest => .change l [] :: rest
  | .insert :: ops, la, l :: lb =>
    match hunks ops la lb with
    | .change a b :: rest => .change a (l ++ b) :: rest
    | rest => .change [] l :: rest
  | _, _, _ => []

def diffLines (a b : Units) : Option (List Hunk) :=
  let la := splitLines a
  let lb := splitLines b
  (script la lb (min (la.length + lb.length) maxLineEdits)).map fun ops => hunks ops la lb

def refine (ops : List TextEdit) (a b : Units) : List TextEdit :=
  let start := commonPrefix a b
  let tail := commonSuffix a b start
  pushRetain tail
    (replace (a.length - start - tail) ((b.take (b.length - tail)).drop start) (pushRetain start ops))

def pushHunk (ops : List TextEdit) : Hunk → List TextEdit
  | .same a => pushRetain a.length ops
  | .change a b => refine ops a b

def diffText (a b : Units) : List TextEdit :=
  if a = b then []
  else
    let start := commonPrefix a b
    let tail := commonSuffix a b start
    let midA := (a.take (a.length - tail)).drop start
    let midB := (b.take (b.length - tail)).drop start
    let ops := pushRetain start []
    finish (match diffLines midA midB with
      | none => replace midA.length midB ops
      | some blocks => blocks.foldl pushHunk ops)

structure Alike (es es' : List TextEdit) : Prop where
  apply : ∀ text, applyTextEdits text es = applyTextEdits text es'
  fits : ∀ n, Fits n es ↔ Fits n es'

variable {es es' es'' ops : List TextEdit}

theorem Alike.refl (es : List TextEdit) : Alike es es := ⟨fun _ => rfl, fun _ => Iff.rfl⟩

theorem Alike.trans (h : Alike es es') (h' : Alike es' es'') : Alike es es'' :=
  ⟨fun text => (h.apply text).trans (h'.apply text), fun n => (h.fits n).trans (h'.fits n)⟩

theorem Alike.append (h : Alike es es') (ops : List TextEdit) : Alike (ops ++ es) (ops ++ es') := by
  induction ops with
  | nil => exact h
  | cons e ops ih =>
    cases e with
    | retain n =>
      exact ⟨fun text => by simp only [List.cons_append, applyTextEdits, ih.apply],
        fun m => and_congr_right fun _ => ih.fits _⟩
    | delete n => exact ⟨fun text => ih.apply _, fun m => and_congr_right fun _ => ih.fits _⟩
    | insert s =>
      exact ⟨fun text => by simp only [List.cons_append, applyTextEdits, ih.apply], fun m => ih.fits m⟩

theorem retain_zero (es : List TextEdit) : Alike es (.retain 0 :: es) :=
  ⟨fun _ => rfl, fun n => by simp [Fits]⟩

theorem delete_zero (es : List TextEdit) : Alike es (.delete 0 :: es) :=
  ⟨fun _ => rfl, fun n => by simp [Fits]⟩

theorem insert_nil (es : List TextEdit) : Alike es (.insert [] :: es) := ⟨fun _ => rfl, fun _ => Iff.rfl⟩

theorem retain_retain (k n : Nat) (es : List TextEdit) :
    Alike (.retain (k + n) :: es) (.retain k :: .retain n :: es) where
  apply text := by
    simp only [applyTextEdits, List.drop_drop, List.take_add, List.append_assoc]
  fits m := by
    simp only [Fits, Nat.sub_sub]
    rw [← and_assoc]
    exact and_congr_left fun _ => by omega

theorem delete_delete (k n : Nat) (es : List TextEdit) :
    Alike (.delete (k + n) :: es) (.delete k :: .delete n :: es) where
  apply text := by
    simp only [applyTextEdits, List.drop_drop]
  fits m := by
    simp only [Fits, Nat.sub_sub]
    rw [← and_assoc]
    exact and_congr_left fun _ => by omega

theorem insert_insert (s t : Units) (es : List TextEdit) :
    Alike (.insert (s ++ t) :: es) (.insert s :: .insert t :: es) where
  apply text := by simp only [applyTextEdits, List.append_assoc]
  fits _ := Iff.rfl

theorem pushRetain_alike (n : Nat) (ops es : List TextEdit) :
    Alike ((pushRetain n ops).reverse ++ es) (ops.reverse ++ .retain n :: es) := by
  unfold pushRetain
  split
  · rename_i hn
    rw [hn]
    exact (retain_zero es).append _
  · split
    · rename_i k ops
      simpa using (retain_retain k n es).append ops.reverse
    · simpa using Alike.refl _

theorem pushDelete_alike (n : Nat) (ops es : List TextEdit) :
    Alike ((pushDelete n ops).reverse ++ es) (ops.reverse ++ .delete n :: es) := by
  unfold pushDelete
  split
  · rename_i hn
    rw [hn]
    exact (delete_zero es).append _
  · split
    · rename_i k ops
      simpa using (delete_delete k n es).append ops.reverse
    · simpa using Alike.refl _

theorem pushInsert_alike (s : Units) (ops es : List TextEdit) :
    Alike ((pushInsert s ops).reverse ++ es) (ops.reverse ++ .insert s :: es) := by
  unfold pushInsert
  split
  · rename_i hs
    rw [hs]
    exact (insert_nil es).append _
  · split
    · rename_i t ops
      simpa using (insert_insert t s es).append ops.reverse
    · simpa using Alike.refl _

theorem replace_alike (n : Nat) (s : Units) (ops es : List TextEdit) :
    Alike ((replace n s ops).reverse ++ es) (ops.reverse ++ .delete n :: .insert s :: es) :=
  (pushInsert_alike s (pushDelete n ops) es).trans (pushDelete_alike n ops (.insert s :: es))

theorem apply_retains (h : ∀ e ∈ es', e.isRetain = true) (text : Units) :
    applyTextEdits text (es ++ es') = applyTextEdits text es := by
  induction es generalizing text with
  | nil =>
    induction es' generalizing text with
    | nil => rfl
    | cons e es' ih =>
      cases e with
      | retain n =>
        have hrest := ih (fun e he => h e (List.mem_cons_of_mem _ he)) (text.drop n)
        simp only [List.nil_append, applyTextEdits] at hrest ⊢
        rw [hrest, List.take_append_drop]
      | delete n => simpa [TextEdit.isRetain] using h _ List.mem_cons_self
      | insert s => simpa [TextEdit.isRetain] using h _ List.mem_cons_self
  | cons e es ih => cases e <;> simp only [List.cons_append, applyTextEdits, ih]

theorem Fits.left {n : Nat} (h : Fits n (es ++ es')) : Fits n es := by
  induction es generalizing n with
  | nil => trivial
  | cons e es ih =>
    cases e with
    | retain k => exact ⟨h.1, ih h.2⟩
    | delete k => exact ⟨h.1, ih h.2⟩
    | insert s => exact ih (n := n) h

theorem finish_apply (ops : List TextEdit) (text : Units) :
    applyTextEdits text (finish ops) = applyTextEdits text ops.reverse := by
  have hsplit := List.takeWhile_append_dropWhile (p := TextEdit.isRetain) (l := ops)
  have hrev : ops.reverse = finish ops ++ (ops.takeWhile TextEdit.isRetain).reverse := by
    rw [finish, ← List.reverse_append, hsplit]
  rw [hrev, apply_retains]
  intro e he
  exact List.mem_takeWhile_imp (List.mem_reverse.mp he)

theorem finish_fits {n : Nat} (h : Fits n ops.reverse) : Fits n (finish ops) := by
  have hsplit := List.takeWhile_append_dropWhile (p := TextEdit.isRetain) (l := ops)
  have hrev : ops.reverse = finish ops ++ (ops.takeWhile TextEdit.isRetain).reverse := by
    rw [finish, ← List.reverse_append, hsplit]
  rw [hrev] at h
  exact h.left

/-- The edits take all of `a` and write `b`, whatever comes after. -/
structure Writes (es : List TextEdit) (a b : Units) : Prop where
  apply : ∀ rest es', applyTextEdits (a ++ rest) (es ++ es') = b ++ applyTextEdits rest es'
  fits : ∀ n es', Fits (a.length + n) (es ++ es') ↔ Fits n es'

theorem writes_nil : Writes [] [] [] := ⟨fun _ _ => rfl, fun _ _ => by simp⟩

theorem Writes.append {a b a' b' : Units} (h : Writes es a b) (h' : Writes es' a' b') :
    Writes (es ++ es') (a ++ a') (b ++ b') where
  apply rest tail := by
    rw [List.append_assoc, List.append_assoc, List.append_assoc, h.apply, h'.apply]
  fits n tail := by
    rw [List.append_assoc, List.length_append, Nat.add_assoc, h.fits, h'.fits]

theorem writes_retain (a : Units) : Writes [.retain a.length] a a where
  apply rest tail := by simp [applyTextEdits]
  fits n tail := by simp [Fits]

theorem writes_replace (a b : Units) : Writes [.delete a.length, .insert b] a b where
  apply rest tail := by simp [applyTextEdits]
  fits n tail := by simp [Fits]

variable {a b : Units}

theorem commonPrefix_le (a b : Units) : commonPrefix a b ≤ common a b := by
  simp only [commonPrefix]
  split <;> omega

theorem commonSuffix_le (a b : Units) (start : Nat) :
    commonSuffix a b start ≤ min (common a.reverse b.reverse) (min a.length b.length - start) := by
  simp only [commonSuffix]
  split <;> omega

theorem cut_text (a : Units) {start stop : Nat} (h : start ≤ stop) :
    a.take start ++ (a.take stop).drop start ++ a.drop stop = a := by
  have hstart : a.take start = (a.take stop).take start := by rw [List.take_take, Nat.min_eq_left h]
  rw [hstart, List.take_append_drop, List.take_append_drop]

theorem cut_common (a b : Units) :
    let start := commonPrefix a b
    let tail := commonSuffix a b start
    ∃ u v, u.length = start ∧ v.length = tail ∧
      a = u ++ (a.take (a.length - tail)).drop start ++ v ∧ b = u ++ (b.take (b.length - tail)).drop start ++ v := by
  intro start tail
  have hstart := commonPrefix_le a b
  have htail := commonSuffix_le a b start
  have hle := common_le a b
  have hstart' : start ≤ common a b := hstart
  refine ⟨a.take start, a.drop (a.length - tail), ?_, ?_, ?_, ?_⟩
  · rw [List.length_take]
    omega
  · rw [List.length_drop]
    omega
  · exact (cut_text a (by omega)).symm
  · have hdrop : a.drop (a.length - tail) = b.drop (b.length - tail) := drop_of_le_common (by omega)
    rw [take_of_le_common hstart', hdrop]
    exact (cut_text b (by omega)).symm

theorem splitLines_flatten (text : Units) : (splitLines text).flatten = text := by
  induction text with
  | nil => rfl
  | cons c text ih =>
    simp only [splitLines]
    split
    · simp [ih]
    · split
      · rename_i h
        rw [h] at ih
        simp [← ih]
      · rename_i h
        rw [h] at ih
        simpa using ih

def Hunk.before : Hunk → Units
  | same a => a
  | change a _ => a

def Hunk.after : Hunk → Units
  | same a => a
  | change _ b => b

theorem hunks_insert (script : List Op) (la : List Units) (l : Units) (lb : List Units) :
    hunks (.insert :: script) la (l :: lb) = match hunks script la lb with
      | .change a b :: rest => .change a (l ++ b) :: rest
      | rest => .change [] l :: rest := by
  cases la <;> rfl

theorem hunks_spec {la lb : List Units} {script : List Op} (h : Aligned la lb script) :
    (hunks script la lb).flatMap Hunk.before = la.flatten ∧ (hunks script la lb).flatMap Hunk.after = lb.flatten := by
  induction h with
  | nil => exact ⟨rfl, rfl⟩
  | same l _ ih =>
    simp only [hunks]
    split
    · rename_i heq
      rw [heq] at ih
      simpa [Hunk.before, Hunk.after] using ih
    · simp [Hunk.before, Hunk.after, ih]
  | delete l _ ih =>
    simp only [hunks]
    split
    · rename_i heq
      rw [heq] at ih
      simpa [Hunk.before, Hunk.after] using ih
    · simp [Hunk.before, Hunk.after, ih]
  | @insert l la lb script h ih =>
    rw [hunks_insert]
    split
    · rename_i heq
      rw [heq] at ih
      simpa [Hunk.before, Hunk.after] using ih
    · simp [Hunk.before, Hunk.after, ih]

def refineEdits (a b : Units) : List TextEdit :=
  let start := commonPrefix a b
  let tail := commonSuffix a b start
  [.retain start, .delete (a.length - start - tail), .insert ((b.take (b.length - tail)).drop start), .retain tail]

def hunkEdits : Hunk → List TextEdit
  | .same a => [.retain a.length]
  | .change a b => refineEdits a b

theorem pushHunk_alike (h : Hunk) (ops es : List TextEdit) :
    Alike ((pushHunk ops h).reverse ++ es) (ops.reverse ++ (hunkEdits h ++ es)) := by
  cases h with
  | same a => exact pushRetain_alike a.length ops es
  | change a b =>
    exact (pushRetain_alike _ _ es).trans ((replace_alike _ _ _ _).trans (pushRetain_alike _ ops _))

theorem foldl_pushHunk_alike (hs : List Hunk) (ops es : List TextEdit) :
    Alike ((hs.foldl pushHunk ops).reverse ++ es) (ops.reverse ++ (hs.flatMap hunkEdits ++ es)) := by
  induction hs generalizing ops with
  | nil => exact .refl _
  | cons h hs ih =>
    rw [List.foldl_cons, List.flatMap_cons, List.append_assoc]
    exact (ih (pushHunk ops h)).trans (pushHunk_alike h ops _)

theorem writes_refine (a b : Units) : Writes (refineEdits a b) a b := by
  obtain ⟨u, v, hu, hv, ha, hb⟩ := cut_common a b
  have hmid : a.length - commonPrefix a b - commonSuffix a b (commonPrefix a b) =
      ((a.take (a.length - commonSuffix a b (commonPrefix a b))).drop (commonPrefix a b)).length := by
    have hlen := congrArg List.length ha
    rw [List.length_append, List.length_append] at hlen
    omega
  have hw := ((writes_retain u).append (writes_replace
    ((a.take (a.length - commonSuffix a b (commonPrefix a b))).drop (commonPrefix a b))
    ((b.take (b.length - commonSuffix a b (commonPrefix a b))).drop (commonPrefix a b)))).append (writes_retain v)
  rw [← ha, ← hb, hu, hv, ← hmid] at hw
  exact hw

theorem writes_hunks (hs : List Hunk) :
    Writes (hs.flatMap hunkEdits) (hs.flatMap Hunk.before) (hs.flatMap Hunk.after) := by
  induction hs with
  | nil => exact writes_nil
  | cons h hs ih =>
    refine Writes.append ?_ ih
    cases h with
    | same a => exact writes_retain a
    | change a b => exact writes_refine a b

theorem diffLines_spec {hs : List Hunk} (h : diffLines a b = some hs) :
    hs.flatMap Hunk.before = a ∧ hs.flatMap Hunk.after = b := by
  obtain ⟨ops, hops, rfl⟩ := Option.map_eq_some_iff.mp h
  have hspec := hunks_spec (script_aligned hops)
  rwa [splitLines_flatten, splitLines_flatten] at hspec

theorem diffText_writes (hne : a ≠ b) : ∃ (edits ops : List TextEdit) (a' b' v : Units), a = a' ++ v ∧ b = b' ++ v ∧
    Writes edits a' b' ∧ diffText a b = finish ops ∧ Alike ops.reverse edits := by
  obtain ⟨u, v, hu, hv, ha, hb⟩ := cut_common a b
  simp only [diffText, if_neg hne]
  generalize (a.take (a.length - commonSuffix a b (commonPrefix a b))).drop (commonPrefix a b) = midA at ha ⊢
  generalize (b.take (b.length - commonSuffix a b (commonPrefix a b))).drop (commonPrefix a b) = midB at hb ⊢
  have hmid : ∃ mid ops, Writes mid midA midB ∧
      (match diffLines midA midB with
        | none => replace midA.length midB (pushRetain (commonPrefix a b) [])
        | some blocks => blocks.foldl pushHunk (pushRetain (commonPrefix a b) [])) = ops ∧
      Alike ops.reverse ((pushRetain (commonPrefix a b) []).reverse ++ mid) := by
    cases hlines : diffLines midA midB with
    | none =>
      refine ⟨_, _, writes_replace midA midB, rfl, ?_⟩
      simpa using replace_alike midA.length midB (pushRetain (commonPrefix a b) []) []
    | some hs =>
      obtain ⟨hbefore, hafter⟩ := diffLines_spec hlines
      have hw := writes_hunks hs
      rw [hbefore, hafter] at hw
      refine ⟨_, _, hw, rfl, ?_⟩
      simpa using foldl_pushHunk_alike hs (pushRetain (commonPrefix a b) []) []
  obtain ⟨mid, ops, hw, hops, halike⟩ := hmid
  refine ⟨.retain u.length :: mid, ops, u ++ midA, u ++ midB, v, ha, hb, (writes_retain u).append hw, by rw [hops], ?_⟩
  rw [hu]
  exact halike.trans (pushRetain_alike (commonPrefix a b) [] mid)

theorem applyTextEdits_diffText (a b : Units) : applyTextEdits a (diffText a b) = b := by
  by_cases hne : a = b
  · simp [diffText, hne, applyTextEdits]
  obtain ⟨edits, ops, a', b', v, ha, hb, hw, heq, halike⟩ := diffText_writes hne
  have happly := hw.apply v []
  rw [← ha, List.append_nil] at happly
  rw [heq, finish_apply, halike.apply, happly, hb]
  rfl

theorem fits_diffText (a b : Units) : Fits a.length (diffText a b) := by
  by_cases hne : a = b
  · simp [diffText, hne, Fits]
  obtain ⟨edits, ops, a', b', v, ha, hb, hw, heq, halike⟩ := diffText_writes hne
  have hfits := (hw.fits v.length []).mpr trivial
  rw [← List.length_append, ← ha, List.append_nil] at hfits
  rw [heq]
  exact finish_fits ((halike.fits _).mpr hfits)

example : diffText [97, 10, 98, 10, 99, 10] [97, 10, 100, 10, 99, 10] =
    [.retain 2, .delete 1, .insert [100]] := by decide

end Savoire.TextDiff
