import Savoire.Library.StableSort
import Savoire.Query.Eval

/-! Folded texts, and how `compareScalar` compares what is neither two numbers nor two booleans. -/
namespace Savoire.Query
variable {host : Host}

theorem foldText_ascii {s : Text} (h : isAscii s) : foldText host s = s.map Char.toLower := by
  have hkeep : s.filter (fun c => !(0x300 ≤ c.toNat && c.toNat ≤ 0x36F)) = s := by
    rw [List.filter_eq_self]
    intro c hc
    have := h c hc
    simp only [Bool.not_eq_true', Bool.and_eq_false_iff, decide_eq_false_iff_not]
    omega
  rw [foldText, host.nfd_ascii s h, hkeep, host.lower_ascii s h]

theorem foldText_bool (host : Host) (b : Bool) :
    foldText host ((Scalar.bool b).str host) = if b then "true".toList else "false".toList := by
  have htrue : isAscii "true".toList := by decide
  have hfalse : isAscii "false".toList := by decide
  cases b with
  | false => exact foldText_ascii hfalse
  | true => exact foldText_ascii htrue

theorem foldText_nan (host : Host) : foldText host (host.numText .nan) = "nan".toList := by
  rw [host.numText_nan]
  exact foldText_ascii (by decide)

theorem toLower_of_isDigit {c : Char} (h : c.isDigit = true) : c.toLower = c := by
  have hd : 48 ≤ c.toNat ∧ c.toNat ≤ 57 := by
    simpa [Char.isDigit, UInt32.le_iff_toNat_le] using h
  have hup : ¬ ('A'.toNat ≤ c.toNat ∧ c.toNat ≤ 'Z'.toNat) := by
    have : 'A'.toNat = 65 := rfl
    omega
  unfold Char.toLower
  split
  · rename_i hcap
    exact absurd (by simpa [UInt32.le_iff_toNat_le] using hcap) hup
  · rfl

theorem foldText_fin (host : Host) (q : ℚ) :
    ∃ c rest, foldText host (host.numText (.fin q)) = c :: rest ∧ c.toNat < 'a'.toNat := by
  obtain ⟨c, rest, heq, hc⟩ := host.numText_fin q
  have hlt : c.toLower.toNat < 'a'.toNat := by
    obtain hd | rfl := hc
    · have hd' : 48 ≤ c.toNat ∧ c.toNat ≤ 57 := by
        simpa [Char.isDigit, UInt32.le_iff_toNat_le] using hd
      rw [toLower_of_isDigit hd]
      have : 'a'.toNat = 97 := rfl
      omega
    · decide
  refine ⟨c.toLower, rest.map Char.toLower, ?_, hlt⟩
  rw [foldText_ascii (host.numText_ascii _), heq]
  rfl

theorem textLt_irrefl (a : Text) : textLt a a = false := by simp [textLt]

theorem textLt_swap {a b : Text} (h : a ≠ b) : textLt b a = !textLt a b := by
  have hnot : ¬ (a.flatMap Utf.utf16 < b.flatMap Utf.utf16 ∧ b.flatMap Utf.utf16 < a.flatMap Utf.utf16) :=
    fun h => lt_asymm h.1 h.2
  by_cases hab : a.flatMap Utf.utf16 < b.flatMap Utf.utf16
  · have hba : ¬ b.flatMap Utf.utf16 < a.flatMap Utf.utf16 := fun hba => hnot ⟨hab, hba⟩
    simp [textLt, hab, hba]
  · have hba : b.flatMap Utf.utf16 < a.flatMap Utf.utf16 := by
      by_contra hba
      exact h (Utf.eq_of_utf16_not_lt hab hba)
    simp [textLt, hab, hba]

/-- The sign that `compareScalar` gives to two folded texts. -/
def textSign (fa fb : Text) : Num :=
  if textLt fa fb then .fin (-1) else if textLt fb fa then .fin 1 else .fin 0

theorem textSign_eq_zero (a b : Text) : decide (textSign a b = .fin 0) = decide (a = b) := by
  by_cases hab : a = b
  · subst hab
    simp [textSign, textLt_irrefl]
  · cases hlt : textLt a b with
    | true => simp [textSign, hlt, hab]
    | false => simp [textSign, hlt, hab, textLt_swap hab]

theorem compareScalar_eq_textSign (host : Host) {x : Scalar} {w : PropertyValue}
    (hnum : ∀ a b, ¬ (x = .num a ∧ w = .scalar (.num b)))
    (hbool : ∀ a b, ¬ (x = .bool a ∧ w = .scalar (.bool b))) :
    compareScalar host x w = textSign (foldText host (x.str host)) (foldText host (w.str host)) := by
  unfold compareScalar
  split
  · rename_i a b
    exact absurd ⟨rfl, rfl⟩ (hnum a b)
  · rename_i a b
    exact absurd ⟨rfl, rfl⟩ (hbool a b)
  · rfl

/-- `a < b ? -1 : a > b ? 1 : 0` -/
def cmpText (a b : Text) : Ordering :=
  if textLt a b then .lt else if textLt b a then .gt else .eq

theorem cmpText_eq_eq {a b : Text} : cmpText a b = .eq ↔ a = b := by
  constructor
  · intro h
    by_contra hne
    rw [cmpText, textLt_swap hne] at h
    cases hlt : textLt a b <;> simp [hlt] at h
  · rintro rfl
    simp [cmpText, textLt_irrefl]

theorem isLE_cmpText {a b : Text} :
    (cmpText a b).isLE = true ↔ a.flatMap Utf.utf16 ≤ b.flatMap Utf.utf16 := by
  rw [← not_lt]
  by_cases hab : a.flatMap Utf.utf16 < b.flatMap Utf.utf16
  · simp [cmpText, textLt, hab, lt_asymm hab]
  · by_cases hba : b.flatMap Utf.utf16 < a.flatMap Utf.utf16
    · simp [cmpText, textLt, hab, hba]
    · simp [cmpText, textLt, hab, hba]

instance : Std.TransCmp cmpText where
  eq_swap {a b} := by
    by_cases hab : a = b
    · rw [hab, cmpText_eq_eq.2 rfl]
      rfl
    · rw [cmpText, cmpText, textLt_swap hab]
      cases textLt a b <;> rfl
  isLE_trans hab hbc := isLE_cmpText.2 ((isLE_cmpText.1 hab).trans (isLE_cmpText.1 hbc))

theorem consistent_cmpText (l : List Text) : StableSort.Consistent cmpText l where
  swap _ _ _ _ := Std.OrientedCmp.eq_swap
  trans _ _ _ _ _ _ hab hbc := Ordering.isLE_iff_ne_gt.1
    (Std.TransCmp.isLE_trans (Ordering.isLE_iff_ne_gt.2 hab) (Ordering.isLE_iff_ne_gt.2 hbc))

/-- `sort()` on texts. -/
def sortTexts (l : List Text) : List Text := StableSort.sort cmpText l

@[simp] theorem mem_sortTexts {l : List Text} {a : Text} : a ∈ sortTexts l ↔ a ∈ l := StableSort.mem_sort

theorem sortTexts_perm (l : List Text) : (sortTexts l).Perm l := StableSort.sort_perm cmpText l

theorem sortTexts_eq_of_perm {l l' : List Text} (h : l'.Perm l) : sortTexts l' = sortTexts l :=
  StableSort.insertionSorter.apply_eq_of_perm (consistent_cmpText l)
    (fun _ _ _ _ hne heq => hne (cmpText_eq_eq.1 heq)) h

end Savoire.Query
