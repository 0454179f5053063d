import Mathlib.Data.List.DropRight
import Mathlib.Data.List.TakeWhile

/-! Texts of the source as sequences of characters, with the .NET and JavaScript
string operations that the modelled functions use. -/
namespace Savoire

namespace Trim
variable {α : Type*} {p : α → Bool} {s u v : List α}

theorem dropWhile_eq_self (h : ∀ c, s.head? = some c → p c = false) : s.dropWhile p = s := by
  cases s with
  | nil => rfl
  | cons c s => rw [List.dropWhile_cons, if_neg (by simp [h c rfl])]

theorem trim_eq_self_iff : (s.dropWhile p).rdropWhile p = s ↔
    (∀ c, s.head? = some c → p c = false) ∧ ∀ c, s.getLast? = some c → p c = false := by
  constructor
  · intro h
    have hhead (c : α) (hc : s.head? = some c) : p c = false := by
      cases s with
      | nil => cases hc
      | cons d s =>
        obtain rfl : d = c := by simpa using hc
        by_contra hp
        have hle : (((d :: s).dropWhile p).rdropWhile p).length ≤ s.length := by
          rw [List.dropWhile_cons, if_pos (by simpa using hp)]
          exact le_trans (List.rdropWhile_prefix _ _).length_le (List.dropWhile_suffix _).length_le
        rw [h, List.length_cons] at hle
        omega
    refine ⟨hhead, fun c hc => ?_⟩
    have hne : s ≠ [] := by
      rintro rfl
      cases hc
    rw [dropWhile_eq_self hhead] at h
    have hlast := List.rdropWhile_eq_self_iff.mp h hne
    rw [List.getLast?_eq_some_getLast hne, Option.some.injEq] at hc
    rw [hc] at hlast
    simpa using hlast
  · rintro ⟨hhead, hlast⟩
    rw [dropWhile_eq_self hhead, List.rdropWhile_eq_self_iff]
    intro hne hp
    rw [hlast _ (List.getLast?_eq_some_getLast hne)] at hp
    cases hp

theorem trim_trim (p : α → Bool) (s : List α) :
    (((s.dropWhile p).rdropWhile p).dropWhile p).rdropWhile p = (s.dropWhile p).rdropWhile p := by
  rw [trim_eq_self_iff]
  constructor
  · intro c hc
    obtain ⟨rest, hrest⟩ := List.rdropWhile_prefix p (s.dropWhile p)
    have hhead := List.head?_dropWhile_not p s
    rw [← hrest, List.head?_append_of_ne_nil] at hhead
    · rw [hc] at hhead
      simpa using hhead
    · intro hnil
      rw [hnil] at hc
      cases hc
  · intro c hc
    have hne : (s.dropWhile p).rdropWhile p ≠ [] := by
      intro hnil
      rw [hnil] at hc
      cases hc
    have hlast := List.rdropWhile_last_not p _ hne
    rw [List.getLast?_eq_some_getLast hne, Option.some.injEq] at hc
    rw [hc] at hlast
    simpa using hlast

theorem mem_of_mem_trim {c : α} (h : c ∈ (s.dropWhile p).rdropWhile p) : c ∈ s :=
  (List.dropWhile_suffix _).subset ((List.rdropWhile_prefix _ _).subset h)

theorem trim_around (hu : ∀ c ∈ u, p c = true) (hv : ∀ c ∈ v, p c = true)
    (h : (s.dropWhile p).rdropWhile p = s) : ((u ++ s ++ v).dropWhile p).rdropWhile p = s := by
  obtain ⟨hhead, hlast⟩ := trim_eq_self_iff.1 h
  have hback : (s ++ v).rdropWhile p = s := by
    induction v using List.reverseRecOn with
    | nil =>
      rw [List.append_nil]
      rwa [dropWhile_eq_self hhead] at h
    | append_singleton v c ih =>
      rw [← List.append_assoc, List.rdropWhile_concat_pos _ _ _ (hv c (by simp))]
      exact ih fun d hd => hv d (List.mem_append_left _ hd)
  rw [List.append_assoc, List.dropWhile_append_of_pos hu]
  cases s with
  | nil =>
    rw [List.nil_append, List.dropWhile_eq_nil_iff.2 hv, List.rdropWhile_nil]
  | cons d s => rw [dropWhile_eq_self (by simpa using hhead), hback]

end Trim

section Split
variable {α : Type*} [BEq α] (sep : α) (text : List α)

theorem notMem_splitOn [LawfulBEq α] : ∀ l ∈ text.splitOn sep, sep ∉ l := by
  induction text with
  | nil => simp
  | cons x text ih =>
    rw [List.splitOn_cons_eq_if_modifyHead]
    split
    · exact List.forall_mem_cons.mpr ⟨by simp, ih⟩
    · rename_i hx
      cases hsplit : text.splitOn sep with
      | nil => simp
      | cons l rest =>
        rw [hsplit, List.forall_mem_cons] at ih
        refine List.forall_mem_cons.mpr ⟨fun hmem => ?_, ih.2⟩
        obtain h | h := List.mem_cons.mp hmem
        · exact hx (by simp [← h])
        · exact ih.1 h

theorem subset_splitOn : ∀ l ∈ text.splitOn sep, l ⊆ text := by
  induction text with
  | nil => simp
  | cons x text ih =>
    rw [List.splitOn_cons_eq_if_modifyHead]
    split
    · exact List.forall_mem_cons.2 ⟨List.nil_subset _, fun l hl =>
        List.Subset.trans (ih l hl) (List.subset_cons_self x text)⟩
    · cases hsplit : text.splitOn sep with
      | nil => simp
      | cons l rest =>
        rw [hsplit, List.forall_mem_cons] at ih
        exact List.forall_mem_cons.2 ⟨List.cons_subset_cons x ih.1, fun l hl =>
          List.Subset.trans (ih.2 l hl) (List.subset_cons_self x text)⟩

end Split

abbrev Text := List Char

instance Text.lawfulBEq : LawfulBEq (List Char) := inferInstance

namespace Text

/-- `Char.IsWhiteSpace`: the Unicode separators and the control characters that .NET counts. -/
def isWhiteSpace (c : Char) : Bool :=
  let n := c.toNat
  n == 0x20 || (0x9 ≤ n && n ≤ 0xD) || n == 0x85 || n == 0xA0 || n == 0x1680 ||
    (0x2000 ≤ n && n ≤ 0x200A) || n == 0x2028 || n == 0x2029 || n == 0x202F || n == 0x205F ||
    n == 0x3000

def isNullOrWhiteSpace : Option Text → Bool
  | none => true
  | some s => s.all isWhiteSpace

def trim (s : Text) : Text := (s.dropWhile isWhiteSpace).rdropWhile isWhiteSpace

/-- Lower case, as far as a comparison with ASCII words goes. -/
def toLowerInvariant (s : Text) : Text := s.map Char.toLower

def startsWith (s start : Text) : Bool := start.isPrefixOf s

@[simp] theorem startsWith_iff (s start : Text) : s.startsWith start = true ↔ start <+: s :=
  List.isPrefixOf_iff_prefix

/-- `s.Split(sep, n + 1)`: at most `n` cuts, the last part keeps the rest. -/
def splitAtMost (sep : Char) : Nat → Text → List Text
  | 0, s => [s]
  | n+1, s => match s.dropWhile (· ≠ sep) with
    | [] => [s]
    | _ :: rest => s.takeWhile (· ≠ sep) :: splitAtMost sep n rest

theorem takeWhile_sep (sep : Char) (u v : Text) (h : sep ∉ u) :
    (u ++ sep :: v).takeWhile (· ≠ sep) = u := by
  induction u with
  | nil => simp
  | cons c u ih =>
    have hc : c ≠ sep := fun he => h (by simp [he])
    have hu : sep ∉ u := fun hm => h (List.mem_cons_of_mem c hm)
    simpa [hc] using ih hu

theorem dropWhile_sep (sep : Char) (u v : Text) (h : sep ∉ u) :
    (u ++ sep :: v).dropWhile (· ≠ sep) = sep :: v := by
  induction u with
  | nil => simp
  | cons c u ih =>
    have hc : c ≠ sep := fun he => h (by simp [he])
    have hu : sep ∉ u := fun hm => h (List.mem_cons_of_mem c hm)
    simpa [hc] using ih hu

theorem splitAtMost_append (sep : Char) (n : Nat) (u v : Text) (h : sep ∉ u) :
    splitAtMost sep (n+1) (u ++ sep :: v) = u :: splitAtMost sep n v := by
  simp only [splitAtMost, dropWhile_sep sep u v h, takeWhile_sep sep u v h]

theorem sep_notMem_takeWhile (sep : Char) (s : Text) : sep ∉ s.takeWhile (· ≠ sep) := by
  intro hm
  simpa using List.mem_takeWhile_imp hm

theorem splitAtMost_ne_nil (sep : Char) (n : Nat) (s : Text) : splitAtMost sep n s ≠ [] := by
  cases n with
  | zero => simp [splitAtMost]
  | succ n => unfold splitAtMost; split <;> simp

theorem sep_notMem_of_mem_dropLast (sep : Char) (n : Nat) (s : Text) :
    ∀ p ∈ (splitAtMost sep n s).dropLast, sep ∉ p := by
  induction n generalizing s with
  | zero => simp [splitAtMost]
  | succ n ih =>
    unfold splitAtMost
    split
    · simp
    · rename_i rest _
      rw [List.dropLast_cons_of_ne_nil (splitAtMost_ne_nil sep n rest)]
      intro p hp
      rcases List.mem_cons.1 hp with rfl | hp
      · exact sep_notMem_takeWhile sep s
      · exact ih rest p hp

end Text
end Savoire
