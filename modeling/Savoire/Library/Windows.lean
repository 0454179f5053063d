import Mathlib.Data.List.Perm.Subperm
import Mathlib.Data.List.Count

/-! How much begins in any window of time, and a count of the stamps that have not lapsed. -/
namespace Windows

/-- The times in the window that opens at `first`. -/
def within (span first : Nat) (times : List Nat) : List Nat := times.filter fun t => first ≤ t ∧ t < first + span

def recent (span now : Nat) (times : List Nat) : List Nat := times.filter fun t => now < t + span

variable {span now n : Nat} {times stamps counted : List Nat}

theorem recent_recent : recent span now (recent span now times) = recent span now times := by
  simp [recent]

theorem length_within_le (first : Nat) (hlast : ¬ first ≤ now ∨ first + span ≤ now) :
    within span first (times ++ [now]) = within span first times := by
  have hnone : ¬ (first ≤ now ∧ now < first + span) := by omega
  simp [within, List.filter_append, hnone]

theorem within_concat_le (h : ∀ first, (within span first times).length ≤ n)
    (hroom : (recent span now times).length < n) (first : Nat) :
    (within span first (times ++ [now])).length ≤ n := by
  by_cases hin : first ≤ now ∧ now < first + span
  · have hsub : (within span first times).length ≤ (recent span now times).length := by
      refine List.Sublist.length_le (List.monotone_filter_right _ ?_)
      intro t ht
      simp only [decide_eq_true_eq] at ht ⊢
      omega
    rw [within, List.filter_append, List.length_append]
    have hone : (List.filter (fun t => decide (first ≤ t ∧ t < first + span)) [now]).length ≤ 1 :=
      List.length_filter_le _ _
    have hwithin : (List.filter (fun t => decide (first ≤ t ∧ t < first + span)) times).length ≤
        (recent span now times).length := hsub
    omega
  · rw [length_within_le first (by omega)]
    exact h first

def Covers (span now : Nat) (counted stamps : List Nat) : Prop :=
  ∀ t, now < t + span → stamps.count t ≤ counted.count t

theorem count_recent {t : Nat} (ht : now < t + span) : (recent span now times).count t = times.count t := by
  rw [recent, List.count_filter]
  simpa using ht

section
variable (h : Covers span now counted stamps)
include h

theorem Covers.length_le :
    (recent span now stamps).length ≤ (recent span now counted).length := by
  refine (List.subperm_ext_iff.mpr ?_).length_le
  intro t ht
  have hlapses : now < t + span := by simpa using List.of_mem_filter ht
  rw [count_recent hlapses, count_recent hlapses]
  exact h t hlapses

theorem Covers.perm {stamps' : List Nat} (hp : stamps'.Perm stamps) :
    Covers span now counted stamps' := by
  intro t ht
  rw [hp.count_eq]
  exact h t ht

theorem Covers.sublist {stamps' : List Nat} (hs : stamps'.Sublist stamps) :
    Covers span now counted stamps' :=
  fun t ht => Nat.le_trans (hs.count_le t) (h t ht)

theorem Covers.later (d : Nat) : Covers span (now + d) counted stamps :=
  fun t ht => h t (by omega)

theorem Covers.lapse : Covers span now (recent span now counted) stamps := by
  intro t ht
  rw [count_recent ht]
  exact h t ht

theorem Covers.push (stamp : Nat) :
    Covers span now (counted ++ [stamp]) (stamp :: stamps) := by
  intro t ht
  have hold := h t ht
  rw [List.count_append, List.count_cons, List.count_singleton]
  omega

end

end Windows
