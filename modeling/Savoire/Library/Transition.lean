import Mathlib.Tactic.TypeStar

/-! Runs of a step function, each step taken under a guard on the state and the event. -/
namespace Transition
variable {σ ε : Type*} (step : σ → ε → Option σ) (ok : σ → ε → Prop)

/-- The states reached from `start` by steps that meet `ok`. -/
inductive Run (start : σ) : σ → Prop
  | refl : Run start start
  | tail {s s' : σ} (e : ε) : Run start s → ok s e → step s e = some s' → Run start s'

/-- The states reached in a number of such steps. -/
inductive Steps (start : σ) : Nat → σ → Prop
  | refl : Steps start 0 start
  | tail {n : Nat} {s s' : σ} (e : ε) : Steps start n s → ok s e → step s e = some s' → Steps start (n + 1) s'

variable {step ok}

variable {start s : σ}

theorem Run.invariant (h : Run step ok start s) (P : σ → Prop) (h0 : P start)
    (hs : ∀ s e s', P s → ok s e → step s e = some s' → P s') : P s := by
  induction h with
  | refl => exact h0
  | tail e _ hok hstep ih => exact hs _ e _ ih hok hstep

variable {ok' : σ → ε → Prop}

theorem Run.weaken (h : Run step ok start s) (hw : ∀ s e, ok s e → ok' s e) : Run step ok' start s := by
  induction h with
  | refl => exact .refl
  | tail e _ hok hstep ih => exact .tail e ih (hw _ e hok) hstep

theorem Run.imp {step' : σ → ε → Option σ} (h : Run step ok start s)
    (hw : ∀ s e s', ok s e → step s e = some s' → ok' s e ∧ step' s e = some s') : Run step' ok' start s := by
  induction h with
  | refl => exact .refl
  | tail e _ hok hstep ih =>
    obtain ⟨hok', hstep'⟩ := hw _ e _ hok hstep
    exact .tail e ih hok' hstep'

theorem Steps.imp {step' : σ → ε → Option σ} {n : Nat} (h : Steps step ok start n s)
    (hw : ∀ s e s', ok s e → step s e = some s' → ok' s e ∧ step' s e = some s') : Steps step' ok' start n s := by
  induction h with
  | refl => exact .refl
  | tail e _ hok hstep ih =>
    obtain ⟨hok', hstep'⟩ := hw _ e _ hok hstep
    exact .tail e ih hok' hstep'

theorem Run.trans {a b c : σ} (hab : Run step ok a b) (hbc : Run step ok b c) :
    Run step ok a c := by
  induction hbc with
  | refl => exact hab
  | tail e _ hok hstep ih => exact .tail e ih hok hstep

variable {k : Nat}

variable {α : Type*} {l : List α}

theorem mem_or_mem_eraseIdx {a b : α} (h : l[k]? = some a) (hb : b ∈ l) :
    b = a ∨ b ∈ l.eraseIdx k := by
  obtain ⟨j, hj⟩ := List.mem_iff_getElem?.1 hb
  by_cases hjk : j = k
  · subst hjk
    exact .inl (Option.some.inj (hj.symm.trans h))
  · exact .inr (List.mem_eraseIdx_iff_getElem?.2 ⟨j, hjk, hj⟩)

theorem mem_or_mem_set {a b : α} (c : α) (h : l[k]? = some a) (hb : b ∈ l) :
    b = a ∨ b ∈ l.set k c := by
  obtain ⟨j, hj⟩ := List.mem_iff_getElem?.1 hb
  by_cases hkj : k = j
  · subst hkj
    exact .inl (Option.some.inj (hj.symm.trans h))
  · exact .inr (List.mem_iff_getElem?.2 ⟨j, (List.getElem?_set_ne hkj).trans hj⟩)

theorem getElem?_concat_cases {a b : α} (h : (l ++ [a])[k]? = some b) :
    l[k]? = some b ∨ (k = l.length ∧ b = a) := by
  rw [List.getElem?_append] at h
  split at h
  · exact .inl h
  · rw [List.getElem?_singleton] at h
    split at h
    · exact .inr ⟨by omega, (Option.some.inj h).symm⟩
    · cases h

theorem getElem?_concat_of_some {b : α} (a : α) (h : l[k]? = some b) :
    (l ++ [a])[k]? = some b :=
  (List.getElem?_append_left (List.getElem?_eq_some_iff.1 h).1).trans h

variable (step ok) [∀ s e, Decidable (ok s e)]

/-- The run of a list of events, stopped at the first one that is refused. -/
def exec : σ → List ε → Option σ
  | s, [] => some s
  | s, e :: es => if ok s e then
      match step s e with
      | some s' => exec s' es
      | none => none
    else none

variable {step ok}

theorem run_of_exec (es : List ε) (s s' : σ) (h : exec step ok s es = some s') :
    Run step ok s s' := by
  induction es generalizing s with
  | nil =>
    obtain rfl : s = s' := by simpa [exec] using h
    exact .refl
  | cons e es ih =>
    simp only [exec] at h
    split at h
    · rename_i hok
      split at h
      · rename_i t hstep
        exact (Run.tail e .refl hok hstep).trans (ih t h)
      · cases h
    · cases h

end Transition
