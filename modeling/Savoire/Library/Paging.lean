import Mathlib.Data.List.Sort
import Savoire.Library.Transition

/-! A list in order that is read page by page, each page from the cursor that the one before gave,
with limits that may change from one page to the next. -/
namespace Paging
open Transition (Run Steps)
variable {α γ : Type*} [LinearOrder α]

/-- What is left to read at a cursor (`none` at the start), and the page that is fetched there. The
proper cursors are those that pages give; `Fits` says when a page goes on from its cursor. -/
structure Source (α γ : Type*) [LinearOrder α] where
  fetch : Option γ → ℕ → Option (List α × Option γ)
  rest : Option γ → List α
  size : Option γ → ℕ
  Proper : Option γ → Prop
  Fits : Option γ → ℕ → Prop
  sorted : ∀ c, (rest c).Pairwise (· < ·)
  proper_none : Proper none
  page : ∀ c limit, 1 ≤ limit → Proper c → Fits c limit → ∃ hits next, fetch c limit = some (hits, next) ∧
    rest c = hits ++ next.elim [] (rest ∘ some) ∧ ∀ c' ∈ next, Proper (some c') ∧ size (some c') < size c

/-- What was delivered so far, and the cursor of the next call, if there is one. -/
structure State (α γ : Type*) where
  cursor : Option (Option γ)
  delivered : List α
  deriving DecidableEq

def step (fetch : Option γ → ℕ → Option (List α × Option γ)) (s : State α γ) (limit : ℕ) : Option (State α γ) :=
  s.cursor.bind fun c => (fetch c limit).map fun r => ⟨r.2.map some, s.delivered ++ r.1⟩

def start : State α γ := ⟨some none, []⟩

def Clear (source : Source α γ) (s : State α γ) (limit : ℕ) : Prop := 1 ≤ limit ∧ ∀ c ∈ s.cursor, source.Fits c limit

def left (source : Source α γ) (s : State α γ) : List α := s.cursor.elim [] source.rest

/-- How much the calls may still need. -/
def measure (source : Source α γ) (s : State α γ) : ℕ := s.cursor.elim 0 fun c => source.size c + 1

variable {source : Source α γ} {s s' : State α γ} {limit : ℕ}

theorem step_spec (hproper : ∀ c ∈ s.cursor, source.Proper c) (hclear : Clear source s limit)
    (h : step source.fetch s limit = some s') :
    s'.delivered ++ left source s' = s.delivered ++ left source s ∧ (∀ c ∈ s'.cursor, source.Proper c) ∧
      measure source s' < measure source s := by
  obtain ⟨hlimit, hfits⟩ := hclear
  unfold step at h
  cases hc : s.cursor with
  | none =>
    rw [hc] at h
    cases h
  | some c =>
    obtain ⟨hits, next, hfetch, hrest, hnext⟩ := source.page c limit hlimit (hproper c hc) (hfits c hc)
    rw [hc, Option.bind_some, hfetch] at h
    obtain rfl := Option.some.inj h
    have hleft : left source s = source.rest c := by rw [left, hc]; rfl
    have hmeasure : measure source s = source.size c + 1 := by rw [measure, hc]; rfl
    rw [hleft, hmeasure, hrest, ← List.append_assoc]
    cases next with
    | none => exact ⟨rfl, fun c hc => (by cases hc), Nat.succ_pos _⟩
    | some c' =>
      obtain ⟨hproper', hsize⟩ := hnext c' rfl
      refine ⟨rfl, fun c hc => ?_, Nat.succ_lt_succ hsize⟩
      obtain rfl := Option.some.inj hc
      exact hproper'

theorem run_delivered (h : Run (step source.fetch) (Clear source) start s) :
    s.delivered ++ left source s = source.rest none ∧ ∀ c ∈ s.cursor, source.Proper c := by
  refine h.invariant (fun s => s.delivered ++ left source s = source.rest none ∧ ∀ c ∈ s.cursor, source.Proper c)
    ⟨rfl, fun c hc => ?_⟩ fun _ _ _ hs hclear hstep => ?_
  · obtain rfl := Option.some.inj hc
    exact source.proper_none
  · obtain ⟨hrest, hproper, -⟩ := step_spec hs.2 hclear hstep
    exact ⟨hrest.trans hs.1, hproper⟩

theorem cursor_ne (hproper : ∀ c ∈ s.cursor, source.Proper c) (hclear : Clear source s limit)
    (h : step source.fetch s limit = some s') : s'.cursor ≠ s.cursor := by
  intro heq
  have hlt := (step_spec hproper hclear h).2.2
  rw [measure, measure, heq] at hlt
  exact lt_irrefl _ hlt

theorem steps_le {n : ℕ} (h : Steps (step source.fetch) (Clear source) start n s) :
    n + measure source s ≤ source.size none + 1 ∧ ∀ c ∈ s.cursor, source.Proper c := by
  induction h with
  | refl =>
    refine ⟨(Nat.zero_add _).le, fun c hc => ?_⟩
    obtain rfl := Option.some.inj hc
    exact source.proper_none
  | tail limit _ hclear hstep ih =>
    obtain ⟨hle, hproper⟩ := ih
    obtain ⟨-, hproper', hlt⟩ := step_spec hproper hclear hstep
    exact ⟨by omega, hproper'⟩

/-- Calls with their answers, read to the end: they deliver what comes first of a list, then all of it;
each call goes on, and there are not more than some number of calls. -/
structure Delivers (page : Option γ → ℕ → Option (List α × Option γ)) (clear : State α γ → ℕ → Prop) (all : List α) :
    Prop where
  first : ∀ s, Run (step page) clear start s → s.delivered <+: all
  whole : ∀ s, Run (step page) clear start s → s.cursor = none → s.delivered = all
  goes_on : ∀ s limit s', Run (step page) clear start s → clear s limit → step page s limit = some s' → s'.cursor ≠ s.cursor
  ends : ∃ bound, ∀ n s, Steps (step page) clear start n s → n ≤ bound

theorem delivers {page : Option γ → ℕ → Option (List α × Option γ)} {clear : State α γ → ℕ → Prop}
    (h : ∀ s limit s', clear s limit → step page s limit = some s' → Clear source s limit ∧ step source.fetch s limit = some s') :
    Delivers page clear (source.rest none) where
  first s hrun := ⟨_, (run_delivered (hrun.imp h)).1⟩
  whole s hrun hend := by
    rw [← (run_delivered (hrun.imp h)).1, left, hend]
    exact (List.append_nil _).symm
  goes_on s limit s' hrun hclear hstep := by
    obtain ⟨hfits, hsource⟩ := h s limit s' hclear hstep
    exact cursor_ne (run_delivered (hrun.imp h)).2 hfits hsource
  ends := ⟨source.size none + 1, fun n s hsteps => by
    have hle := (steps_le (hsteps.imp h)).1
    omega⟩

end Paging
