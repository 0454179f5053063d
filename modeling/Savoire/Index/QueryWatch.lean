import Savoire.Library.Transition
import Mathlib.Data.List.Pairwise

/-! A watched query, of `VaultIndex` or through the port of `WorkerLocalIndex`: it runs again at each change,
at most once at a time, and what its last delivered result was read from. -/
namespace Savoire.QueryWatch
open Transition

/-- One `call('query', 'run', query)`: not read yet, read at a version of the index, answered but with its
`finally` to come, over. -/
inductive Run
  | calling
  | computed (version : Nat)
  | answered (failed : Bool)
  | over (failed : Bool)
  deriving DecidableEq

/-- `version` counts the changes of the index, `announced` is how far `changed` has told them to the watch.
`delivered` are the results given to the callback: the run and the version it read. -/
structure Watch where
  stopped : Bool
  running : Bool
  again : Bool
  version : Nat
  announced : Nat
  runs : List Run
  delivered : List (Nat × Nat)
  deriving DecidableEq

inductive Event
  /-- The index changes; `changed` comes later, through the port for a worker. -/
  | change
  | changed (version : Nat)
  | compute (run : Nat)
  | resolve (run : Nat)
  | reject (run : Nat)
  | settled (run : Nat)
  | stop

namespace Watch

def run (w : Watch) : Watch :=
  if w.stopped then w
  else if w.running then { w with again := true }
  else { w with running := true, runs := w.runs ++ [.calling] }

/-- `.finally` of a run -/
def finish (w : Watch) : Watch :=
  let w := { w with running := false }
  if w.again then run { w with again := false } else w

def put (w : Watch) (r : Nat) (stage : Run) : Watch := { w with runs := w.runs.set r stage }

end Watch

/-- `watch` on an index at a version: it runs at once. -/
def start (version : Nat) : Watch := Watch.run ⟨false, false, false, version, version, [], []⟩

def step (w : Watch) : Event → Option Watch
  | .change => some { w with version := w.version + 1 }
  | .changed v => if w.announced ≤ v ∧ v ≤ w.version then some (Watch.run { w with announced := v }) else none
  | .compute r => match w.runs[r]? with
    | some .calling => some (w.put r (.computed w.version))
    | _ => none
  | .resolve r => match w.runs[r]? with
    | some (.computed v) =>
      let w' := w.put r (.answered false)
      some (if w.stopped then w' else { w' with delivered := w.delivered ++ [(r, v)] })
    | _ => none
  | .reject r => match w.runs[r]? with
    | some .calling => some (w.put r (.answered true))
    | some (.computed _) => some (w.put r (.answered true))
    | _ => none
  | .settled r => match w.runs[r]? with
    | some (.answered failed) => some (w.put r (.over failed)).finish
    | _ => none
  | .stop => some { w with stopped := true }

/-- A run is in flight until its `finally`. -/
def Run.inFlight : Run → Bool
  | .over _ => false
  | _ => true

def Watch.idle (w : Watch) : Prop := ∀ r ∈ w.runs, r.inFlight = false

structure Ordered (w : Watch) : Prop where
  single (i j : Nat) (r s : Run) : w.runs[i]? = some r → r.inFlight = true → w.runs[j]? = some s →
    s.inFlight = true → i = j
  order : (w.delivered.map Prod.fst).Pairwise (· < ·)

def UpToDate (w : Watch) : Prop :=
  w.stopped = false → w.idle → ∃ r v, w.delivered.getLast? = some (r, v) ∧ w.announced ≤ v

def UpToDateUnlessFailed (w : Watch) : Prop :=
  w.stopped = false → w.idle → w.runs.getLast? = some (.over false) →
    ∃ v, w.delivered.getLast? = some (w.runs.length - 1, v) ∧ w.announced ≤ v

/-- What holds of the last run, the `n`th: all that was announced before it began is in what it reads. -/
def Current (w : Watch) (n : Nat) : Run → Prop
  | .calling => w.running = true ∧ ∀ d ∈ w.delivered, d.1 < n
  | .computed v => w.running = true ∧ (∀ d ∈ w.delivered, d.1 < n) ∧
      (w.stopped = false → w.again = false → w.announced ≤ v)
  | .answered failed => w.running = true ∧ (∀ d ∈ w.delivered, d.1 ≤ n) ∧
      (w.stopped = false → failed = false →
        ∃ v, w.delivered.getLast? = some (n, v) ∧ (w.again = false → w.announced ≤ v))
  | .over failed => w.running = false ∧ w.again = false ∧ (∀ d ∈ w.delivered, d.1 ≤ n) ∧
      (w.stopped = false → failed = false → ∃ v, w.delivered.getLast? = some (n, v) ∧ w.announced ≤ v)

structure Inv (w : Watch) : Prop where
  announced : w.announced ≤ w.version
  order : (w.delivered.map Prod.fst).Pairwise (· < ·)
  last : ∃ older r, w.runs = older ++ [r] ∧ (∀ x ∈ older, x.inFlight = false) ∧ Current w older.length r

theorem inv_start (version : Nat) : Inv (start version) :=
  ⟨Nat.le_refl _, List.Pairwise.nil, [], .calling, rfl, by simp, rfl, by simp [start, Watch.run]⟩

variable {older : List Run} {r : Run}

theorem of_inFlight {x : Run} {i : Nat} (holder : ∀ x ∈ older, x.inFlight = false)
    (hi : (older ++ [r])[i]? = some x) (hx : x.inFlight = true) : i = older.length ∧ x = r := by
  obtain hold | hlast := getElem?_concat_cases hi
  · have hover := holder x (List.mem_of_getElem? hold)
    rw [hx] at hover
    cases hover
  · exact hlast

theorem put_last (stage : Run) :
    (older ++ [r]).set older.length stage = older ++ [stage] := by
  simp

variable {w w' : Watch}

theorem Current.frozen {n : Nat} (h : Current w n r) (hstopped : w'.stopped = true)
    (hsame : w'.running = w.running ∧ w'.again = w.again ∧ w'.delivered = w.delivered) : Current w' n r := by
  obtain ⟨hrunning, hagain, hdelivered⟩ := hsame
  have howed : w'.stopped ≠ false := by simp [hstopped]
  cases r with
  | calling => exact ⟨hrunning.trans h.1, hdelivered ▸ h.2⟩
  | computed => exact ⟨hrunning.trans h.1, hdelivered ▸ h.2.1, fun hs => absurd hs howed⟩
  | answered => exact ⟨hrunning.trans h.1, hdelivered ▸ h.2.1, fun hs => absurd hs howed⟩
  | «over» => exact ⟨hrunning.trans h.1, hagain.trans h.2.1, hdelivered ▸ h.2.2.1, fun hs => absurd hs howed⟩

theorem Inv.run (hann : w.announced ≤ w.version) (hord : (w.delivered.map Prod.fst).Pairwise (· < ·))
    (hruns : w.runs = older ++ [r]) (holder : ∀ x ∈ older, x.inFlight = false)
    (hstopped : w.stopped = true → Current w older.length r)
    (hrunning : w.running = true → Current { w with again := true } older.length r)
    (hidle : w.running = false → r.inFlight = false ∧ ∀ d ∈ w.delivered, d.1 ≤ older.length) : Inv w.run := by
  unfold Watch.run
  split
  · rename_i hs
    exact ⟨hann, hord, older, r, hruns, holder, hstopped hs⟩
  · split
    · rename_i hr
      exact ⟨hann, hord, older, r, hruns, holder, hrunning hr⟩
    · rename_i hr
      obtain ⟨hover, hd⟩ := hidle (by simpa using hr)
      refine ⟨hann, hord, older ++ [r], .calling, by rw [← hruns], ?_, rfl, ?_⟩
      · intro x hx
        obtain hx | hx := List.mem_append.1 hx
        · exact holder x hx
        · rwa [List.mem_singleton.1 hx]
      · intro d hmem
        have hle := hd d hmem
        rw [List.length_append, List.length_singleton]
        omega

theorem Inv.changed (h : Inv w) {v : Nat} (hle : v ≤ w.version) :
    Inv (Watch.run { w with announced := v }) := by
  obtain ⟨-, hord, older, r, hruns, holder, hcur⟩ := h
  refine Inv.run hle hord hruns holder ?_ ?_ ?_
  · exact fun hstopped => hcur.frozen hstopped ⟨rfl, rfl, rfl⟩
  · intro hrunning
    cases r with
    | calling => exact hcur
    | computed => exact ⟨hcur.1, hcur.2.1, by simp⟩
    | answered failed =>
      refine ⟨hcur.1, hcur.2.1, ?_⟩
      intro hstopped hfailed
      obtain ⟨v', hv', -⟩ := hcur.2.2 hstopped hfailed
      exact ⟨v', hv', by simp⟩
    | «over» => simp [hcur.1] at hrunning
  · intro hrunning
    cases r with
    | «over» => exact ⟨rfl, hcur.2.2.1⟩
    | calling | computed | answered => simp [hcur.1] at hrunning

theorem Inv.finish (h : Inv w) {r : Nat} {failed : Bool} (hr : w.runs[r]? = some (.answered failed)) :
    Inv (w.put r (.over failed)).finish := by
  obtain ⟨hann, hord, older, cur, hruns, holder, hcur⟩ := h
  rw [hruns] at hr
  obtain ⟨rfl, rfl⟩ := of_inFlight holder hr rfl
  obtain ⟨-, hd, hlast⟩ := hcur
  have hruns' : (w.put older.length (.over failed)).runs = older ++ [.over failed] := by
    rw [Watch.put, hruns]
    exact put_last _
  unfold Watch.finish
  dsimp only
  split
  · refine Inv.run hann hord hruns' holder ?_ (fun hr => by cases hr) (fun _ => ⟨rfl, hd⟩)
    intro hstopped
    refine ⟨rfl, rfl, hd, ?_⟩
    intro hs
    rw [hstopped] at hs
    cases hs
  · rename_i hagain
    have hno : w.again = false := (Bool.not_eq_true _).mp hagain
    refine ⟨hann, hord, older, .over failed, hruns', holder, rfl, hno, hd, ?_⟩
    intro hs hf
    obtain ⟨v, hv, hle⟩ := hlast hs hf
    exact ⟨v, hv, hle hno⟩

theorem Inv.goOn (h : Inv w) {r : Nat} {x stage : Run} (hr : w.runs[r]? = some x)
    (hx : x.inFlight = true) (hann : w'.announced = w.announced ∧ w'.version = w.version)
    (hruns : w'.runs = w.runs.set r stage) (hord : (w'.delivered.map Prod.fst).Pairwise (· < ·))
    (hcur : ∀ n, r = n → Current w n x → Current w' n stage) : Inv w' := by
  obtain ⟨hle, -, older, cur, hold, holder, hcur'⟩ := h
  rw [hold] at hr
  obtain ⟨rfl, rfl⟩ := of_inFlight holder hr hx
  refine ⟨hann.1 ▸ hann.2 ▸ hle, hord, older, stage, ?_, holder, hcur _ rfl hcur'⟩
  rw [hruns, hold]
  exact put_last _

theorem Inv.deliver (h : Inv w) {r v : Nat} (hr : w.runs[r]? = some (.computed v)) :
    ((w.delivered ++ [(r, v)]).map Prod.fst).Pairwise (· < ·) := by
  obtain ⟨-, hord, older, cur, hruns, holder, hcur⟩ := h
  rw [hruns] at hr
  obtain ⟨rfl, rfl⟩ := of_inFlight holder hr rfl
  rw [List.map_append, List.pairwise_append]
  refine ⟨hord, List.pairwise_singleton _ _, ?_⟩
  intro a ha b hb
  obtain ⟨d, hd, rfl⟩ := List.mem_map.1 ha
  obtain rfl : b = older.length := by simpa using hb
  exact hcur.2.1 d hd

theorem step_inv (h : Inv w) (event : Event) (hstep : step w event = some w') : Inv w' := by
  cases event with
  | change =>
    obtain rfl := Option.some.inj hstep
    obtain ⟨hle, hord, older, r, hruns, holder, hcur⟩ := h
    exact ⟨Nat.le_succ_of_le hle, hord, older, r, hruns, holder, by cases r <;> exact hcur⟩
  | changed v =>
    simp only [step] at hstep
    obtain ⟨hv, rfl⟩ := Option.ite_some_none_eq_some.1 hstep
    exact h.changed hv.2
  | compute r =>
    simp only [step] at hstep
    split at hstep
    · rename_i hr
      obtain rfl := Option.some.inj hstep
      exact h.goOn hr rfl ⟨rfl, rfl⟩ rfl h.order fun n _ hcur => ⟨hcur.1, hcur.2, fun _ _ => h.announced⟩
    · cases hstep
  | resolve r =>
    simp only [step] at hstep
    split at hstep
    · rename_i v hr
      obtain rfl := Option.some.inj hstep
      split
      · rename_i hs
        refine h.goOn hr rfl ⟨rfl, rfl⟩ rfl h.order ?_
        intro n _ hcur
        refine ⟨hcur.1, fun d hd => Nat.le_of_lt (hcur.2.1 d hd), ?_⟩
        intro hs'
        have hno : w.stopped = false := hs'
        rw [hs] at hno
        cases hno
      · refine h.goOn hr rfl ⟨rfl, rfl⟩ rfl (h.deliver hr) ?_
        rintro n rfl hcur
        refine ⟨hcur.1, ?_, ?_⟩
        · intro d hd
          obtain hold | hnew := List.mem_append.1 hd
          · exact Nat.le_of_lt (hcur.2.1 d hold)
          · obtain rfl := List.mem_singleton.1 hnew
            exact Nat.le_refl _
        · exact fun hs' _ => ⟨v, List.getLast?_concat, hcur.2.2 hs'⟩
    · cases hstep
  | reject r =>
    simp only [step] at hstep
    split at hstep
    · rename_i hr
      obtain rfl := Option.some.inj hstep
      exact h.goOn hr rfl ⟨rfl, rfl⟩ rfl h.order fun n _ hcur =>
        ⟨hcur.1, fun d hd => Nat.le_of_lt (hcur.2 d hd), fun _ hf => by cases hf⟩
    · rename_i hr
      obtain rfl := Option.some.inj hstep
      exact h.goOn hr rfl ⟨rfl, rfl⟩ rfl h.order fun n _ hcur =>
        ⟨hcur.1, fun d hd => Nat.le_of_lt (hcur.2.1 d hd), fun _ hf => by cases hf⟩
    · cases hstep
  | settled r =>
    simp only [step] at hstep
    split at hstep
    · rename_i hr
      obtain rfl := Option.some.inj hstep
      exact h.finish hr
    · cases hstep
  | stop =>
    obtain rfl := Option.some.inj hstep
    obtain ⟨hle, hord, older, r, hruns, holder, hcur⟩ := h
    exact ⟨hle, hord, older, r, hruns, holder, hcur.frozen rfl ⟨rfl, rfl, rfl⟩⟩

/-- In every run of events the watch keeps to the order, and it is not stale at rest unless its last run
failed. -/
theorem never_stale {version : Nat} {w : Watch} (hrun : Transition.Run step (fun _ _ => True) (start version) w) :
    Ordered w ∧ UpToDateUnlessFailed w := by
  have hinv := hrun.invariant Inv (inv_start version) fun _ event _ h _ => step_inv h event
  obtain ⟨hann, hord, older, r, hruns, holder, hcur⟩ := hinv
  refine ⟨⟨?_, hord⟩, ?_⟩
  · intro i j x y hi hx hj hy
    rw [hruns] at hi hj
    exact (of_inFlight holder hi hx).1.trans (of_inFlight holder hj hy).1.symm
  · intro hs hidle hlast
    rw [hruns, List.getLast?_concat] at hlast
    obtain rfl := Option.some.inj hlast
    have hn : w.runs.length - 1 = older.length := by simp [hruns]
    rw [hn]
    exact hcur.2.2.2 hs rfl

/-- One change while a run is in flight: one more run. -/
theorem never_stale_changed :
    let w : Watch := ⟨false, false, false, 1, 1, [.over false, .over false], [(0, 0), (1, 1)]⟩
    Ordered w ∧ UpToDateUnlessFailed w :=
  @never_stale 0 _ (run_of_exec [.compute 0, .change, .changed 1, .resolve 0, .settled 0, .compute 1, .resolve 1,
    .settled 1] _ _ rfl)

/-- The run after a change fails: nothing is in flight, and the result shown is older than the change. -/
theorem stale_after_failure :
    ¬ ∀ (version : Nat) (w : Watch), Transition.Run step (fun _ _ => True) (start version) w → UpToDate w := by
  intro h
  have hrun : Transition.Run step (fun _ _ => True) (start 0)
      ⟨false, false, false, 1, 1, [.over false, .over true], [(0, 0)]⟩ :=
    run_of_exec [.compute 0, .resolve 0, .settled 0, .change, .changed 1, .reject 1, .settled 1] _ _ rfl
  have hidle : ∀ r ∈ [Run.over false, .over true], r.inFlight = false := by decide
  obtain ⟨r, v, hlast, hle⟩ := h 0 _ hrun rfl hidle
  have heq : (r, v) = (0, 0) := Option.some.inj hlast.symm
  obtain ⟨rfl, rfl⟩ := Prod.mk.inj heq
  revert hle
  decide

end Savoire.QueryWatch
