import Savoire.Index.DiskPasses

/-! Every run of the indexer of a vault on the disk: where it is quiet, the index is the one of the disk. -/
namespace Savoire.DesktopVaultIndexer
open Transition VaultIndex

variable {C : Type*} {host : Host C} {s s' : State C}

theorem step_inv (h : Inv host s) {e : Event C} (hclear : Clear host s e) (hstep : step host s e = some s') :
    Inv host s' := by
  cases e with
  | deliver k =>
    simp only [step] at hstep
    split at hstep
    · cases hstep
    · rename_i c hk
      obtain rfl := Option.some.inj hstep
      exact h.deliver hk
  | deliverDirectory =>
    simp only [step, Option.ite_none_right_eq_some, Option.some.injEq] at hstep
    obtain ⟨-, rfl⟩ := hstep
    exact h.told (fun _ => .inr (Bool.or_true _)) (fun e he => he) fun _ => .inl rfl
  | timer =>
    simp only [step, Option.ite_none_right_eq_some, Option.some.injEq] at hstep
    obtain ⟨-, rfl⟩ := hstep
    exact h.told (fun hf => hf) (fun e he => he) fun _ => .inr (by simp)
  | noteText id path content =>
    simp only [step] at hstep
    split at hstep
    · obtain rfl := Option.some.inj hstep
      refine h.told (fun hf => hf) (fun e he => he) fun hf => (h.flags hf).imp_right fun hmem => ?_
      exact List.mem_append_left _ hmem
    · obtain rfl := Option.some.inj hstep
      exact h
  | start =>
    simp only [step] at hstep
    split at hstep
    · rename_i hrun _
      obtain rfl := Option.some.inj hstep
      exact h.flush hrun
    · rename_i hrun hqueue
      obtain rfl := Option.some.inj hstep
      exact h.beginText hqueue hrun
    · cases hstep
  | listed ok =>
    simp only [step] at hstep
    split at hstep
    · rename_i hrun
      split at hstep
      · obtain rfl := Option.some.inj hstep
        exact h.listed hrun
      · rename_i hok
        obtain rfl := Option.some.inj hstep
        exact h.stop hrun (hclear.resolve_left hok _ hrun)
    · cases hstep
  | compared ok =>
    simp only [step] at hstep
    split at hstep
    · rename_i docs hrun
      split at hstep
      · have hinv := h.compared hrun rfl rfl
        split at hstep
        · rename_i hempty
          obtain rfl := Option.some.inj hstep
          rw [if_pos hempty] at hinv
          exact hinv
        · rename_i hempty
          obtain rfl := Option.some.inj hstep
          rw [if_neg hempty] at hinv
          exact hinv
      · rename_i hok
        obtain rfl := Option.some.inj hstep
        exact h.stop hrun (hclear.resolve_left hok _ hrun)
    · cases hstep
  | removed ok written =>
    simp only [step] at hstep
    split at hstep
    · rename_i jobs gone hrun
      split at hstep
      · rename_i hok
        obtain rfl := Option.some.inj hstep
        simp only [hok, Bool.true_or, reduceIte]
        exact h.removed hrun
      · rename_i hok
        obtain rfl := Option.some.inj hstep
        obtain ⟨hspared, hunsigned⟩ := hclear.resolve_left hok _ hrun
        cases written with
        | true => simpa [hok] using h.takenLost hrun hspared (hunsigned rfl)
        | false => simpa [hok] using h.stop hrun hspared
    · cases hstep
  | signed ok =>
    simp only [step] at hstep
    split at hstep
    · rename_i docs paths hrun
      obtain rfl := Option.some.inj hstep
      split
      · exact h.signed hrun
      · rename_i hok
        exact h.stop hrun (hclear.resolve_left hok _ hrun)
    · cases hstep
  | statted ok =>
    simp only [step] at hstep
    split at hstep
    · rename_i docs path paths seen jobs hrun
      have hinv := h.statted hrun (hclear.imp_right fun hspared => hspared _ hrun)
      split at hstep
      · rename_i hempty
        obtain rfl := Option.some.inj hstep
        rw [List.isEmpty_iff.mp hempty] at hinv
        exact hinv.readFound rfl
      · obtain rfl := Option.some.inj hstep
        exact hinv
    · cases hstep
  | read k ok =>
    simp only [step] at hstep
    split at hstep
    · rename_i initial todo chunk reads hrun
      split at hstep
      · cases hstep
      · rename_i job hk
        obtain rfl := Option.some.inj hstep
        exact h.read hrun hk (hclear.imp_right fun hspared => hspared _ hrun)
    · cases hstep
  | applied ok written =>
    simp only [step] at hstep
    split at hstep
    · rename_i initial todo reads hrun
      split at hstep
      · rename_i hok
        obtain rfl := Option.some.inj hstep
        simp only [hok, Bool.true_or, reduceIte]
        exact h.applied hrun
      · rename_i hok
        obtain rfl := Option.some.inj hstep
        obtain ⟨hspared, hunsigned⟩ := hclear.resolve_left hok _ hrun
        cases written with
        | true => simpa [hok] using h.batchLost hrun hspared (hunsigned rfl)
        | false => simpa [hok] using h.stop hrun hspared
    · cases hstep
  | marked ok =>
    simp only [step] at hstep
    split at hstep
    · rename_i hrun
      obtain rfl := Option.some.inj hstep
      exact h.marked hrun (hclear.imp_right fun hspared => hspared _ hrun)
    · cases hstep
  | noteApplied ok =>
    simp only [step] at hstep
    split at hstep
    · rename_i id path content hrun
      split at hstep
      · rename_i hok
        obtain rfl := Option.some.inj hstep
        exact h.noteApplied hrun (hclear hok _ hrun)
      · obtain rfl := Option.some.inj hstep
        exact h.stop hrun ⟨fun _ _ _ _ hpass => absurd hpass List.not_mem_nil, fun _ _ hpass => hpass.elim, fun hinit => by cases hinit⟩
    · cases hstep
  | _ => exact world_inv h hclear hstep

theorem start_inv {disk : Text → Option Nat} {states : Text → Nat} {directory : KeyedMap Text Text}
    {index : KeyedMap Text (Text × C)} {stored : KeyedMap Text Sig} {rebuildRequired : Bool}
    {notes : List (Text × Text × C)}
    (hsigned : NoReturn host (start disk states directory index stored rebuildRequired notes))
    (hpaths : UniquePaths host (start disk states directory index stored rebuildRequired notes)) :
    Inv host (start disk states directory index stored rebuildRequired notes) where
  unique := hpaths
  flags _ := .inr (List.mem_append_right _ List.mem_cons_self)
  matched _ _ := hsigned.matched
  due _ _ _ _ := .inr (.inl (.inl (.inr rfl)))
  gone _ _ := .inr (.inl (.inr rfl))
  jobs _ hrun := by cases hrun
  nodup _ hrun := by cases hrun
  stage _ hrun := by cases hrun
  built _ hfirst := by cases hfirst

/-- In a run where what fails is announced again, where the texts of the editor are placed and no source comes back
to a signed version, the index is the one of the disk once the indexer is quiet. -/
theorem index_agrees (host : Host C) (disk : Text → Option Nat) (states : Text → Nat)
    (directory : KeyedMap Text Text) (index : KeyedMap Text (Text × C)) (stored : KeyedMap Text Sig)
    (rebuildRequired : Bool) (notes : List (Text × Text × C)) (s : State C)
    (hsigned : NoReturn host (start disk states directory index stored rebuildRequired notes))
    (hpaths : UniquePaths host (start disk states directory index stored rebuildRequired notes))
    (hrun : Run (step host) (Clear host) (start disk states directory index stored rebuildRequired notes) s)
    (hquiet : Quiet host s) : Agrees host s := by
  have hinv := hrun.invariant (Inv host) (start_inv hsigned hpaths) fun s e s' h hclear hstep =>
    step_inv h hclear hstep
  exact hinv.agrees hquiet

/-- What ends without an error. -/
def Event.succeeds : Event C → Bool
  | .listed ok | .compared ok | .removed ok _ | .signed ok | .statted ok | .read _ ok | .applied ok _ | .marked ok
  | .noteApplied ok => ok
  | _ => true

/-- The guard of a run in which nothing fails. -/
def Smooth (host : Host C) (s : State C) (e : Event C) : Prop :=
  e.succeeds = true ∧ (∀ stage ∈ s.running, stage.Placed host s) ∧
    ∀ s' ∈ s.world e, NoReturn host s' ∧ UniquePaths host s'

theorem clear_of_smooth {e : Event C} (h : Smooth host s e) : Clear host s e := by
  obtain ⟨hok, hplaced, hworld⟩ := h
  cases e with
  | listed ok => exact .inl hok
  | compared ok => exact .inl hok
  | signed ok => exact .inl hok
  | marked ok => exact .inl hok
  | removed ok written => exact .inl hok
  | applied ok written => exact .inl hok
  | statted ok => exact .inl hok
  | read k ok => exact .inl hok
  | noteApplied ok => exact fun _ => hplaced
  | _ => exact hworld

section Decidable
variable (host : Host C) (s : State C) [DecidableEq C]

instance (id : Text) (sig : Sig) : Decidable (Matched host s id sig) := inferInstanceAs (Decidable (_ ∨ _))

instance (r : Job × Option C) : Decidable (ReadOk host s r) := inferInstanceAs (Decidable (_ ∨ _))

instance : Decidable (NoReturn host s) := inferInstanceAs (Decidable (_ ∧ _))

instance : Decidable (UniquePaths host s) := inferInstanceAs (Decidable (List.Nodup _))

instance : Decidable s.FullDue := inferInstanceAs (Decidable (_ ∨ _))

instance : DecidablePred (Stage.Placed host s)
  | .noteText .. => inferInstanceAs (Decidable (_ ∧ _))
  | .listing | .comparing _ | .removing .. | .signing .. | .statting .. | .reading .. | .marking => isTrue trivial

instance (e : Event C) : Decidable (Smooth host s e) := inferInstanceAs (Decidable (_ ∧ _))

end Decidable

/-- Markdown files, whose versions are their contents. -/
def exampleHost : Host Nat where
  lower := ⟨id, rfl⟩
  isText _ := true
  text version := version
  noteInputFromUpdates _ _ := none
  batchSize := 100

def exampleStart : State Nat :=
  start (Function.update (fun _ => none) "a.md".toList (some 1)) (fun _ => 0)
    (KeyedMap.empty.set "a".toList "a.md".toList) KeyedMap.empty KeyedMap.empty true []

theorem index_agrees_written : ∃ s, s.files "a.md".toList = some 2 ∧
    s.index.get "a".toList = some ("a.md".toList, 2) ∧ Agrees exampleHost s := by
  have hrun : Run (step exampleHost) (Smooth exampleHost) exampleStart _ := run_of_exec
    [.start, .listed true, .compared true, .read 0 true, .write "a.md".toList 2, .applied true true, .marked true,
      .deliver 0, .timer, .start, .signed true, .statted true, .read 0 true, .applied true true] _ _ rfl
  refine ⟨_, ?_, ?_, index_agrees exampleHost _ _ _ _ _ _ _ _ (by decide +kernel) (by decide +kernel)
    (hrun.weaken fun _ _ => clear_of_smooth) ⟨rfl, rfl, rfl, rfl, rfl, fun _ => rfl, ?_⟩⟩
  · decide +kernel
  · decide +kernel
  · intro id sig hsig v hv e he htext
    cases htext

/-- A note that could not be read once is not read again, although nothing else fails. -/
theorem index_incomplete : ∃ s, Run (step exampleHost) (fun _ _ => True) exampleStart s ∧ Quiet exampleHost s ∧
    ¬ Agrees exampleHost s := by
  have hrun : Run (step exampleHost) (fun _ _ => True) exampleStart _ := run_of_exec
    [.start, .listed true, .compared true, .read 0 false, .applied true true, .marked true] _ _ rfl
  refine ⟨_, hrun, ⟨rfl, rfl, rfl, rfl, rfl, fun _ => rfl, ?_⟩, fun h => ?_⟩
  · intro id sig hsig v hv e he htext
    cases htext
  · have hindexed := h.indexed "a".toList ⟨"a.md".toList, some 1⟩ (by decide +kernel) 1 rfl 1 rfl
    revert hindexed
    decide +kernel

end Savoire.DesktopVaultIndexer
