import Mathlib.Data.List.Perm.Basic
import Mathlib.Data.List.Range
import Savoire.Library.Transition

/-! The local index of the vault that is open: attached and detached at any moment, while indexes open and close. -/
namespace Savoire.LocalIndex
open Transition

inductive Kind
  | native
  | wasm
  deriving DecidableEq

/-- An index that was opened; the number says which. -/
structure Binding (ν : Type*) where
  number : ℕ
  kind : Kind
  vault : ν

structure Session where
  indexer : Bool

/-- The profiles. -/
structure Host (ν : Type*) where
  pathOfVault : ν → Bool
  isLocal : Bool
  hasWorker : Bool

/-- An opening asked for by `attach`: it comes after so many closings. -/
structure Waiting (ν : Type*) where
  gen : ℕ
  kind : Kind
  vault : ν
  after : ℕ

structure Opening (ν : Type*) where
  gen : ℕ
  kind : Kind
  vault : ν

/-- A link of the chain `closing`. -/
structure Closing (ν : Type*) where
  binding : Binding ν
  started : Bool

/-- The services, what they set on the providers, and their promises. Beside it the vault of the last `attach`, if no
`detach` came after it, how many indexes were opened and which were disposed of. -/
structure Services (ν : Type*) where
  binding : Option (Binding ν)
  gen : ℕ
  owns : Bool
  mirror : Option (Binding ν)
  queryEngine : Option (Binding ν)
  searchEngine : Option (Binding ν)
  powers : Option (Binding ν)
  closing : List (Closing ν)
  closed : ℕ
  waiting : List (Waiting ν)
  opening : List (Opening ν)
  late : List (Binding ν)
  attached : Option ν
  opened : ℕ
  disposed : List ℕ

variable {ν : Type*}

def Services.init : Services ν :=
  ⟨none, 0, false, none, none, none, none, [], 0, [], [], [], none, 0, []⟩

/-- Which index `attach` opens. -/
def opener (host : Host ν) (session : Option Session) (vaultId : Option ν) : Option (Kind × ν) :=
  match session, vaultId with
  | some session, some vault =>
    if session.indexer then none
    else if host.pathOfVault vault then some (.native, vault)
    else if host.isLocal && host.hasWorker then some (.wasm, vault)
    else none
  | _, _ => none

namespace Services

def detach (s : Services ν) : Services ν :=
  { s with
    gen := s.gen + 1
    mirror := none
    queryEngine := if s.owns then none else s.queryEngine
    searchEngine := if s.owns then none else s.searchEngine
    powers := if s.owns then none else s.powers
    owns := false
    binding := none
    closing := s.closing ++ s.binding.toList.map fun old => ⟨old, false⟩
    attached := none }

def attach (s : Services ν) (host : Host ν) (session : Option Session) (vaultId : Option ν) : Services ν :=
  let s := { s.detach with attached := vaultId }
  match opener host session vaultId with
  | none => s
  | some (kind, vault) =>
    { s with waiting := s.waiting ++ [⟨s.gen, kind, vault, s.closed + s.closing.length⟩] }

def bind (s : Services ν) (binding : Binding ν) : Services ν :=
  { s with
    binding := some binding
    owns := true
    mirror := some binding
    queryEngine := some binding
    searchEngine := some binding
    powers := if binding.kind = .native then some binding else s.powers }

/-- The closings before it have settled. -/
def start (s : Services ν) (i : ℕ) : Option (Services ν) := do
  let w ← s.waiting[i]?
  if w.after ≤ s.closed then
    let s := { s with waiting := s.waiting.eraseIdx i }
    some (if w.gen = s.gen then { s with opening := s.opening ++ [⟨w.gen, w.kind, w.vault⟩] } else s)
  else none

/-- An opening gives an index, or it gives none or fails. -/
def arrive (s : Services ν) (i : ℕ) (success : Bool) : Option (Services ν) := do
  let o ← s.opening[i]?
  let s := { s with opening := s.opening.eraseIdx i }
  if success then
    let binding : Binding ν := ⟨s.opened, o.kind, o.vault⟩
    let s := { s with opened := s.opened + 1 }
    some (if o.gen ≠ s.gen then { s with late := s.late ++ [binding], disposed := s.disposed ++ [binding.number] }
      else s.bind binding)
  else some s

/-- The first link of the chain calls `dispose`. -/
def closeStart (s : Services ν) : Option (Services ν) :=
  match s.closing with
  | ⟨old, false⟩ :: rest =>
    some { s with closing := ⟨old, true⟩ :: rest, disposed := s.disposed ++ [old.number] }
  | _ => none

/-- It settles, also when `dispose` fails. -/
def closeEnd (s : Services ν) : Option (Services ν) :=
  match s.closing with
  | ⟨_, true⟩ :: rest => some { s with closing := rest, closed := s.closed + 1 }
  | _ => none

end Services

inductive Event (ν : Type*)
  | attach (session : Option Session) (vaultId : Option ν)
  | detach
  | start (i : ℕ)
  | arrive (i : ℕ) (success : Bool)
  | closeStart
  | closeEnd
  | lateEnd (i : ℕ)

def step (host : Host ν) (s : Services ν) : Event ν → Option (Services ν)
  | .attach session vaultId => some (s.attach host session vaultId)
  | .detach => some s.detach
  | .start i => s.start i
  | .arrive i success => s.arrive i success
  | .closeStart => s.closeStart
  | .closeEnd => s.closeEnd
  | .lateEnd i => if i < s.late.length then some { s with late := s.late.eraseIdx i } else none

namespace Services

/-- How many indexes are open or being opened. -/
def inUse (s : Services ν) : ℕ :=
  s.binding.toList.length + s.opening.length + s.closing.length + s.late.length

/-- The indexes that were not disposed of. -/
def kept (s : Services ν) : List ℕ :=
  (s.binding.toList ++ (s.closing.filter fun c => !c.started).map Closing.binding).map Binding.number

/-- Every index that was opened is the current one, waits in the chain, or was disposed of once; the current one and
what the providers hold is the index of the vault attached last. -/
structure Sound (s : Services ν) : Prop where
  once : (s.kept ++ s.disposed).Perm (List.range s.opened)
  vault : ∀ b, s.binding = some b → s.attached = some b.vault
  mirror : s.mirror = s.binding
  queryEngine : s.queryEngine = s.binding
  searchEngine : s.searchEngine = s.binding
  powers : s.powers = s.binding.filter fun b => decide (b.kind = .native)

/-- What every step keeps. -/
structure Inv (s : Services ν) : Prop where
  sound : s.Sound
  owns : s.owns = s.binding.isSome
  waiting_le : ∀ w ∈ s.waiting, w.gen ≤ s.gen
  opening_le : ∀ o ∈ s.opening, o.gen ≤ s.gen
  waiting : ∀ w ∈ s.waiting, w.gen = s.gen → s.attached = some w.vault ∧ w.after = s.closed + s.closing.length
  opening : ∀ o ∈ s.opening, o.gen = s.gen → s.attached = some o.vault
  one : s.waiting.countP (fun w => w.gen = s.gen) + s.opening.countP (fun o => o.gen = s.gen) +
    s.binding.toList.length ≤ 1

variable {s s' : Services ν} {host : Host ν}

theorem perm_eraseIdx {α : Type*} {l : List α} {i : ℕ} {a : α} (h : l[i]? = some a) : (a :: l.eraseIdx i).Perm l := by
  obtain ⟨hi, rfl⟩ := List.getElem?_eq_some_iff.1 h
  exact List.getElem_cons_eraseIdx_perm hi

theorem inv_init : (init : Services ν).Inv where
  sound := ⟨List.Perm.refl _, by simp [init], rfl, rfl, rfl, rfl⟩
  owns := rfl
  waiting_le := by simp [init]
  opening_le := by simp [init]
  waiting := by simp [init]
  opening := by simp [init]
  one := by simp [init]

theorem countP_next {α : Type*} {gen : α → ℕ} {l : List α} {n : ℕ} (h : ∀ a ∈ l, gen a ≤ n) :
    l.countP (fun a => gen a = n + 1) = 0 := by
  rw [List.countP_eq_zero]
  intro a ha
  have hle := h a ha
  simp only [decide_eq_true_eq]
  omega

theorem kept_detach (s : Services ν) : s.detach.kept.Perm s.kept := by
  simp only [kept, Services.detach, List.map_append, Option.toList_none, List.nil_append, List.filter_append]
  refine List.Perm.trans (List.Perm.of_eq ?_) List.perm_append_comm
  cases s.binding with
  | none => rfl
  | some b => rfl

theorem Inv.detach (h : s.Inv) : s.detach.Inv where
  sound := by
    have hslot {a : Option (Binding ν)} (ha : s.binding = none → a = none) : (if s.owns then none else a) = none := by
      rw [h.owns]
      cases hb : s.binding with
      | none => exact ha hb
      | some b => rfl
    refine ⟨(List.Perm.append_right _ (kept_detach s)).trans h.sound.once, by simp [Services.detach], rfl, ?_, ?_, ?_⟩
    · exact hslot fun hb => h.sound.queryEngine.trans hb
    · exact hslot fun hb => h.sound.searchEngine.trans hb
    · exact hslot fun hb => h.sound.powers.trans (by rw [hb]; rfl)
  owns := rfl
  waiting_le := fun w hw => Nat.le_succ_of_le (h.waiting_le w hw)
  opening_le := fun o ho => Nat.le_succ_of_le (h.opening_le o ho)
  waiting := by
    intro w hw hgen
    have hle := h.waiting_le w hw
    simp only [Services.detach] at hgen
    omega
  opening := by
    intro o ho hgen
    have hle := h.opening_le o ho
    simp only [Services.detach] at hgen
    omega
  one := by
    have hwaiting := countP_next h.waiting_le
    have hopening := countP_next h.opening_le
    change s.waiting.countP (fun w => w.gen = s.gen + 1) + s.opening.countP (fun o => o.gen = s.gen + 1) + 0 ≤ 1
    omega

theorem Inv.attach (h : s.Inv) (session : Option Session) (vaultId : Option ν) :
    (s.attach host session vaultId).Inv := by
  have hd := h.detach
  have hwaiting := countP_next h.waiting_le
  have hopening := countP_next h.opening_le
  have hold : { s.detach with attached := vaultId }.Inv := by
    refine ⟨⟨hd.sound.once, ?_, hd.sound.mirror, hd.sound.queryEngine, hd.sound.searchEngine, hd.sound.powers⟩, hd.owns,
      hd.waiting_le, hd.opening_le, ?_, ?_, hd.one⟩
    · intro b hb
      cases hb
    · intro w hw hgen
      have hle := h.waiting_le w hw
      simp only [Services.detach] at hgen
      omega
    · intro o ho hgen
      have hle := h.opening_le o ho
      simp only [Services.detach] at hgen
      omega
  unfold Services.attach
  split
  · exact hold
  · rename_i kind vault hopen
    have hvault : vaultId = some vault := by
      unfold opener at hopen
      grind
    constructor
    · exact ⟨hold.sound.once, hold.sound.vault, hold.sound.mirror, hold.sound.queryEngine, hold.sound.searchEngine,
        hold.sound.powers⟩
    · exact hold.owns
    · intro w hw
      rcases List.mem_append.1 hw with hw | hw
      · exact hold.waiting_le w hw
      · rw [List.mem_singleton.1 hw]
    · exact hold.opening_le
    · intro w hw hgen
      rcases List.mem_append.1 hw with hw | hw
      · exact hold.waiting w hw hgen
      · rw [List.mem_singleton.1 hw]
        exact ⟨hvault, rfl⟩
    · exact hold.opening
    · change (s.waiting ++ [_]).countP (fun w : Waiting ν => w.gen = s.gen + 1) +
        s.opening.countP (fun o => o.gen = s.gen + 1) + 0 ≤ 1
      rw [List.countP_append, hwaiting, hopening, List.countP_singleton]
      split <;> omega

theorem countP_taken {α : Type*} (gen : α → ℕ) (n : ℕ) {l : List α} {i : ℕ} {a : α} (h : l[i]? = some a) :
    l.countP (fun a => gen a = n) = (l.eraseIdx i).countP (fun a => gen a = n) + if gen a = n then 1 else 0 := by
  rw [← (perm_eraseIdx h).countP_eq, List.countP_cons]
  simp

theorem Inv.start {i : ℕ} (h : s.Inv) (hstep : s.start i = some s') : s'.Inv := by
  obtain ⟨w, hw, hstep⟩ := Option.bind_eq_some_iff.1 hstep
  have hmem := List.mem_of_getElem? hw
  have hcount := countP_taken Waiting.gen s.gen hw
  have hone := h.one
  obtain ⟨-, rfl⟩ := Option.ite_some_none_eq_some.1 hstep
  have hrest : { s with waiting := s.waiting.eraseIdx i }.Inv := by
    refine ⟨⟨h.sound.once, h.sound.vault, h.sound.mirror, h.sound.queryEngine, h.sound.searchEngine, h.sound.powers⟩,
      h.owns, ?_, h.opening_le, ?_, h.opening, ?_⟩
    · exact fun w hw => h.waiting_le w (List.mem_of_mem_eraseIdx hw)
    · exact fun w hw => h.waiting w (List.mem_of_mem_eraseIdx hw)
    · change (s.waiting.eraseIdx i).countP (fun w => w.gen = s.gen) + s.opening.countP (fun o => o.gen = s.gen) +
        s.binding.toList.length ≤ 1
      omega
  split
  · rename_i hgen
    rw [if_pos hgen] at hcount
    constructor
    · exact ⟨h.sound.once, h.sound.vault, h.sound.mirror, h.sound.queryEngine, h.sound.searchEngine, h.sound.powers⟩
    · exact h.owns
    · exact hrest.waiting_le
    · intro o ho
      rcases List.mem_append.1 ho with ho | ho
      · exact h.opening_le o ho
      · rw [List.mem_singleton.1 ho]
        exact hgen.le
    · exact hrest.waiting
    · intro o ho hcurrent
      rcases List.mem_append.1 ho with ho | ho
      · exact h.opening o ho hcurrent
      · rw [List.mem_singleton.1 ho]
        exact (h.waiting w hmem hgen).1
    · change (s.waiting.eraseIdx i).countP (fun w => w.gen = s.gen) +
        (s.opening ++ [_]).countP (fun o : Opening ν => o.gen = s.gen) + s.binding.toList.length ≤ 1
      rw [List.countP_append, List.countP_singleton, if_pos (by simpa using hgen)]
      omega
  · exact hrest

theorem Inv.arrive {i : ℕ} {success : Bool} (h : s.Inv) (hstep : s.arrive i success = some s') : s'.Inv := by
  obtain ⟨o, ho, hstep⟩ := Option.bind_eq_some_iff.1 hstep
  have hmem := List.mem_of_getElem? ho
  have hcount := countP_taken Opening.gen s.gen ho
  have hone := h.one
  have hrest : { s with opening := s.opening.eraseIdx i }.Inv := by
    refine ⟨⟨h.sound.once, h.sound.vault, h.sound.mirror, h.sound.queryEngine, h.sound.searchEngine, h.sound.powers⟩,
      h.owns, h.waiting_le, ?_, h.waiting, ?_, ?_⟩
    · exact fun o ho => h.opening_le o (List.mem_of_mem_eraseIdx ho)
    · exact fun o ho => h.opening o (List.mem_of_mem_eraseIdx ho)
    · change s.waiting.countP (fun w => w.gen = s.gen) + (s.opening.eraseIdx i).countP (fun o => o.gen = s.gen) +
        s.binding.toList.length ≤ 1
      omega
  cases success with
  | false =>
    obtain rfl := Option.some.inj hstep
    exact hrest
  | true =>
    obtain rfl := Option.some.inj hstep
    split
    · constructor
      · refine ⟨?_, h.sound.vault, h.sound.mirror, h.sound.queryEngine, h.sound.searchEngine, h.sound.powers⟩
        rw [← List.append_assoc, List.range_succ]
        exact List.Perm.append_right _ h.sound.once
      · exact h.owns
      · exact hrest.waiting_le
      · exact hrest.opening_le
      · exact hrest.waiting
      · exact hrest.opening
      · exact hrest.one
    · rename_i hgen
      have hgen : o.gen = s.gen := not_not.1 hgen
      rw [if_pos hgen] at hcount
      have hnone : s.binding = none := by
        cases hb : s.binding with
        | none => rfl
        | some b =>
          rw [hb] at hone
          simp only [Option.toList_some, List.length_singleton] at hone
          omega
      constructor
      · refine ⟨?_, ?_, rfl, rfl, rfl, ?_⟩
        · have honce := h.sound.once
          rw [kept, hnone] at honce
          change (s.opened :: (_ ++ s.disposed)).Perm (List.range (s.opened + 1))
          rw [List.range_succ]
          exact (List.Perm.cons s.opened honce).trans (List.perm_append_singleton _ _).symm
        · intro b hb
          obtain rfl := Option.some.inj hb
          exact h.opening o hmem hgen
        · have hpowers := h.sound.powers
          rw [hnone] at hpowers
          change (if o.kind = .native then some _ else s.powers) =
            Option.filter _ (some (⟨s.opened, o.kind, o.vault⟩ : Binding ν))
          rw [hpowers, Option.filter_none, Option.filter_some]
          simp
      · rfl
      · exact hrest.waiting_le
      · exact hrest.opening_le
      · exact hrest.waiting
      · exact hrest.opening
      · change s.waiting.countP (fun w => w.gen = s.gen) + (s.opening.eraseIdx i).countP (fun o => o.gen = s.gen) +
          1 ≤ 1
        omega

theorem Inv.closeStart (h : s.Inv) (hstep : s.closeStart = some s') : s'.Inv := by
  unfold Services.closeStart at hstep
  split at hstep
  · rename_i old rest hclosing
    obtain rfl := Option.some.inj hstep
    refine ⟨⟨?_, h.sound.vault, h.sound.mirror, h.sound.queryEngine, h.sound.searchEngine, h.sound.powers⟩, h.owns,
      h.waiting_le, h.opening_le, ?_, h.opening, h.one⟩
    · have honce := h.sound.once
      simp only [kept, hclosing, List.filter_cons, Bool.not_false, Bool.not_true, if_true, Bool.false_eq_true, if_false,
        List.map_append, List.map_cons, List.append_assoc, List.cons_append] at honce ⊢
      refine List.Perm.trans (List.Perm.append_left _ ?_) honce
      rw [← List.append_assoc]
      exact List.perm_append_singleton _ _
    · intro w hw hgen
      have hwaiting := h.waiting w hw hgen
      rw [hclosing] at hwaiting
      exact hwaiting
  · cases hstep

theorem Inv.closeEnd (h : s.Inv) (hstep : s.closeEnd = some s') : s'.Inv := by
  unfold Services.closeEnd at hstep
  split at hstep
  · rename_i old rest hclosing
    obtain rfl := Option.some.inj hstep
    refine ⟨⟨?_, h.sound.vault, h.sound.mirror, h.sound.queryEngine, h.sound.searchEngine, h.sound.powers⟩, h.owns,
      h.waiting_le, h.opening_le, ?_, h.opening, h.one⟩
    · have honce := h.sound.once
      rwa [kept, hclosing] at honce
    · intro w hw hgen
      have hwaiting := h.waiting w hw hgen
      rw [hclosing, List.length_cons] at hwaiting
      exact ⟨hwaiting.1, by simp only; omega⟩
  · cases hstep

theorem Inv.step {e : Event ν} (h : s.Inv) (hstep : LocalIndex.step host s e = some s') : s'.Inv := by
  cases e with
  | attach session vaultId =>
    obtain rfl := Option.some.inj hstep
    exact h.attach session vaultId
  | detach =>
    obtain rfl := Option.some.inj hstep
    exact h.detach
  | start i => exact h.start hstep
  | arrive i success => exact h.arrive hstep
  | closeStart => exact h.closeStart hstep
  | closeEnd => exact h.closeEnd hstep
  | lateEnd i =>
    simp only [LocalIndex.step] at hstep
    obtain ⟨-, rfl⟩ := Option.ite_some_none_eq_some.1 hstep
    exact ⟨⟨h.sound.once, h.sound.vault, h.sound.mirror, h.sound.queryEngine, h.sound.searchEngine, h.sound.powers⟩,
      h.owns, h.waiting_le, h.opening_le, h.waiting, h.opening, h.one⟩

end Services

variable {s s' : Services ν} {host : Host ν}

/-- An opening starts when no earlier one is still under way and no index that came too late is being closed. -/
def Alone (s : Services ν) : Event ν → Prop
  | .start i => ∀ w ∈ s.waiting[i]?, w.gen = s.gen → s.opening = [] ∧ s.late = []
  | _ => True

instance (s : Services ν) (e : Event ν) : Decidable (Alone s e) :=
  match e with
  | .start i => inferInstanceAs (Decidable (∀ w ∈ s.waiting[i]?, w.gen = s.gen → s.opening = [] ∧ s.late = []))
  | .attach _ _ | .detach | .arrive _ _ | .closeStart | .closeEnd | .lateEnd _ => .isTrue trivial

theorem inv_run (h : Run (step host) (fun _ _ => True) .init s) : s.Inv :=
  h.invariant _ Services.inv_init fun _ _ _ hs _ hstep => hs.step hstep

namespace Services

/-- Only an opening that starts adds to the indexes in use. -/
theorem inUse_step {e : Event ν} (h : s.Inv) (hok : Alone s e) (huse : s.inUse ≤ 1)
    (hstep : step host s e = some s') : s'.inUse ≤ 1 := by
  have hdetach : s.detach.inUse ≤ 1 := by
    simp only [inUse, Services.detach, List.length_append, List.length_map, Option.toList_none,
      List.length_nil] at huse ⊢
    omega
  cases e with
  | attach session vaultId =>
    obtain rfl := Option.some.inj hstep
    unfold Services.attach
    split
    · exact hdetach
    · exact hdetach
  | detach =>
    obtain rfl := Option.some.inj hstep
    exact hdetach
  | start i =>
    obtain ⟨w, hw, hstep⟩ := Option.bind_eq_some_iff.1 hstep
    have hone := h.one
    have hcount := countP_taken Waiting.gen s.gen hw
    split at hstep
    · obtain rfl := Option.some.inj hstep
      split
      · rename_i hgen
        obtain ⟨hopening, hlate⟩ := hok w hw hgen
        have hwait := (h.waiting w (List.mem_of_getElem? hw) hgen).2
        rw [if_pos hgen] at hcount
        change s.binding.toList.length + (s.opening ++ [_]).length + s.closing.length + s.late.length ≤ 1
        rw [hopening, hlate]
        simp only [List.nil_append, List.length_singleton, List.length_nil]
        omega
      · exact huse
    · cases hstep
  | arrive i success =>
    obtain ⟨o, ho, hstep⟩ := Option.bind_eq_some_iff.1 hstep
    have hlen := (perm_eraseIdx ho).length_eq
    simp only [inUse, List.length_cons] at huse hlen
    cases success with
    | false =>
      obtain rfl := Option.some.inj hstep
      simp only [inUse]
      omega
    | true =>
      obtain rfl := Option.some.inj hstep
      split
      · simp only [inUse, List.length_append, List.length_singleton]
        omega
      · simp only [inUse, Services.bind, Option.toList_some, List.length_singleton]
        omega
  | closeStart =>
    simp only [step, Services.closeStart] at hstep
    split at hstep
    · rename_i old rest hclosing
      obtain rfl := Option.some.inj hstep
      rwa [inUse, hclosing] at huse
    · cases hstep
  | closeEnd =>
    simp only [step, Services.closeEnd] at hstep
    split at hstep
    · rename_i old rest hclosing
      obtain rfl := Option.some.inj hstep
      simp only [inUse, hclosing, List.length_cons] at huse ⊢
      omega
    · cases hstep
  | lateEnd i =>
    simp only [step] at hstep
    obtain ⟨-, rfl⟩ := Option.ite_some_none_eq_some.1 hstep
    simp only [inUse, List.length_eraseIdx] at huse ⊢
    split <;> omega

theorem two_of_not_alone {e : Event ν} (h : ¬Alone s e) (hstep : step host s e = some s') : 1 < s'.inUse := by
  cases e with
  | start i =>
    obtain ⟨w, hw, hstep⟩ := Option.bind_eq_some_iff.1 hstep
    simp only [Alone, not_forall] at h
    obtain ⟨w', hw', hgen, hbusy⟩ := h
    obtain rfl := Option.some.inj (hw.symm.trans hw')
    obtain ⟨-, rfl⟩ := Option.ite_some_none_eq_some.1 hstep
    rw [if_pos hgen]
    simp only [inUse, List.length_append, List.length_singleton]
    by_contra hle
    apply hbusy
    constructor
    · apply List.eq_nil_of_length_eq_zero
      omega
    · apply List.eq_nil_of_length_eq_zero
      omega
  | _ => exact absurd trivial h

end Services

theorem single_run (h : Run (step host) Alone .init s) : s.inUse ≤ 1 := by
  have hboth : s.Inv ∧ s.inUse ≤ 1 := by
    refine h.invariant (fun s => s.Inv ∧ s.inUse ≤ 1) ⟨Services.inv_init, Nat.zero_le 1⟩ ?_
    intro s e s' hs hok hstep
    exact ⟨hs.1.step hstep, Services.inUse_step hs.1 hok hs.2 hstep⟩
  exact hboth.2

/-- In every run the current index is that of the vault attached last and no index is disposed of twice; there is one
at a time as long as every opening starts alone, and no longer. -/
theorem local_index_runs (host : Host ν) :
    (∀ s, Run (step host) (fun _ _ => True) .init s → s.Sound ∧ ∀ s', step host s .detach = some s' →
      s'.mirror = none ∧ s'.queryEngine = none ∧ s'.searchEngine = none ∧ s'.powers = none) ∧
    (∀ s, Run (step host) Alone .init s → s.inUse ≤ 1) ∧
    ∀ s e s', Run (step host) (fun _ _ => True) .init s → step host s e = some s' → ¬Alone s e → 1 < s'.inUse := by
  refine ⟨fun s h => ⟨(inv_run h).sound, fun s' hstep => ?_⟩, fun s h => single_run h, fun s e s' _ hstep h =>
    Services.two_of_not_alone h hstep⟩
  obtain rfl := Option.some.inj hstep
  have hsound := (inv_run h).detach.sound
  exact ⟨hsound.mirror, hsound.queryEngine, hsound.searchEngine, hsound.powers⟩

def browser : Host ℕ := ⟨fun _ => false, true, true⟩

/-- A vault is opened, then another one. -/
theorem local_index_runs_two : ∃ s, Run (step browser) Alone .init s ∧ s.inUse ≤ 1 ∧ s.disposed = [0] ∧
    s.opening.length = 1 := by
  have hrun : Run (step browser) Alone .init _ := run_of_exec ([.attach (some ⟨false⟩) (some 4), .start 0,
    .arrive 0 true, .attach (some ⟨false⟩) (some 7), .closeStart, .closeEnd, .start 0] : List (Event ℕ)) _ _ rfl
  exact ⟨_, hrun, (local_index_runs browser).2.1 _ hrun, rfl, rfl⟩

/-- The second vault is attached while the index of the first is being opened. -/
theorem two_openings : ¬∀ s, Run (step browser) (fun _ _ => True) .init s → s.inUse ≤ 1 := by
  intro h
  have hrun : Run (step browser) (fun _ _ => True) .init _ := run_of_exec ([.attach (some ⟨false⟩) (some 4), .start 0,
    .attach (some ⟨false⟩) (some 7), .start 0] : List (Event ℕ)) _ _ rfl
  exact absurd (h _ hrun) (by decide)

end Savoire.LocalIndex
