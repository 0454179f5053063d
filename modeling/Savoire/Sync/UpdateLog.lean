import Mathlib
import Savoire.Library.Join
import Savoire.Library.Transition

/-! The update log of a document directory shared by several sessions: every asynchronous step of
`append`, `flush`, `compact` and `readNew`, in any order. Each file name carries its session and a
number, so no name is written twice; `history` and `appended` only record what happened. -/
set_option linter.unusedSectionVars false
namespace Savoire.UpdateLog
open Join Transition

inductive Ext
  | update | state
  deriving DecidableEq

structure Name (σ : Type) where
  session : σ
  seq : Nat
  ext : Ext
  deriving DecidableEq

/-- A job of the `writing` chain. -/
inductive Job
  | flush
  | compact (force : Bool)
  deriving DecidableEq

/-- Where the running job stands: a write is in flight, has landed, or files are being deleted. -/
inductive Writing (σ U : Type)
  | idle
  | update (name : Name σ) (merged : U) (job : Job)
  | written (job : Job)
  | state (name : Name σ) (full : U) (old : List (Name σ)) (job : Job)
  | stateWritten (name : Name σ) (old : List (Name σ)) (job : Job)
  | deleting (old : List (Name σ)) (job : Job)
  | removing (file : Name σ) (old : List (Name σ)) (job : Job)

structure Session (σ U : Type) where
  replica : U
  seen : List (Name σ)
  pending : List U
  seq : Nat
  disposed : Bool
  writing : Writing σ U
  /-- Files that a `readNew` has listed, has read, and updates it holds for its caller. -/
  listed : List (Name σ)
  reading : List (Name σ × U)
  out : List U

structure State (σ U : Type) where
  files : List (Name σ × U)
  sessions : σ → Session σ U
  history : List (Name σ × U)
  appended : List U

def compactAfter : Nat := 32

inductive Action (U : Type)
  | append (update : U)
  | begin (job : Job)
  | land
  | fail
  | resume
  | unlink (done : Bool)
  | list
  | read (entry : Nat)
  | mark (entry : Nat)
  | apply (entry : Nat)
  | dispose

section
variable {σ U : Type} [DecidableEq σ] [SemilatticeSup U] [OrderBot U]

/-- `Set.add`, in insertion order. -/
def see (seen : List (Name σ)) (n : Name σ) : List (Name σ) :=
  if n ∈ seen then seen else seen ++ [n]

/-- `Set.delete`. -/
def unsee (seen : List (Name σ)) (n : Name σ) : List (Name σ) := seen.filter fun m => !(m == n)

/-- `writeCompacted` up to its write: the files known now, and the state that is to hold them. -/
def Session.writeCompacted (x : Session σ U) (i : σ) (job : Job) : Session σ U :=
  { x with writing := .state ⟨i, x.seq, .state⟩ x.replica x.seen job, seq := x.seq + 1 }

/-- What a job does once `writePending` has returned. -/
def Session.afterPending (x : Session σ U) (i : σ) : Job → Session σ U
  | .flush => { x with writing := .idle }
  | .compact force =>
    if x.seen.length ≤ 1 ∨ (force = false ∧ x.seen.length < compactAfter) then
      { x with writing := .idle }
    else x.writeCompacted i .flush

/-- `writePending` up to its write. -/
def Session.writePending (x : Session σ U) (i : σ) (job : Job) : Session σ U :=
  if x.pending = [] then x.afterPending i job
  else
    let name : Name σ := ⟨i, x.seq, .update⟩
    { x with
      pending := [], seen := see x.seen name, seq := x.seq + 1
      writing := .update name (joinAll x.pending) job }

/-- The steps that concern one session and no file. -/
def Session.act (x : Session σ U) (i : σ) (files : List (Name σ × U)) :
    Action U → Option (Session σ U)
  | .append u =>
    if x.disposed then some { x with replica := x.replica ⊔ u }
    else some { x with replica := x.replica ⊔ u, pending := x.pending ++ [u] }
  | .begin job => match x.writing with
    | .idle => some (x.writePending i job)
    | _ => none
  | .land => match x.writing with
    | .update _ _ job => some { x with writing := .written job }
    | .state name _ old job => some { x with writing := .stateWritten name old job }
    | _ => none
  | .fail => match x.writing with
    | .update name merged _ =>
      some { x with seen := unsee x.seen name, pending := merged :: x.pending, writing := .idle }
    | .state .. => some { x with writing := .idle }
    | _ => none
  | .resume => match x.writing with
    | .written job =>
      some (if compactAfter ≤ x.seen.length then x.writeCompacted i job else x.afterPending i job)
    | .stateWritten name old job =>
      some { x with seen := see x.seen name, writing := .deleting old job }
    | .deleting [] job => some (x.afterPending i job)
    | .deleting (f :: old) job =>
      some { x with seen := unsee x.seen f, writing := .removing f old job }
    | _ => none
  | .unlink _ => match x.writing with
    | .removing _ old job => some { x with writing := .deleting old job }
    | _ => none
  | .list => some { x with listed := x.listed ++ files.map (·.1) }
  | .read entry => match x.listed[entry]? with
    | some n =>
      if n ∈ x.seen then none
      else match files.find? fun f => f.1 == n with
        | some f => some { x with reading := x.reading ++ [f] }
        | none => none
    | none => none
  | .mark entry => match x.reading[entry]? with
    | some (n, u) => some
        { x with reading := x.reading.eraseIdx entry, seen := see x.seen n, out := x.out ++ [u] }
    | none => none
  | .apply entry => match x.out[entry]? with
    | some u => some { x with replica := x.replica ⊔ u, out := x.out.eraseIdx entry }
    | none => none
  | .dispose => some { x with disposed := true }

/-- The file that a landing write adds to the directory. -/
def Session.landing (x : Session σ U) : Action U → List (Name σ × U)
  | .land => match x.writing with
    | .update name merged _ => [(name, merged)]
    | .state name full _ _ => [(name, full)]
    | _ => []
  | _ => []

def Session.remaining (x : Session σ U) (files : List (Name σ × U)) :
    Action U → List (Name σ × U)
  | .unlink true => match x.writing with
    | .removing f _ _ => files.filter fun e => !(e.1 == f)
    | _ => files
  | _ => files

/-- The update that an `append` accepts. -/
def Session.accepting (x : Session σ U) : Action U → List U
  | .append u => if x.disposed then [] else [u]
  | _ => []

def step (s : State σ U) (e : σ × Action U) : Option (State σ U) :=
  let x := s.sessions e.1
  match x.act e.1 s.files e.2 with
  | none => none
  | some x' => some
    { files := x.remaining s.files e.2 ++ x.landing e.2
      sessions := Function.update s.sessions e.1 x'
      history := s.history ++ x.landing e.2
      appended := s.appended ++ x.accepting e.2 }

def init : State σ U where
  files := []
  sessions := fun _ => ⟨⊥, [], [], 0, false, .idle, [], [], []⟩
  history := []
  appended := []

/-- The updates of a session that are in no file yet, those of a write in flight included. -/
def Session.unflushed (x : Session σ U) : List U :=
  match x.writing with
  | .update _ merged _ => merged :: x.pending
  | _ => x.pending

def Writing.isState : Writing σ U → Bool
  | .state .. => true
  | _ => false

/-- A step that starts to write a compacted state finds every update that was marked as seen in
the replica. -/
def AppliedBeforeCompaction (s : State σ U) (e : σ × Action U) : Prop :=
  let x := s.sessions e.1
  match x.act e.1 s.files e.2 with
  | some x' => x.writing.isState = false → x'.writing.isState = true → ∀ u ∈ x.out, u ≤ x.replica
  | none => True

instance [DecidableLE U] (s : State σ U) (e : σ × Action U) :
    Decidable (AppliedBeforeCompaction s e) := by
  unfold AppliedBeforeCompaction
  dsimp only
  split <;> infer_instance

/-- The files that the running compaction has replaced and is about to delete. -/
def Session.doomed (x : Session σ U) : List (Name σ) :=
  match x.writing with
  | .stateWritten _ old _ => old
  | .deleting old _ => old
  | .removing f old _ => f :: old
  | _ => []

end

section
variable {σ U : Type} [DecidableEq σ] [SemilatticeSup U] [OrderBot U]
variable {i : σ} {H files : List (Name σ × U)} {x x' : Session σ U} {a : Action U}

/-- What a write in flight or just landed says about the files. -/
def Flight (i : σ) (H : List (Name σ × U)) (seq : Nat) (replica : U) : Writing σ U → Prop
  | .update n _ _ => n.session = i ∧ n.seq < seq ∧ n ∉ H.map (·.1)
  | .state n full old _ => (n.session = i ∧ n.seq < seq ∧ n ∉ H.map (·.1)) ∧ full ≤ replica ∧
      ∀ m ∈ old, m ∈ H.map (·.1) ∧ ∀ u, (m, u) ∈ H → u ≤ full
  | .stateWritten n _ _ => n ∈ H.map (·.1) ∧ ∀ u, (n, u) ∈ H → u ≤ replica
  | _ => True

structure Sound (i : σ) (H : List (Name σ × U)) (x : Session σ U) : Prop where
  seenKnown : ∀ n ∈ x.seen, n ∈ H.map (·.1) ∨ ∃ m job, x.writing = .update n m job
  seenBelow : ∀ n u, n ∈ x.seen → (n, u) ∈ H → ∀ b, x.replica ≤ b → (∀ v ∈ x.out, v ≤ b) → u ≤ b
  unflushedBelow : ∀ u ∈ x.unflushed, u ≤ x.replica
  readingKnown : ∀ f ∈ x.reading, f ∈ H
  doomedKnown : ∀ n ∈ x.doomed, n ∈ H.map (·.1)
  flight : Flight i H x.seq x.replica x.writing

theorem mem_see (seen : List (Name σ)) (n m : Name σ) : m ∈ see seen n ↔ m ∈ seen ∨ m = n := by
  unfold see
  split
  · rename_i h
    exact ⟨.inl, fun hm => hm.elim id (fun he => he ▸ h)⟩
  · simp

theorem mem_unsee (seen : List (Name σ)) (n m : Name σ) :
    m ∈ unsee seen n ↔ m ∈ seen ∧ m ≠ n := by
  simp [unsee]

def Session.Calm (x : Session σ U) : Prop := ∀ n m job, x.writing ≠ .update n m job

theorem Session.Calm.unflushed (hc : x.Calm) : x.unflushed = x.pending := by
  unfold Session.unflushed
  split
  · rename_i h
    exact absurd h (hc _ _ _)
  · rfl

theorem Sound.seenFile (h : Sound i H x) (hc : x.Calm) (n : Name σ) (hn : n ∈ x.seen) :
    n ∈ H.map (·.1) := by
  rcases h.seenKnown n hn with hk | ⟨m, job, hw⟩
  · exact hk
  · exact absurd hw (hc n m job)

theorem fresh_name (hf : ∀ f ∈ H, f.1.session = i → f.1.seq < x.seq) (ext : Ext) :
    (⟨i, x.seq, ext⟩ : Name σ) ∉ H.map (·.1) := by
  intro hm
  obtain ⟨f, hfH, he⟩ := List.mem_map.1 hm
  have hlt := hf f hfH (by rw [he])
  rw [he] at hlt
  exact absurd hlt (lt_irrefl _)

theorem Sound.writeCompacted (h : Sound i H x) (hc : x.Calm)
    (hf : ∀ f ∈ H, f.1.session = i → f.1.seq < x.seq) (ha : ∀ u ∈ x.out, u ≤ x.replica)
    (job : Job) : Sound i H (x.writeCompacted i job) where
  seenKnown n hn := .inl (h.seenFile hc n hn)
  seenBelow := h.seenBelow
  unflushedBelow := by
    have hu := h.unflushedBelow
    rw [hc.unflushed] at hu
    exact hu
  readingKnown := h.readingKnown
  doomedKnown n hn := by simp [Session.doomed, Session.writeCompacted] at hn
  flight := by
    refine ⟨⟨rfl, Nat.lt_succ_self _, fresh_name hf .state⟩, le_rfl, fun m hm => ⟨?_, ?_⟩⟩
    · exact h.seenFile hc m hm
    · exact fun u hu => h.seenBelow m u hm hu x.replica le_rfl ha

theorem Sound.idle (h : Sound i H x) (hc : x.Calm) : Sound i H { x with writing := .idle } where
  seenKnown n hn := .inl (h.seenFile hc n hn)
  seenBelow := h.seenBelow
  unflushedBelow := by
    have hu := h.unflushedBelow
    rw [hc.unflushed] at hu
    exact hu
  readingKnown := h.readingKnown
  doomedKnown n hn := by simp [Session.doomed] at hn
  flight := trivial

theorem Sound.afterPending (h : Sound i H x) (hc : x.Calm)
    (hf : ∀ f ∈ H, f.1.session = i → f.1.seq < x.seq) (job : Job)
    (ha : (x.afterPending i job).writing.isState = true → ∀ u ∈ x.out, u ≤ x.replica) :
    Sound i H (x.afterPending i job) := by
  cases job with
  | flush => exact h.idle hc
  | compact force =>
    by_cases hs : x.seen.length ≤ 1 ∨ (force = false ∧ x.seen.length < compactAfter)
    · rw [Session.afterPending, if_pos hs]
      exact h.idle hc
    · rw [Session.afterPending, if_neg hs] at ha ⊢
      exact h.writeCompacted hc hf (ha rfl) .flush

theorem Sound.writePending (h : Sound i H x) (hc : x.Calm)
    (hf : ∀ f ∈ H, f.1.session = i → f.1.seq < x.seq) (job : Job)
    (ha : (x.writePending i job).writing.isState = true → ∀ u ∈ x.out, u ≤ x.replica) :
    Sound i H (x.writePending i job) := by
  by_cases hp : x.pending = []
  · rw [Session.writePending, if_pos hp] at ha ⊢
    exact h.afterPending hc hf job ha
  · rw [Session.writePending, if_neg hp]
    exact
      { seenKnown := fun n hn => by
          rcases (mem_see _ _ _).1 hn with hn | rfl
          · exact .inl (h.seenFile hc n hn)
          · exact .inr ⟨_, _, rfl⟩
        seenBelow := fun n u hn hu => by
          rcases (mem_see _ _ _).1 hn with hn | rfl
          · exact h.seenBelow n u hn hu
          · exact absurd (List.mem_map_of_mem hu) (fresh_name hf .update)
        unflushedBelow := fun u hu => by
          have hp := h.unflushedBelow
          rw [hc.unflushed] at hp
          obtain rfl : u = joinAll x.pending := by simpa [Session.unflushed] using hu
          exact (joinAll_le_iff _ _).2 hp
        readingKnown := h.readingKnown
        doomedKnown := fun n hn => by simp [Session.doomed] at hn
        flight := ⟨rfl, Nat.lt_succ_self _, fresh_name hf .update⟩ }

theorem Sound.foreign (h : Sound i H x) (f : Name σ × U) (hi : f.1.session ≠ i)
    (hf : f.1 ∉ H.map (·.1)) : Sound i (H ++ [f]) x where
  seenKnown n hn := (h.seenKnown n hn).imp_left fun hk => by simp [List.map_append, hk]
  seenBelow n u hn hu := by
    rcases List.mem_append.1 hu with hu | hu
    · exact h.seenBelow n u hn hu
    · obtain rfl : (n, u) = f := by simpa using hu
      rcases h.seenKnown n hn with hk | ⟨m, job, hw⟩
      · exact absurd hk hf
      · have hfl := h.flight
        rw [hw] at hfl
        exact absurd hfl.1 hi
  unflushedBelow := h.unflushedBelow
  readingKnown g hg := List.mem_append_left _ (h.readingKnown g hg)
  doomedKnown n hn := by simp [List.map_append, h.doomedKnown n hn]
  flight := by
    have hfl := h.flight
    have hne : ∀ n : Name σ, n.session = i → n ∉ H.map (·.1) → n ∉ (H ++ [f]).map (·.1) := by
      intro n hn hk hm
      rcases List.mem_append.1 (by simpa only [List.map_append] using hm) with hm | hm
      · exact hk hm
      · obtain rfl : n = f.1 := by simpa using hm
        exact hi hn
    cases hw : x.writing with
    | update n m job =>
      rw [hw] at hfl
      exact ⟨hfl.1, hfl.2.1, hne n hfl.1 hfl.2.2⟩
    | state n full old job =>
      rw [hw] at hfl
      obtain ⟨⟨hs, hq, hk⟩, hfull, hold⟩ := hfl
      refine ⟨⟨hs, hq, hne n hs hk⟩, hfull, fun m hm => ⟨?_, fun u hu => ?_⟩⟩
      · simp [List.map_append, (hold m hm).1]
      · rcases List.mem_append.1 hu with hu | hu
        · exact (hold m hm).2 u hu
        · obtain rfl : (m, u) = f := by simpa using hu
          exact absurd (hold m hm).1 hf
    | stateWritten n old job =>
      rw [hw] at hfl
      refine ⟨by simp [List.map_append, hfl.1], fun u hu => ?_⟩
      rcases List.mem_append.1 hu with hu | hu
      · exact hfl.2 u hu
      · obtain rfl : (n, u) = f := by simpa using hu
        exact absurd hfl.1 hf
    | idle | written | deleting | removing => trivial

theorem Flight.mono {seq : Nat} {r r' : U} {w : Writing σ U} (hr : r ≤ r')
    (h : Flight i H seq r w) : Flight i H seq r' w := by
  cases w with
  | state n full old job => exact ⟨h.1, h.2.1.trans hr, h.2.2⟩
  | stateWritten n old job => exact ⟨h.1, fun u hu => (h.2 u hu).trans hr⟩
  | update | idle | written | deleting | removing => exact h

theorem mem_unflushed (u : U) :
    u ∈ x.unflushed ↔ u ∈ x.pending ∨ ∃ n job, x.writing = .update n u job := by
  unfold Session.unflushed
  split
  · rename_i n m job h
    simp only [List.mem_cons, h, Writing.update.injEq, exists_and_left, exists_eq', and_true]
    exact ⟨fun hu => hu.elim (fun he => .inr ⟨_, rfl, he.symm⟩) .inl,
      fun hu => hu.elim .inr fun ⟨_, _, he⟩ => .inl he.symm⟩
  · rename_i h
    exact ⟨.inl, fun hu => hu.elim id fun ⟨n, job, hw⟩ => absurd hw (h n u job)⟩

section
variable (h : Sound i H x)
include h

theorem Sound.grow (r : U) (p : List U) (hr : x.replica ≤ r)
    (hp : ∀ u ∈ p, u ≤ r) : Sound i H { x with replica := r, pending := p } where
  __ := h
  seenBelow n u hn hu b hb ho := h.seenBelow n u hn hu b (hr.trans hb) ho
  unflushedBelow u hu := by
    rcases (mem_unflushed u).1 hu with hu | ⟨n, job, hw⟩
    · exact hp u hu
    · exact (h.unflushedBelow u ((mem_unflushed u).2 (.inr ⟨n, job, hw⟩))).trans hr
  flight := h.flight.mono hr

theorem Sound.apply (k : Nat) (u : U) (hk : x.out[k]? = some u) :
    Sound i H { x with replica := x.replica ⊔ u, out := x.out.eraseIdx k } where
  __ := h
  seenBelow n w hn hw b hb ho := by
    refine h.seenBelow n w hn hw b (le_sup_left.trans hb) fun v hv => ?_
    rcases mem_or_mem_eraseIdx hk hv with rfl | hv
    · exact le_sup_right.trans hb
    · exact ho v hv
  unflushedBelow u hu := (h.unflushedBelow u hu).trans le_sup_left
  flight := h.flight.mono le_sup_left

theorem Sound.mark (hfun : ∀ n u u', (n, u) ∈ H → (n, u') ∈ H → u = u')
    (k : Nat) (n : Name σ) (u : U) (hk : x.reading[k]? = some (n, u)) :
    Sound i H { x with reading := x.reading.eraseIdx k, seen := see x.seen n, out := x.out ++ [u] } := by
  have hH : (n, u) ∈ H := h.readingKnown _ (List.mem_of_getElem? hk)
  exact
    { seenKnown := fun m hm => by
        rcases (mem_see _ _ _).1 hm with hm | rfl
        · exact h.seenKnown m hm
        · exact .inl (List.mem_map_of_mem hH)
      seenBelow := fun m w hm hw b hb ho => by
        rcases (mem_see _ _ _).1 hm with hm | rfl
        · exact h.seenBelow m w hm hw b hb fun v hv => ho v (List.mem_append_left _ hv)
        · exact ho w (by simp [hfun m w u hw hH])
      unflushedBelow := h.unflushedBelow
      readingKnown := fun f hf => h.readingKnown f (List.mem_of_mem_eraseIdx hf)
      doomedKnown := h.doomedKnown
      flight := h.flight }

theorem Sound.landUpdate (n : Name σ) (m : U) (job : Job)
    (hw : x.writing = .update n m job) :
    Sound i (H ++ [(n, m)]) { x with writing := .written job } where
  seenKnown k hk := by
    rcases h.seenKnown k hk with hk | ⟨m', job', hw'⟩
    · exact .inl (by simp [List.map_append, hk])
    · obtain rfl : n = k := by rw [hw] at hw'; cases hw'; rfl
      exact .inl (by simp [List.map_append])
  seenBelow k u hk hu b hb ho := by
    rcases List.mem_append.1 hu with hu | hu
    · exact h.seenBelow k u hk hu b hb ho
    · obtain ⟨rfl, rfl⟩ : k = n ∧ u = m := by simpa using hu
      exact (h.unflushedBelow u ((mem_unflushed u).2 (.inr ⟨k, job, hw⟩))).trans hb
  unflushedBelow u hu := by
    rcases (mem_unflushed u).1 hu with hu | ⟨_, _, hw'⟩
    · exact h.unflushedBelow u ((mem_unflushed u).2 (.inl hu))
    · cases hw'
  readingKnown f hf := List.mem_append_left _ (h.readingKnown f hf)
  doomedKnown k hk := by simp [Session.doomed] at hk
  flight := trivial

theorem Sound.landState (n : Name σ) (full : U) (old : List (Name σ)) (job : Job)
    (hw : x.writing = .state n full old job) :
    Sound i (H ++ [(n, full)]) { x with writing := .stateWritten n old job } := by
  have hfl := h.flight
  rw [hw] at hfl
  obtain ⟨⟨-, -, hn⟩, hfull, hold⟩ := hfl
  have hc : x.Calm := fun _ _ _ he => by rw [hw] at he; cases he
  exact
    { seenKnown := fun k hk => .inl (by simp [List.map_append, h.seenFile hc k hk])
      seenBelow := fun k u hk hu b hb ho => by
        rcases List.mem_append.1 hu with hu | hu
        · exact h.seenBelow k u hk hu b hb ho
        · obtain ⟨rfl, rfl⟩ : k = n ∧ u = full := by simpa using hu
          exact absurd (h.seenFile hc k hk) hn
      unflushedBelow := fun u hu => by
        rcases (mem_unflushed u).1 hu with hu | ⟨_, _, hw'⟩
        · exact h.unflushedBelow u ((mem_unflushed u).2 (.inl hu))
        · cases hw'
      readingKnown := fun f hf => List.mem_append_left _ (h.readingKnown f hf)
      doomedKnown := fun k hk => by simp [List.map_append, (hold k hk).1]
      flight := by
        refine ⟨by simp [List.map_append], fun u hu => ?_⟩
        rcases List.mem_append.1 hu with hu | hu
        · exact absurd (List.mem_map_of_mem hu) hn
        · obtain rfl : u = full := by simpa using hu
          exact hfull }

theorem Sound.failUpdate (n : Name σ) (m : U) (job : Job)
    (hw : x.writing = .update n m job) :
    Sound i H { x with seen := unsee x.seen n, pending := m :: x.pending, writing := .idle } where
  seenKnown k hk := by
    obtain ⟨hk, hne⟩ := (mem_unsee _ _ _).1 hk
    rcases h.seenKnown k hk with hk | ⟨m', job', hw'⟩
    · exact .inl hk
    · rw [hw] at hw'; cases hw'
      exact absurd rfl hne
  seenBelow k u hk hu := h.seenBelow k u ((mem_unsee _ _ _).1 hk).1 hu
  unflushedBelow u hu := h.unflushedBelow u (by
    rw [mem_unflushed]
    rcases (mem_unflushed u).1 hu with hu | ⟨_, _, hw'⟩
    · rcases List.mem_cons.1 hu with rfl | hu
      · exact .inr ⟨n, job, hw⟩
      · exact .inl hu
    · cases hw')
  readingKnown := h.readingKnown
  doomedKnown k hk := by simp [Session.doomed] at hk
  flight := trivial

theorem Sound.deletion (hc : x.Calm) (seen : List (Name σ)) (w : Writing σ U)
    (hseen : ∀ n ∈ seen, n ∈ x.seen ∨ (n ∈ H.map (·.1) ∧ ∀ u, (n, u) ∈ H → u ≤ x.replica))
    (hw : ∀ n ∈ ({ x with writing := w } : Session σ U).doomed, n ∈ x.doomed)
    (hu : ∀ n m job, w ≠ .update n m job) (hflight : ∀ seq, Flight i H seq x.replica w) :
    Sound i H { x with seen := seen, writing := w } where
  seenKnown n hn := .inl ((hseen n hn).elim (fun hn => h.seenFile hc n hn) (fun hn => hn.1))
  seenBelow n u hn hu b hb ho := by
    rcases hseen n hn with hn | hn
    · exact h.seenBelow n u hn hu b hb ho
    · exact (hn.2 u hu).trans hb
  unflushedBelow u hm := by
    rcases (mem_unflushed u).1 hm with hm | ⟨n, job, hw'⟩
    · exact h.unflushedBelow u ((mem_unflushed u).2 (.inl hm))
    · exact absurd hw' (hu n u job)
  readingKnown := h.readingKnown
  doomedKnown n hn := h.doomedKnown n (hw n hn)
  flight := hflight _

theorem Sound.resume (hf : ∀ f ∈ H, f.1.session = i → f.1.seq < x.seq)
    (ha : x.writing.isState = false → x'.writing.isState = true → ∀ u ∈ x.out, u ≤ x.replica)
    (hx : x.act i files .resume = some x') : Sound i H x' := by
  have hfl := h.flight
  simp only [Session.act] at hx
  split at hx
  · rename_i job hw
    have hc : x.Calm := fun _ _ _ he => by rw [hw] at he; cases he
    rw [hw] at ha
    by_cases hs : compactAfter ≤ x.seen.length
    · rw [if_pos hs, Option.some.injEq] at hx
      subst hx
      exact h.writeCompacted hc hf (ha rfl rfl) job
    · rw [if_neg hs, Option.some.injEq] at hx
      subst hx
      exact h.afterPending hc hf job (ha rfl)
  · rename_i name old job hw
    rw [Option.some.injEq] at hx
    subst hx
    have hc : x.Calm := fun _ _ _ he => by rw [hw] at he; cases he
    rw [hw] at hfl
    refine h.deletion hc _ _ (fun n hn => ?_) ?_ (fun _ _ _ => by simp) (fun _ => trivial)
    · rcases (mem_see _ _ _).1 hn with hn | rfl
      · exact .inl hn
      · exact .inr hfl
    · simp [Session.doomed, hw]
  · rename_i job hw
    rw [Option.some.injEq] at hx
    subst hx
    have hc : x.Calm := fun _ _ _ he => by rw [hw] at he; cases he
    rw [hw] at ha
    exact h.afterPending hc hf job (ha rfl)
  · rename_i f old job hw
    rw [Option.some.injEq] at hx
    subst hx
    have hc : x.Calm := fun _ _ _ he => by rw [hw] at he; cases he
    refine h.deletion hc _ _ (fun n hn => .inl ((mem_unsee _ _ _).1 hn).1) ?_
      (fun _ _ _ => by simp) (fun _ => trivial)
    simp [Session.doomed, hw]
  · cases hx

/-- Every step of a session keeps its invariant, with the file that the step lands. -/
theorem Sound.act (hf : ∀ f ∈ H, f.1.session = i → f.1.seq < x.seq)
    (hfiles : ∀ f ∈ files, f ∈ H) (hfun : ∀ n u u', (n, u) ∈ H → (n, u') ∈ H → u = u')
    (ha : x.writing.isState = false → x'.writing.isState = true → ∀ u ∈ x.out, u ≤ x.replica)
    (hx : x.act i files a = some x') : Sound i (H ++ x.landing a) x' := by
  have hpending : ∀ u ∈ x.pending, u ≤ x.replica := fun u hu =>
    h.unflushedBelow u ((mem_unflushed u).2 (.inl hu))
  cases a with
  | append u =>
    simp only [Session.landing, List.append_nil]
    simp only [Session.act] at hx
    split at hx
    · cases hx
      exact h.grow _ x.pending le_sup_left fun v hv => (hpending v hv).trans le_sup_left
    · cases hx
      refine h.grow _ (x.pending ++ [u]) le_sup_left fun v hv => ?_
      rcases List.mem_append.1 hv with hv | hv
      · exact (hpending v hv).trans le_sup_left
      · obtain rfl : v = u := by simpa using hv
        exact le_sup_right
  | begin job =>
    simp only [Session.landing, List.append_nil]
    simp only [Session.act] at hx
    split at hx
    · rename_i hw
      cases hx
      have hc : x.Calm := fun _ _ _ he => by rw [hw] at he; cases he
      rw [hw] at ha
      exact h.writePending hc hf job (ha rfl)
    · cases hx
  | land =>
    simp only [Session.act] at hx
    split at hx
    · rename_i n m job hw
      cases hx
      simp only [Session.landing, hw]
      exact h.landUpdate n m job hw
    · rename_i n full old job hw
      cases hx
      simp only [Session.landing, hw]
      exact h.landState n full old job hw
    · cases hx
  | fail =>
    simp only [Session.landing, List.append_nil]
    simp only [Session.act] at hx
    split at hx
    · rename_i n m job hw
      cases hx
      exact h.failUpdate n m job hw
    · rename_i hw
      cases hx
      exact h.idle fun _ _ _ he => by rw [hw] at he; cases he
    · cases hx
  | resume =>
    simp only [Session.landing, List.append_nil]
    exact h.resume hf ha hx
  | unlink done =>
    simp only [Session.landing, List.append_nil]
    simp only [Session.act] at hx
    split at hx
    · rename_i f old job hw
      cases hx
      refine h.deletion (fun _ _ _ he => by rw [hw] at he; cases he) x.seen _ (fun n hn => .inl hn)
        ?_ (fun _ _ _ => by simp) (fun _ => trivial)
      intro n hn
      simp only [Session.doomed, hw] at hn ⊢
      exact List.mem_cons_of_mem f hn
    · cases hx
  | list =>
    simp only [Session.landing, List.append_nil]
    cases hx
    exact ⟨h.seenKnown, h.seenBelow, h.unflushedBelow, h.readingKnown, h.doomedKnown, h.flight⟩
  | read entry =>
    simp only [Session.landing, List.append_nil]
    simp only [Session.act] at hx
    split at hx
    · split at hx
      · cases hx
      · split at hx
        · rename_i f hfind
          cases hx
          refine ⟨h.seenKnown, h.seenBelow, h.unflushedBelow, fun g hg => ?_, h.doomedKnown,
            h.flight⟩
          rcases List.mem_append.1 hg with hg | hg
          · exact h.readingKnown g hg
          · obtain rfl : g = f := by simpa using hg
            exact hfiles g (List.mem_of_find?_eq_some hfind)
        · cases hx
    · cases hx
  | mark entry =>
    simp only [Session.landing, List.append_nil]
    simp only [Session.act] at hx
    split at hx
    · rename_i n u hk
      cases hx
      exact h.mark hfun entry n u hk
    · cases hx
  | apply entry =>
    simp only [Session.landing, List.append_nil]
    simp only [Session.act] at hx
    split at hx
    · rename_i u hk
      cases hx
      exact h.apply entry u hk
    · cases hx
  | dispose =>
    simp only [Session.landing, List.append_nil]
    cases hx
    exact ⟨h.seenKnown, h.seenBelow, h.unflushedBelow, h.readingKnown, h.doomedKnown, h.flight⟩

end

variable (job : Job)

@[simp] theorem unflushed_writeCompacted :
    (x.writeCompacted i job).unflushed = x.pending := rfl

@[simp] theorem unflushed_afterPending :
    (x.afterPending i job).unflushed = x.pending := by
  cases job with
  | flush => rfl
  | compact force => unfold Session.afterPending; dsimp only; split <;> rfl

theorem unflushed_writePending (u : U) (hu : u ∈ x.pending) :
    ∃ v ∈ (x.writePending i job).unflushed, u ≤ v := by
  by_cases hp : x.pending = []
  · simp [hp] at hu
  · rw [Session.writePending, if_neg hp]
    exact ⟨joinAll x.pending, by simp [Session.unflushed], le_joinAll _ u hu⟩

/-- No step drops an update that waits: it waits on, or it lands in a file. -/
theorem carried (hx : x.act i files a = some x') (u : U)
    (hu : u ∈ x.unflushed ∨ u ∈ x.accepting a) :
    (∃ v ∈ x'.unflushed, u ≤ v) ∨ ∃ f ∈ x.landing a, u ≤ f.2 := by
  cases a with
  | append w =>
    refine .inl ⟨u, ?_, le_rfl⟩
    simp only [Session.act] at hx
    split at hx
    · rename_i hd
      cases hx
      rw [mem_unflushed] at hu ⊢
      simpa [Session.accepting, hd] using hu
    · rename_i hd
      cases hx
      rw [mem_unflushed] at hu ⊢
      simp only [Session.accepting, hd, Bool.false_eq_true, if_false, List.mem_singleton] at hu
      simp only [List.mem_append, List.mem_singleton]
      tauto
  | begin job =>
    simp only [Session.act] at hx
    split at hx
    · rename_i hw
      cases hx
      have hp : u ∈ x.pending := by simpa [Session.accepting, mem_unflushed, hw] using hu
      exact .inl (unflushed_writePending job u hp)
    · cases hx
  | land =>
    simp only [Session.act] at hx
    split at hx
    · rename_i n m job hw
      cases hx
      have hu : u = m ∨ u ∈ x.pending := by simpa [Session.accepting, Session.unflushed, hw] using hu
      rcases hu with rfl | hu
      · exact .inr ⟨(n, u), by simp [Session.landing, hw], le_rfl⟩
      · exact .inl ⟨u, hu, le_rfl⟩
    · rename_i n full old job hw
      cases hx
      have hu : u ∈ x.pending := by simpa [Session.accepting, Session.unflushed, hw] using hu
      exact .inl ⟨u, hu, le_rfl⟩
    · cases hx
  | fail =>
    refine .inl ⟨u, ?_, le_rfl⟩
    simp only [Session.act] at hx
    split at hx
    · rename_i n m job hw
      cases hx
      simpa [Session.accepting, Session.unflushed, hw] using hu
    · rename_i hw
      cases hx
      simpa [Session.accepting, Session.unflushed, hw] using hu
    · cases hx
  | resume =>
    refine .inl ⟨u, ?_, le_rfl⟩
    simp only [Session.act] at hx
    split at hx
    · rename_i job hw
      have hu : u ∈ x.pending := by simpa [Session.accepting, Session.unflushed, hw] using hu
      cases hx
      split <;> simpa using hu
    · rename_i hw
      cases hx
      simpa [Session.accepting, Session.unflushed, hw] using hu
    · rename_i hw
      have hu : u ∈ x.pending := by simpa [Session.accepting, Session.unflushed, hw] using hu
      cases hx
      simpa using hu
    · rename_i hw
      cases hx
      simpa [Session.accepting, Session.unflushed, hw] using hu
    · cases hx
  | unlink done =>
    refine .inl ⟨u, ?_, le_rfl⟩
    simp only [Session.act] at hx
    split at hx
    · rename_i hw
      cases hx
      simpa [Session.accepting, Session.unflushed, hw] using hu
    · cases hx
  | list | dispose =>
    have hu : u ∈ x.unflushed := by simpa [Session.accepting] using hu
    cases hx
    exact .inl ⟨u, hu, le_rfl⟩
  | read entry =>
    refine .inl ⟨u, ?_, le_rfl⟩
    have hu : u ∈ x.unflushed := by simpa [Session.accepting] using hu
    simp only [Session.act] at hx
    split at hx
    · split at hx
      · cases hx
      · split at hx <;> cases hx
        exact hu
    · cases hx
  | mark entry =>
    refine .inl ⟨u, ?_, le_rfl⟩
    have hu : u ∈ x.unflushed := by simpa [Session.accepting] using hu
    simp only [Session.act] at hx
    split at hx <;> cases hx
    exact hu
  | apply entry =>
    refine .inl ⟨u, ?_, le_rfl⟩
    have hu : u ∈ x.unflushed := by simpa [Session.accepting] using hu
    simp only [Session.act] at hx
    split at hx <;> cases hx
    exact hu

theorem doomed_writeCompacted : (x.writeCompacted i job).doomed = [] := rfl

theorem doomed_afterPending : (x.afterPending i job).doomed = [] := by
  cases job with
  | flush => rfl
  | compact force => unfold Session.afterPending; dsimp only; split <;> rfl

theorem doomed_writePending : (x.writePending i job).doomed = [] := by
  by_cases hp : x.pending = []
  · rw [Session.writePending, if_pos hp, doomed_afterPending]
  · rw [Session.writePending, if_neg hp]
    rfl

/-- A step dooms only files whose content is in the state that it lands. -/
theorem doomed_act (h : Sound i H x) (hx : x.act i files a = some x') (n : Name σ)
    (hn : n ∈ x'.doomed) :
    n ∈ x.doomed ∨ (n ∈ H.map (·.1) ∧ ∃ f ∈ x.landing a, ∀ u, (n, u) ∈ H → u ≤ f.2) := by
  cases a with
  | land =>
    simp only [Session.act] at hx
    split at hx
    · cases hx
      simp [Session.doomed] at hn
    · rename_i name full old job hw
      cases hx
      have hfl := h.flight
      rw [hw] at hfl
      exact .inr ⟨(hfl.2.2 n hn).1, (name, full), by simp [Session.landing, hw], (hfl.2.2 n hn).2⟩
    · cases hx
  | begin job =>
    simp only [Session.act] at hx
    split at hx <;> cases hx
    simp [doomed_writePending] at hn
  | fail =>
    simp only [Session.act] at hx
    split at hx <;> cases hx <;> simp [Session.doomed] at hn
  | resume =>
    left
    simp only [Session.act] at hx
    split at hx
    · cases hx
      split at hn
      · simp [doomed_writeCompacted] at hn
      · simp [doomed_afterPending] at hn
    · rename_i hw
      cases hx
      simpa [Session.doomed, hw] using hn
    · cases hx
      simp [doomed_afterPending] at hn
    · rename_i hw
      cases hx
      simpa [Session.doomed, hw] using hn
    · cases hx
  | unlink done =>
    left
    simp only [Session.act] at hx
    split at hx
    · rename_i hw
      cases hx
      simp only [Session.doomed, hw] at hn ⊢
      exact List.mem_cons_of_mem _ hn
    · cases hx
  | append w =>
    simp only [Session.act] at hx
    split at hx <;> cases hx <;> exact .inl hn
  | list | dispose =>
    cases hx
    exact .inl hn
  | read entry =>
    simp only [Session.act] at hx
    split at hx
    · split at hx
      · cases hx
      · split at hx <;> cases hx
        exact .inl hn
    · cases hx
  | mark entry =>
    simp only [Session.act] at hx
    split at hx <;> cases hx
    exact .inl hn
  | apply entry =>
    simp only [Session.act] at hx
    split at hx <;> cases hx
    exact .inl hn

theorem doomed_act_known (h : Sound i H x) (hx : x.act i files a = some x') (n : Name σ)
    (hn : n ∈ x'.doomed) : n ∈ H.map (·.1) :=
  (doomed_act h hx n hn).elim (h.doomedKnown n) (fun hn => hn.1)

theorem seq_act (hx : x.act i files a = some x') : x.seq ≤ x'.seq := by
  have hafter : ∀ job, x.seq ≤ (x.afterPending i job).seq := by
    intro job
    cases job with
    | flush => exact le_rfl
    | compact force =>
      unfold Session.afterPending
      dsimp only
      split
      · exact le_rfl
      · exact Nat.le_succ _
  cases a with
  | begin job =>
    simp only [Session.act] at hx
    split at hx <;> cases hx
    by_cases hp : x.pending = []
    · rw [Session.writePending, if_pos hp]
      exact hafter job
    · rw [Session.writePending, if_neg hp]
      exact Nat.le_succ _
  | resume =>
    simp only [Session.act] at hx
    split at hx <;> cases hx
    · split
      · exact Nat.le_succ _
      · exact hafter _
    · exact le_rfl
    · exact hafter _
    · exact le_rfl
  | read entry =>
    simp only [Session.act] at hx
    split at hx
    · split at hx
      · cases hx
      · split at hx <;> cases hx
        exact le_rfl
    · cases hx
  | append | land | fail | unlink | list | mark | apply | dispose =>
    simp only [Session.act] at hx
    first
      | (split at hx <;> cases hx <;> exact le_rfl)
      | (cases hx; exact le_rfl)

theorem landing_fresh (h : Sound i H x) (f : Name σ × U) (hf : f ∈ x.landing a) :
    x.landing a = [f] ∧ f.1.session = i ∧ f.1.seq < x.seq ∧ f.1 ∉ H.map (·.1) := by
  have hfl := h.flight
  cases a with
  | land =>
    simp only [Session.landing] at hf ⊢
    split at hf
    · rename_i n m job hw
      obtain rfl : f = (n, m) := by simpa using hf
      rw [hw] at hfl
      exact ⟨rfl, hfl⟩
    · rename_i n full old job hw
      obtain rfl : f = (n, full) := by simpa using hf
      rw [hw] at hfl
      exact ⟨rfl, hfl.1⟩
    · cases hf
  | append | begin | fail | resume | unlink | list | read | mark | apply | dispose => cases hf

theorem mem_remaining (f : Name σ × U) (hf : f ∈ files) (hd : f.1 ∉ x.doomed) :
    f ∈ x.remaining files a := by
  unfold Session.remaining
  split
  · split
    · rename_i g old job hw
      refine List.mem_filter.2 ⟨hf, ?_⟩
      simp only [Session.doomed, hw, List.mem_cons, not_or] at hd
      simpa using hd.1
    · exact hf
  · exact hf

theorem remaining_subset (f : Name σ × U) (hf : f ∈ x.remaining files a) : f ∈ files := by
  unfold Session.remaining at hf
  split at hf
  · split at hf
    · exact List.mem_of_mem_filter hf
    · exact hf
  · exact hf

end

section
variable {σ U : Type} [DecidableEq σ] [SemilatticeSup U] [OrderBot U]

/-- The contents of the files that no running compaction is about to delete. -/
def kept (s : State σ U) : Set U :=
  {u | ∃ n, (n, u) ∈ s.files ∧ ∀ i, n ∉ (s.sessions i).doomed}

def waiting (s : State σ U) : Set U := {u | ∃ i, u ∈ (s.sessions i).unflushed}

/-- The invariant of the directory. -/
structure Inv (s : State σ U) : Prop where
  sound : ∀ i, Sound i s.history (s.sessions i)
  filesKnown : ∀ f ∈ s.files, f ∈ s.history
  functional : ∀ n u u', (n, u) ∈ s.history → (n, u') ∈ s.history → u = u'
  fresh : ∀ f ∈ s.history, f.1.seq < (s.sessions f.1.session).seq
  covered : Covers (kept s ∪ waiting s) {u | u ∈ s.appended}

theorem init_inv : Inv (init : State σ U) where
  sound i :=
    { seenKnown := fun n hn => by simp [init] at hn
      seenBelow := fun n u hn => by simp [init] at hn
      unflushedBelow := fun u hu => by simp [init, Session.unflushed] at hu
      readingKnown := fun f hf => by simp [init] at hf
      doomedKnown := fun n hn => by simp [init, Session.doomed] at hn
      flight := trivial }
  filesKnown f hf := by simp [init] at hf
  functional n u u' hu := by simp [init] at hu
  fresh f hf := by simp [init] at hf
  covered := Covers.of_subset (by simp [init])

section
variable {s : State σ U} {i : σ} {a : Action U} {x' : Session σ U}

theorem functional_landing (h : Inv s) (n : Name σ) (u u' : U)
    (hu : (n, u) ∈ s.history ++ (s.sessions i).landing a)
    (hu' : (n, u') ∈ s.history ++ (s.sessions i).landing a) : u = u' := by
  have hnew : ∀ v w, (n, v) ∈ (s.sessions i).landing a → (n, w) ∉ s.history := by
    intro v w hv hw
    exact (landing_fresh (h.sound i) _ hv).2.2.2 (List.mem_map.2 ⟨(n, w), hw, rfl⟩)
  rcases List.mem_append.1 hu with hu | hu <;> rcases List.mem_append.1 hu' with hu' | hu'
  · exact h.functional n u u' hu hu'
  · exact absurd hu (hnew u' u hu')
  · exact absurd hu' (hnew u u' hu)
  · have hl := (landing_fresh (h.sound i) _ hu).1
    rw [hl] at hu'
    exact (Prod.mk.inj (List.mem_singleton.1 hu')).2.symm

theorem step_sound (h : Inv s)
    (ha : (s.sessions i).writing.isState = false → x'.writing.isState = true →
      ∀ u ∈ (s.sessions i).out, u ≤ (s.sessions i).replica)
    (hx : (s.sessions i).act i s.files a = some x') (j : σ) :
    Sound j (s.history ++ (s.sessions i).landing a) (Function.update s.sessions i x' j) := by
  by_cases hj : j = i
  · subst hj
    rw [Function.update_self]
    exact (h.sound j).act (fun f hf hs => hs ▸ h.fresh f hf) h.filesKnown h.functional ha hx
  · rw [Function.update_of_ne hj]
    cases hl : (s.sessions i).landing a with
    | nil => simpa using h.sound j
    | cons f rest =>
      have hmem : f ∈ (s.sessions i).landing a := by rw [hl]; exact List.mem_cons_self
      obtain ⟨hf, hs, -, hnew⟩ := landing_fresh (h.sound i) f hmem
      rw [hl] at hf
      rw [hf]
      exact (h.sound j).foreign f (fun he => hj (he.symm.trans hs)) hnew

theorem step_covered (h : Inv s) (hx : (s.sessions i).act i s.files a = some x') (t : State σ U)
    (hfiles : t.files = (s.sessions i).remaining s.files a ++ (s.sessions i).landing a)
    (hsessions : t.sessions = Function.update s.sessions i x') :
    Covers (kept t ∪ waiting t)
      (kept s ∪ waiting s ∪ {u | u ∈ (s.sessions i).accepting a}) := by
  have hself : t.sessions i = x' := by rw [hsessions, Function.update_self]
  have hother : ∀ j, j ≠ i → t.sessions j = s.sessions j := fun j hj => by
    rw [hsessions, Function.update_of_ne hj]
  have hdoomed : ∀ j n, n ∈ (t.sessions j).doomed → n ∈ (s.sessions j).doomed ∨
      ∃ f ∈ (s.sessions i).landing a, ∀ u, (n, u) ∈ s.history → u ≤ f.2 := by
    intro j n hn
    by_cases hj : j = i
    · subst hj
      exact (doomed_act (h.sound j) hx n (hself ▸ hn)).imp_right (fun hn => hn.2)
    · exact .inl (hother j hj ▸ hn)
  have hlanded : ∀ f ∈ (s.sessions i).landing a, f.2 ∈ kept t := by
    intro f hf
    obtain ⟨-, -, -, hnew⟩ := landing_fresh (h.sound i) f hf
    refine ⟨f.1, by rw [hfiles]; exact List.mem_append_right _ hf, fun j hj => hnew ?_⟩
    by_cases hji : j = i
    · subst hji
      rw [hself] at hj
      exact doomed_act_known (h.sound j) hx _ hj
    · rw [hother j hji] at hj
      exact (h.sound j).doomedKnown _ hj
  refine Covers.of_dominated ?_
  rintro u ((⟨n, hn, hd⟩ | ⟨j, hj⟩) | hu)
  · by_cases hd' : ∀ j, n ∉ (t.sessions j).doomed
    · refine ⟨u, .inl ⟨n, ?_, hd'⟩, le_rfl⟩
      rw [hfiles]
      exact List.mem_append_left _ (mem_remaining (n, u) hn (hd i))
    · obtain ⟨j, hj⟩ := not_forall_not.1 hd'
      obtain ⟨f, hf, hle⟩ := (hdoomed j n hj).resolve_left (hd j)
      exact ⟨f.2, .inl (hlanded f hf), hle u (h.filesKnown _ hn)⟩
  · by_cases hji : j = i
    · subst hji
      rcases carried hx u (.inl hj) with ⟨v, hv, hle⟩ | ⟨f, hf, hle⟩
      · exact ⟨v, .inr ⟨j, hself ▸ hv⟩, hle⟩
      · exact ⟨f.2, .inl (hlanded f hf), hle⟩
    · exact ⟨u, .inr ⟨j, by rw [hother j hji]; exact hj⟩, le_rfl⟩
  · rcases carried hx u (.inr hu) with ⟨v, hv, hle⟩ | ⟨f, hf, hle⟩
    · exact ⟨v, .inr ⟨i, hself ▸ hv⟩, hle⟩
    · exact ⟨f.2, .inl (hlanded f hf), hle⟩

end

theorem step_inv (s : State σ U) (e : σ × Action U) (s' : State σ U) (h : Inv s)
    (hok : AppliedBeforeCompaction s e) (hs : step s e = some s') : Inv s' := by
  obtain ⟨i, a⟩ := e
  simp only [step] at hs
  split at hs
  · cases hs
  · rename_i x' hx
    simp only [AppliedBeforeCompaction, hx] at hok
    cases hs
    exact
      { sound := step_sound h hok hx
        filesKnown := fun f hf => by
          rcases List.mem_append.1 hf with hf | hf
          · exact List.mem_append_left _ (h.filesKnown f (remaining_subset f hf))
          · exact List.mem_append_right _ hf
        functional := fun n u u' hu hu' => functional_landing h n u u' hu hu'
        fresh := fun f hf => by
          have hmono : (s.sessions f.1.session).seq ≤
              (Function.update s.sessions i x' f.1.session).seq := by
            by_cases hi : f.1.session = i
            · rw [hi, Function.update_self]
              exact seq_act hx
            · rw [Function.update_of_ne hi]
          rcases List.mem_append.1 hf with hf | hf
          · exact (h.fresh f hf).trans_le hmono
          · obtain ⟨-, hi, hlt, -⟩ := landing_fresh (h.sound i) f hf
            exact lt_of_lt_of_le (hi ▸ hlt) hmono
        covered := by
          have hold : Covers (kept s ∪ waiting s ∪ {u | u ∈ (s.sessions i).accepting a})
              ({u | u ∈ s.appended} ∪ {u | u ∈ (s.sessions i).accepting a}) :=
            Covers.union (Covers.trans (Covers.of_subset Set.subset_union_left) h.covered)
              (Covers.of_subset Set.subset_union_right)
          refine ((step_covered h hx _ rfl rfl).trans hold).trans (Covers.of_subset ?_)
          exact fun u hu => List.mem_append.1 hu }

theorem run_inv (s : State σ U) (h : Run step AppliedBeforeCompaction init s) : Inv s :=
  h.invariant Inv init_inv step_inv

/-- What the directory and the sessions still hold. -/
def present [Fintype σ] (s : State σ U) : U :=
  joinAll (s.files.map (·.2)) ⊔ Finset.univ.sup fun i => joinAll (s.sessions i).unflushed

/-- As long as a session compacts only after it has applied what it has marked as seen, the files
of the directory and the unflushed updates hold every update that was ever appended. -/
theorem updates_durable [Fintype σ] (s : State σ U)
    (h : Run step AppliedBeforeCompaction init s) : joinAll s.appended ≤ present s := by
  refine joinAll_le_of_covers _ _ _ (run_inv s h).covered ?_
  rintro u (⟨n, hn, -⟩ | ⟨i, hi⟩)
  · have hmem : u ∈ s.files.map (·.2) := List.mem_map.2 ⟨(n, u), hn, rfl⟩
    exact (le_joinAll _ u hmem).trans le_sup_left
  · have hle : u ≤ joinAll (s.sessions i).unflushed := le_joinAll _ u hi
    exact (hle.trans (Finset.le_sup (f := fun i => joinAll (s.sessions i).unflushed)
      (Finset.mem_univ i))).trans le_sup_right

/-- A session writes its batch. -/
def flushing (i : σ) : List (σ × Action U) :=
  [(i, .begin .flush), (i, .land), (i, .resume)]

/-- A session reads the first file and compacts; `applied` says whether it applies it before. -/
def readAndCompact (i : σ) (applied : Bool) : List (σ × Action U) :=
  [(i, .list), (i, .read 0), (i, .mark 0)] ++ (if applied then [(i, .apply 0)] else []) ++
  [(i, .begin (.compact true)), (i, .land), (i, .resume), (i, .resume), (i, .unlink true),
    (i, .resume), (i, .unlink true), (i, .resume)]

/-- Two sessions: one writes an update, the other one writes its own and reads the first. -/
def twoWriters (applied : Bool) : List (Bool × Action Bool) :=
  [(false, .append true)] ++ flushing false ++ [(true, .append false)] ++ flushing true ++
    readAndCompact true applied

/-- The file of the other session is deleted between its reading and its application. -/
theorem update_lost_by_compaction :
    ∃ s : State Bool Bool, Run step (fun _ _ => True) init s ∧ ¬ joinAll s.appended ≤ present s := by
  have hrun : ∃ s : State Bool Bool, exec step (fun _ _ => True) init (twoWriters false) = some s ∧
      ¬ joinAll s.appended ≤ present s := ⟨_, rfl, by decide⟩
  obtain ⟨s, hs, hlost⟩ := hrun
  exact ⟨s, run_of_exec _ _ s hs, hlost⟩

theorem update_kept_by_compaction :
    ∃ s : State Bool Bool, Run step AppliedBeforeCompaction init s ∧ s.files.length = 1 ∧
      joinAll s.appended ≤ present s := by
  have hrun : ∃ s : State Bool Bool,
      exec step AppliedBeforeCompaction init (twoWriters true) = some s ∧ s.files.length = 1 :=
    ⟨_, rfl, by decide⟩
  obtain ⟨s, hs, hlen⟩ := hrun
  have h := run_of_exec _ _ s hs
  exact ⟨s, h, hlen, updates_durable s h⟩

/-- A session that has read every file and applied what it read has every update that was ever appended, once
none waits to be written. -/
theorem reader_has_all (s : State σ U) (h : Run step AppliedBeforeCompaction init s) (i : σ)
    (hread : ∀ f ∈ s.files, f.1 ∈ (s.sessions i).seen) (happlied : (s.sessions i).out = [])
    (hflushed : ∀ j, (s.sessions j).unflushed = []) : joinAll s.appended ≤ (s.sessions i).replica := by
  have hinv := run_inv s h
  refine joinAll_le_of_covers _ _ _ hinv.covered ?_
  rintro u (⟨n, hn, -⟩ | ⟨j, hj⟩)
  · refine (hinv.sound i).seenBelow n u (hread _ hn) (hinv.filesKnown _ hn) _ le_rfl ?_
    simp [happlied]
  · simp [hflushed j] at hj

theorem reader_has_all_two : ∃ s : State Bool Bool, Run step AppliedBeforeCompaction init s ∧
    s.appended = [true, false] ∧ joinAll s.appended ≤ (s.sessions true).replica := by
  have hrun : ∃ s : State Bool Bool, exec step AppliedBeforeCompaction init (twoWriters true) = some s ∧
      s.appended = [true, false] ∧ (∀ f ∈ s.files, f.1 ∈ (s.sessions true).seen) ∧
      (s.sessions true).out = [] ∧ ∀ j, (s.sessions j).unflushed = [] := ⟨_, rfl, rfl, by decide, rfl, by decide⟩
  obtain ⟨s, hs, happended, hread, happlied, hflushed⟩ := hrun
  have h := run_of_exec _ _ s hs
  exact ⟨s, h, happended, reader_has_all s h true hread happlied hflushed⟩

end
end Savoire.UpdateLog
