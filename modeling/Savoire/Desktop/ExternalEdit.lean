import Mathlib.Data.List.Lex
import Mathlib.Data.Prod.Lex
import Mathlib.Order.BoundedOrder.Lattice
import Savoire.Desktop.TextReplica
import Savoire.Library.Transition

/-! Several sessions on one folder and the visible file of a text document: editors, projections, other
programs that write the file, and the sessions that take such a write into the text. -/
set_option linter.unusedSectionVars false
namespace Savoire.TextFile
open Join TextDiff Transition

/-- The visible file, the update files and the digests of `projected.json`. -/
structure Folder (ι U H : Type*) where
  file : Units
  files : List U
  hashes : List H
  replicas : ι → Replica U H

inductive Event (ι U : Type*)
  /-- The editor's update comes in. -/
  | edit (i : ι) (update : U)
  | flush (i : ι)
  | pull (i : ι)
  /-- The log is read, then the visible file: on a watch event, and when a document is opened. -/
  | ingest (i : ι)
  | project (i : ι)
  /-- Another program writes the visible file. -/
  | write (content : Units)
  /-- The document is closed in a session and opened again. -/
  | reopen (i : ι)
  deriving DecidableEq

variable {ι U C V H : Type*} [DecidableEq ι] [SemilatticeSup U] [OrderBot U] [DecidableLE U] [DecidableEq H]
variable (c : Setting U C V H)

namespace Folder

def opened (file : Units) : Folder ι U H := ⟨file, [], [], fun _ => .fresh⟩

def set (s : Folder ι U H) (i : ι) (r : Replica U H) : Folder ι U H :=
  { s with replicas := Function.update s.replicas i r }

def flush (s : Folder ι U H) (i : ι) : Folder ι U H :=
  { s.set i ((s.replicas i).flush s.files).1 with files := ((s.replicas i).flush s.files).2 }

def pull (s : Folder ι U H) (i : ι) : Folder ι U H := s.set i ((s.replicas i).pull s.files)

def merge (kind : Kind) (s : Folder ι U H) (i : ι) : Folder ι U H :=
  (s.set i ((s.replicas i).applyDeterministic c kind (s.replicas i).agreement s.file)).flush i

def reconcileText (s : Folder ι U H) (i : ι) : Folder ι U H :=
  let r := s.replicas i
  match r.reading c s.file with
  | .seed => s.merge c .seed i
  | .empty => s.set i r.noteEmpty
  | .agreed => s.set i (r.noteAgreed s.file)
  | .unchanged => s
  | .stale => s.set i (r.noteStale s.file)
  | .unknown =>
    if r.isProjection c s.hashes s.file then s.set i (r.noteStale s.file) else s.merge c .edit i

def writeText (s : Folder ι U H) (i : ι) : Folder ι U H :=
  let r := (s.flush i).replicas i
  let text := c.text r.doc
  { (s.flush i).set i ((r.rememberProjection c text).noteWritten text r.doc) with
    file := text
    hashes := remember (c.contentHash text) s.hashes }

/-- A file that was never compared with the text is read before it is written. -/
def confront (s : Folder ι U H) (i : ι) : Folder ι U H :=
  let r := s.replicas i
  let known := r.staleFile = some s.file || s.file = [] || r.isProjection c s.hashes s.file
  if r.base.isNone && !known then s.reconcileText c i else s

def projectNow (s : Folder ι U H) (i : ι) : Folder ι U H :=
  let s := s.confront c i
  if (s.replicas i).base.map Prod.fst = some (c.text (s.replicas i).doc) then s else s.writeText c i

def ingest (s : Folder ι U H) (i : ι) : Folder ι U H := (s.pull i).reconcileText c i

end Folder

def step (s : Folder ι U H) : Event ι U → Option (Folder ι U H)
  | .edit i u => some (s.set i ((s.replicas i).applyUpdate u .editor))
  | .flush i => some (s.flush i)
  | .pull i => some (s.pull i)
  | .ingest i => some (s.ingest c i)
  | .project i =>
    if (s.replicas i).scheduled then
      some ((s.set i { s.replicas i with scheduled := false }).projectNow c i)
    else none
  | .write content => some { s with file := content }
  | .reopen i => some (((s.flush i).set i .fresh).ingest c i)

/-- The events of sessions that take a write into the text and exchange their updates. -/
def Event.Merges : Event ι U → Prop
  | .flush _ | .pull _ | .ingest _ => True
  | _ => False

def Replica.Recognises (r : Replica U H) (hashes : List H) (content : Units) : Prop :=
  r.staleFile = some content ∨ r.isProjection c hashes content = true

def kindAt (state : U) : Kind := if state ≤ ⊥ then .seed else .edit

/-- Where sessions in state `state` end that last agreed with the file in `agreed`. -/
def outcome (state agreed : U) (content : Units) : U :=
  if content = c.text state ∨ content = c.text agreed then state
  else state ⊔ c.merged (kindAt state) agreed content

variable {c}

namespace Replica
variable {r : Replica U H} {files : List U}

theorem applyUpdate_disk (u : U) : r.applyUpdate u .disk = { r with doc := r.doc ⊔ u } := by
  unfold applyUpdate
  split
  · rename_i h
    rw [sup_eq_left.mpr h]
  · simp

theorem foldl_disk (l : List (U × Nat)) (r : Replica U H) :
    l.foldl (fun r f => r.applyUpdate f.1 .disk) r = { r with doc := r.doc ⊔ joinAll (l.map Prod.fst) } := by
  induction l generalizing r with
  | nil => simp
  | cons f l ih =>
    have hjoin : joinAll (f.1 :: l.map Prod.fst) = f.1 ⊔ joinAll (l.map Prod.fst) := by
      rw [← List.singleton_append, joinAll_append, joinAll_singleton]
    rw [List.foldl_cons, ih, applyUpdate_disk, List.map_cons, hjoin, sup_assoc]

theorem pull_eq (files : List U) : r.pull files = { r with
    doc := r.doc ⊔ joinAll ((r.unread files).map Prod.fst)
    seen := r.seen ++ (r.unread files).map Prod.snd } := by
  rw [pull, foldl_disk]

theorem mem_unread {f : U × Nat} (h : f ∈ r.unread files) : files[f.2]? = some f.1 :=
  List.mem_zipIdx_iff_getElem?.mp (List.mem_filter.mp h).1

/-- A replica that remembers what is so: the last agreement is a text of its state, and its state holds
what it has read and written. -/
structure OK (c : Setting U C V H) (r : Replica U H) (files : List U) : Prop where
  base : ∀ t b, r.base = some (t, b) → t = c.text b ∧ b ≤ r.doc
  pending : ∀ u ∈ r.pending, u ≤ r.doc ∧ u ≠ ⊥
  seen : ∀ n ∈ r.seen, ∃ f, files[n]? = some f ∧ f ≤ r.doc
  empty : r.isEmpty = true → r.doc = ⊥

section
variable (h : r.OK c files)
include h

theorem OK.agreement_le : r.agreement ≤ r.doc := by
  unfold agreement
  cases hb : r.base with
  | none => exact le_rfl
  | some p => exact (h.base p.1 p.2 hb).2

theorem OK.mono (more : List U) : r.OK c (files ++ more) where
  __ := h
  seen n hn := by
    obtain ⟨f, hf, hle⟩ := h.seen n hn
    exact ⟨f, List.getElem?_append_left (List.getElem?_eq_some_iff.mp hf).1 ▸ hf, hle⟩

theorem OK.note {base : Option (Units × U)} {stale : Option Units} {scheduled : Bool}
    {projected : List H}
    (hb : ∀ t b, base = some (t, b) → t = c.text b ∧ b ≤ r.doc) :
    ({ r with base := base, staleFile := stale, scheduled := scheduled, projected := projected } : Replica U H).OK
      c files where
  base := hb
  __ := h

theorem OK.applyUpdate (u : U) {origin : Origin} (ho : origin ≠ .disk) :
    (r.applyUpdate u origin).OK c files := by
  unfold Replica.applyUpdate
  split
  · exact h
  · rename_i hu
    refine ⟨fun t b hb => ⟨(h.base t b hb).1, (h.base t b hb).2.trans le_sup_left⟩, fun v hv => ?_, fun n hn => ?_,
      fun hempty => ?_⟩
    · rw [List.mem_append, List.mem_singleton] at hv
      obtain hv | rfl := hv
      · exact ⟨(h.pending v hv).1.trans le_sup_left, (h.pending v hv).2⟩
      · exact ⟨le_sup_right, fun hbot => hu (hbot ▸ bot_le)⟩
    · obtain ⟨f, hf, hle⟩ := h.seen n hn
      exact ⟨f, hf, hle.trans le_sup_left⟩
    · simp [isEmpty] at hempty

theorem OK.pull : (r.pull files).OK c files := by
  rw [pull_eq]
  refine ⟨fun t b hb => ⟨(h.base t b hb).1, (h.base t b hb).2.trans le_sup_left⟩,
    fun v hv => ⟨(h.pending v hv).1.trans le_sup_left, (h.pending v hv).2⟩, fun n hn => ?_, fun hempty => ?_⟩
  · obtain hn | hn := List.mem_append.mp hn
    · obtain ⟨f, hf, hle⟩ := h.seen n hn
      exact ⟨f, hf, hle.trans le_sup_left⟩
    · obtain ⟨f, hf, rfl⟩ := List.mem_map.mp hn
      exact ⟨f.1, mem_unread hf, (le_joinAll _ _ (List.mem_map_of_mem hf)).trans le_sup_right⟩
  · simp only [isEmpty, Bool.and_eq_true, List.isEmpty_iff, List.append_eq_nil_iff, List.map_eq_nil_iff] at hempty
    have hdoc := h.empty (by simp [isEmpty, hempty.1.1, hempty.2])
    simp [hdoc, hempty.1.2]

theorem OK.flush : (r.flush files).1.OK c (r.flush files).2 := by
  unfold Replica.flush
  split
  · exact h
  · have hle : joinAll r.pending ≤ r.doc := (joinAll_le_iff _ _).mpr fun u hu => (h.pending u hu).1
    refine ⟨h.base, fun _ hu => (nomatch hu), fun n hn => ?_, fun hempty => by simp [isEmpty] at hempty⟩
    obtain hn | hn := List.mem_append.mp hn
    · exact (h.mono _).seen n hn
    · rw [List.mem_singleton.mp hn]
      exact ⟨joinAll r.pending, by simp, hle⟩

theorem OK.applyDeterministic (kind : Kind) (content : Units) :
    (r.applyDeterministic c kind r.agreement content).OK c files := by
  have hdoc := doc_applyDeterministic (c := c) kind content h.agreement_le
  have hsplit : r.applyDeterministic c kind r.agreement content =
      { ({ r with base := none, staleFile := none } : Replica U H).applyUpdate
          (c.encodeStateAsUpdate (c.merged kind r.agreement content) (c.encodeStateVector r.agreement))
          (if kind = Kind.seed then .seed else .file) with
        base := some (content, c.merged kind r.agreement content) } := by
    unfold Replica.applyDeterministic Replica.applyUpdate
    dsimp only
    split <;> rfl
  have hfile : (if kind = Kind.seed then Origin.seed else .file) ≠ .disk := by
    split <;> exact fun h => by cases h
  have hnone : ({ r with base := none, staleFile := none } : Replica U H).OK c files :=
    h.note fun t b hb => by cases hb
  rw [hsplit]
  refine (hnone.applyUpdate _ hfile).note fun t b hb => ?_
  obtain ⟨rfl, rfl⟩ := Prod.mk.inj (Option.some.inj hb)
  rw [hsplit] at hdoc
  exact ⟨(c.text_merged kind r.agreement content).symm, hdoc.symm ▸ le_sup_right⟩

end

end Replica

namespace Folder
variable {s : Folder ι U H} {i j : ι} {r : Replica U H}

@[simp] theorem replicas_set_self : (s.set i r).replicas i = r := Function.update_self ..

theorem replicas_set_of_ne (h : j ≠ i) : (s.set i r).replicas j = s.replicas j := Function.update_of_ne h ..

@[simp] theorem replicas_flush_self : (s.flush i).replicas i = ((s.replicas i).flush s.files).1 :=
  Function.update_self ..

theorem replicas_flush_of_ne (h : j ≠ i) : (s.flush i).replicas j = s.replicas j := Function.update_of_ne h ..

/-- Every replica is sound, and every update file is in the state of a session. -/
structure Inv (c : Setting U C V H) (s : Folder ι U H) : Prop where
  ok : ∀ i, (s.replicas i).OK c s.files
  files : ∀ f ∈ s.files, f ≠ ⊥ ∧ ∃ i, f ≤ (s.replicas i).doc

theorem Inv.isEmpty_iff (h : s.Inv c) (i : ι) : (s.replicas i).isEmpty = true ↔ (s.replicas i).doc = ⊥ := by
  refine ⟨(h.ok i).empty, fun hbot => ?_⟩
  have hseen : (s.replicas i).seen = [] := by
    refine List.eq_nil_iff_forall_not_mem.mpr fun n hn => ?_
    obtain ⟨f, hf, hle⟩ := (h.ok i).seen n hn
    exact (h.files f (List.mem_of_getElem? hf)).1 (le_bot_iff.mp (hbot ▸ hle))
  have hpending : (s.replicas i).pending = [] := by
    refine List.eq_nil_iff_forall_not_mem.mpr fun u hu => ?_
    obtain ⟨hle, hne⟩ := (h.ok i).pending u hu
    exact hne (le_bot_iff.mp (hbot ▸ hle))
  simp [Replica.isEmpty, hseen, hpending]

theorem Inv.set (h : s.Inv c) (hr : r.OK c s.files) (hdoc : (s.replicas i).doc ≤ r.doc) : (s.set i r).Inv c where
  ok j := by
    obtain rfl | hj := eq_or_ne j i
    · rw [replicas_set_self]
      exact hr
    · rw [replicas_set_of_ne hj]
      exact h.ok j
  files f hf := by
    obtain ⟨hne, j, hle⟩ := h.files f hf
    obtain rfl | hj := eq_or_ne j i
    · exact ⟨hne, j, by rw [replicas_set_self]; exact hle.trans hdoc⟩
    · exact ⟨hne, j, by rwa [replicas_set_of_ne hj]⟩

theorem doc_flush (r : Replica U H) (files : List U) : (r.flush files).1.doc = r.doc := by
  unfold Replica.flush
  split <;> rfl

theorem Inv.flush (h : s.Inv c) (i : ι) : (s.flush i).Inv c := by
  have hfiles : (s.flush i).files = s.files ∨ ((s.replicas i).pending ≠ [] ∧
      (s.flush i).files = s.files ++ [joinAll (s.replicas i).pending]) := by
    unfold Folder.flush Replica.flush
    split
    · exact .inl rfl
    · rename_i hne
      exact .inr ⟨hne, rfl⟩
  refine ⟨fun j => ?_, fun f hf => ?_⟩
  · obtain rfl | hj := eq_or_ne j i
    · rw [replicas_flush_self]
      exact (h.ok j).flush
    · rw [replicas_flush_of_ne hj]
      obtain hsame | ⟨-, hmore⟩ := hfiles
      · rw [hsame]
        exact h.ok j
      · rw [hmore]
        exact (h.ok j).mono _
  · have hdocs : ∀ j, ((s.flush i).replicas j).doc = (s.replicas j).doc := by
      intro j
      obtain rfl | hj := eq_or_ne j i
      · rw [replicas_flush_self, doc_flush]
      · rw [replicas_flush_of_ne hj]
    have hnew : f ∈ s.files ∨ ((s.replicas i).pending ≠ [] ∧ f = joinAll (s.replicas i).pending) := by
      obtain hsame | ⟨hne, hmore⟩ := hfiles
      · exact .inl (hsame ▸ hf)
      · rw [hmore, List.mem_append, List.mem_singleton] at hf
        exact hf.imp_right fun h => ⟨hne, h⟩
    obtain hold | ⟨hne, rfl⟩ := hnew
    · obtain ⟨hbot, j, hle⟩ := h.files f hold
      exact ⟨hbot, j, by rwa [hdocs]⟩
    · obtain ⟨u, hu⟩ := List.exists_mem_of_ne_nil _ hne
      refine ⟨fun hbot => ((h.ok i).pending u hu).2 (le_bot_iff.mp (hbot ▸ le_joinAll _ u hu)), i, ?_⟩
      rw [hdocs]
      exact (joinAll_le_iff _ _).mpr fun v hv => ((h.ok i).pending v hv).1

theorem Inv.merge (h : s.Inv c) (kind : Kind) (i : ι) : (s.merge c kind i).Inv c := by
  refine Inv.flush (h.set ((h.ok i).applyDeterministic kind s.file) ?_) i
  rw [Replica.doc_applyDeterministic _ _ (h.ok i).agreement_le]
  exact le_sup_left

theorem reconcileText_cases (c : Setting U C V H) (s : Folder ι U H) (i : ι) :
    let r := s.replicas i
    (r.isEmpty = true ∧ s.file ≠ [] ∧ s.reconcileText c i = s.merge c .seed i) ∨
    (r.isEmpty = true ∧ s.file = [] ∧ s.reconcileText c i = s.set i r.noteEmpty) ∨
    (r.isEmpty = false ∧ s.file = c.text r.doc ∧ s.reconcileText c i = s.set i (r.noteAgreed s.file)) ∨
    (r.isEmpty = false ∧ s.file ≠ c.text r.doc ∧ r.base.map Prod.fst = some s.file ∧ s.reconcileText c i = s) ∨
    (r.isEmpty = false ∧ s.file ≠ c.text r.doc ∧ r.base.map Prod.fst ≠ some s.file ∧
      r.Recognises c s.hashes s.file ∧ s.reconcileText c i = s.set i (r.noteStale s.file)) ∨
    (r.isEmpty = false ∧ s.file ≠ c.text r.doc ∧ r.base.map Prod.fst ≠ some s.file ∧
      ¬ r.Recognises c s.hashes s.file ∧ s.reconcileText c i = s.merge c .edit i) := by
  intro r
  have hdef : s.reconcileText c i = match r.reading c s.file with
      | .seed => s.merge c .seed i
      | .empty => s.set i r.noteEmpty
      | .agreed => s.set i (r.noteAgreed s.file)
      | .unchanged => s
      | .stale => s.set i (r.noteStale s.file)
      | .unknown =>
        if r.isProjection c s.hashes s.file then s.set i (r.noteStale s.file) else s.merge c .edit i := rfl
  rw [hdef]
  unfold Replica.Recognises
  have hspec := Replica.reading_spec c r s.file
  cases hr : r.reading c s.file with
  | seed =>
    rw [hr] at hspec
    simp [hspec]
  | empty =>
    rw [hr] at hspec
    simp [hspec]
  | agreed =>
    rw [hr] at hspec
    simp [hspec]
  | unchanged =>
    rw [hr] at hspec
    simp [hspec]
  | stale =>
    rw [hr] at hspec
    simp [hspec]
  | unknown =>
    rw [hr] at hspec
    by_cases hproj : r.isProjection c s.hashes s.file = true
    · simp [hspec, hproj]
    · simp [hspec, hproj]

theorem Inv.reconcileText (h : s.Inv c) (i : ι) : (s.reconcileText c i).Inv c := by
  have hi := h.ok i
  obtain ⟨-, -, heq⟩ | ⟨hempty, -, heq⟩ | ⟨-, htext, heq⟩ | ⟨-, -, -, heq⟩ | ⟨-, -, -, -, heq⟩ |
    ⟨-, -, -, -, heq⟩ := reconcileText_cases c s i
  · rw [heq]
    exact h.merge .seed i
  · rw [heq]
    refine h.set (hi.note fun t b hb => ?_) le_rfl
    obtain ⟨rfl, rfl⟩ := Prod.mk.inj (Option.some.inj hb)
    rw [hi.empty hempty]
    exact ⟨c.text_bot.symm, le_rfl⟩
  · rw [heq]
    refine h.set (hi.note fun t b hb => ?_) le_rfl
    obtain ⟨rfl, rfl⟩ := Prod.mk.inj (Option.some.inj hb)
    exact ⟨htext, le_rfl⟩
  · rwa [heq]
  · rw [heq]
    exact h.set (hi.note fun t b hb => by cases hb) le_rfl
  · rw [heq]
    exact h.merge .edit i

theorem Inv.file (h : s.Inv c) (content : Units) (hashes : List H) :
    ({ s with file := content, hashes := hashes } : Folder ι U H).Inv c :=
  ⟨h.ok, h.files⟩

theorem Inv.writeText (h : s.Inv c) (i : ι) : (s.writeText c i).Inv c := by
  have hi := (h.flush i).ok i
  have hr : ((((s.flush i).replicas i).rememberProjection c (c.text ((s.flush i).replicas i).doc)).noteWritten
      (c.text ((s.flush i).replicas i).doc) ((s.flush i).replicas i).doc).OK c (s.flush i).files := by
    refine hi.note fun t b hb => ?_
    obtain ⟨rfl, rfl⟩ := Prod.mk.inj (Option.some.inj hb)
    exact ⟨rfl, le_rfl⟩
  exact ((h.flush i).set hr le_rfl).file _ _

theorem Inv.confront (h : s.Inv c) (i : ι) : (s.confront c i).Inv c := by
  unfold Folder.confront
  dsimp only
  split
  · exact h.reconcileText i
  · exact h

theorem Inv.projectNow (h : s.Inv c) (i : ι) : (s.projectNow c i).Inv c := by
  unfold Folder.projectNow
  dsimp only
  split
  · exact h.confront i
  · exact (h.confront i).writeText i

theorem Inv.pull (h : s.Inv c) (i : ι) : (s.pull i).Inv c := by
  refine h.set (h.ok i).pull ?_
  rw [Replica.pull_eq]
  exact le_sup_left

theorem fresh_ok (files : List U) : (Replica.fresh : Replica U H).OK c files where
  base t b hb := by cases hb
  pending u hu := by cases hu
  seen n hn := by cases hn
  empty _ := rfl

theorem unread_fresh (files : List U) : (Replica.fresh : Replica U H).unread files = files.zipIdx := by
  simp [Replica.unread, Replica.fresh]

theorem Inv.pullFresh (h : s.Inv c) (i : ι) : ((s.set i .fresh).pull i).Inv c := by
  have hdoc : (((s.set i .fresh).pull i).replicas i).doc = joinAll s.files := by
    rw [Folder.pull, replicas_set_self, replicas_set_self, Replica.pull_eq, unread_fresh]
    simp [Replica.fresh, Folder.set]
  refine ⟨fun j => ?_, fun f hf => ⟨(h.files f hf).1, i, hdoc ▸ le_joinAll _ f hf⟩⟩
  obtain rfl | hj := eq_or_ne j i
  · rw [Folder.pull, replicas_set_self, replicas_set_self]
    exact (fresh_ok s.files).pull
  · rw [Folder.pull, replicas_set_of_ne hj, replicas_set_of_ne hj]
    exact h.ok j

theorem Inv.step {s' : Folder ι U H} {e : Event ι U} (h : s.Inv c) (hs : TextFile.step c s e = some s') : s'.Inv c := by
  cases e with
  | edit i u =>
    obtain rfl := Option.some.inj hs
    refine h.set ((h.ok i).applyUpdate u fun hne => by cases hne) ?_
    rw [Replica.doc_applyUpdate]
    exact le_sup_left
  | flush i =>
    obtain rfl := Option.some.inj hs
    exact h.flush i
  | pull i =>
    obtain rfl := Option.some.inj hs
    exact h.pull i
  | ingest i =>
    obtain rfl := Option.some.inj hs
    exact (h.pull i).reconcileText i
  | project i =>
    simp only [TextFile.step] at hs
    obtain ⟨-, rfl⟩ := Option.ite_some_none_eq_some.1 hs
    exact (h.set (r := { s.replicas i with scheduled := false }) ((h.ok i).note (h.ok i).base) le_rfl).projectNow i
  | write content =>
    obtain rfl := Option.some.inj hs
    exact h.file _ _
  | reopen i =>
    obtain rfl := Option.some.inj hs
    exact ((h.flush i).pullFresh i).reconcileText i

theorem opened_inv (file : Units) : (opened file : Folder ι U H).Inv c :=
  ⟨fun _ => fresh_ok [], fun f hf => by cases hf⟩

end Folder

def Adds (state goal u : U) : Prop := u ≤ state ∨ state ⊔ u = goal

theorem Adds.sup {state goal doc u : U} (hgoal : state ≤ goal) (hdoc : doc = state ∨ doc = goal)
    (hu : Adds state goal u) :
    doc ⊔ u = state ∨ doc ⊔ u = goal := by
  obtain rfl | rfl := hdoc
  · obtain hu | hu := hu
    · exact .inl (sup_eq_left.mpr hu)
    · exact .inr hu
  · obtain hu | hu := hu
    · exact .inr (sup_eq_left.mpr (hu.trans hgoal))
    · exact .inr (sup_eq_left.mpr (hu ▸ le_sup_right))

theorem Adds.joinAll {state goal : U} {l : List U} (hgoal : state ≤ goal) (h : ∀ u ∈ l, Adds state goal u) :
    Adds state goal (Join.joinAll l) := by
  have hsup : state ⊔ Join.joinAll l = state ∨ state ⊔ Join.joinAll l = goal := by
    induction l with
    | nil => exact .inl (by simp)
    | cons u l ih =>
      have hjoin : Join.joinAll (u :: l) = Join.joinAll l ⊔ u := by
        rw [← List.singleton_append, joinAll_append, joinAll_singleton, sup_comm]
      rw [hjoin, ← sup_assoc]
      exact Adds.sup hgoal (ih fun v hv => h v (List.mem_cons_of_mem u hv)) (h u List.mem_cons_self)
  obtain hstay | hgoal := hsup
  · exact .inl (sup_eq_left.mp hstay)
  · exact .inr hgoal

namespace Folder
variable {s s' : Folder ι U H} {i j : ι} {state goal : U} {content : Units}

/-- The sessions stand in the common state or in the goal, and so does all that is still to be read. -/
structure Between (state goal : U) (content : Units) (c : Setting U C V H) (s : Folder ι U H) : Prop where
  inv : s.Inv c
  file : s.file = content
  docs : ∀ i, (s.replicas i).doc = state ∨ (s.replicas i).doc = goal
  files : ∀ f ∈ s.files, Adds state goal f
  pending : ∀ i, ∀ u ∈ (s.replicas i).pending, Adds state goal u

theorem Between.flush (h : s.Between state goal content c) (hgoal : state ≤ goal) (i : ι) :
    (s.flush i).Between state goal content c := by
  have hjoin := Adds.joinAll hgoal (h.pending i)
  refine ⟨h.inv.flush i, h.file, fun j => ?_, fun f hf => ?_, fun j u hu => ?_⟩
  · obtain rfl | hj := eq_or_ne j i
    · rw [replicas_flush_self, doc_flush]
      exact h.docs j
    · rw [replicas_flush_of_ne hj]
      exact h.docs j
  · unfold Folder.flush Replica.flush at hf
    split at hf
    · exact h.files f hf
    · obtain hf | hf := List.mem_append.mp hf
      · exact h.files f hf
      · rw [List.mem_singleton.mp hf]
        exact hjoin
  · obtain rfl | hj := eq_or_ne j i
    · rw [replicas_flush_self] at hu
      unfold Replica.flush at hu
      split at hu
      · exact h.pending j u hu
      · cases hu
    · rw [replicas_flush_of_ne hj] at hu
      exact h.pending j u hu

theorem Between.set (h : s.Between state goal content c) {r : Replica U H} (hinv : (s.set i r).Inv c)
    (hdoc : r.doc = state ∨ r.doc = goal) (hpending : ∀ u ∈ r.pending, Adds state goal u) :
    (s.set i r).Between state goal content c := by
  refine ⟨hinv, h.file, fun j => ?_, h.files, fun j u hu => ?_⟩
  · obtain rfl | hj := eq_or_ne j i
    · rwa [replicas_set_self]
    · rw [replicas_set_of_ne hj]
      exact h.docs j
  · obtain rfl | hj := eq_or_ne j i
    · rw [replicas_set_self] at hu
      exact hpending u hu
    · rw [replicas_set_of_ne hj] at hu
      exact h.pending j u hu

theorem Between.pull (h : s.Between state goal content c) (hgoal : state ≤ goal) (i : ι) :
    (s.pull i).Between state goal content c := by
  refine h.set (h.inv.pull i) ?_ fun u hu => h.pending i u ?_
  · rw [Replica.pull_eq]
    refine Adds.sup hgoal (h.docs i) (Adds.joinAll hgoal fun u hu => ?_)
    obtain ⟨f, hf, rfl⟩ := List.mem_map.mp hu
    exact h.files f.1 (List.mem_of_getElem? (Replica.mem_unread hf))
  · rwa [Replica.pull_eq] at hu

theorem pending_applyDeterministic {r : Replica U H} {kind : Kind} {agreed : U} {u : U}
    (hu : u ∈ (r.applyDeterministic c kind agreed content).pending) :
    u ∈ r.pending ∨ u = c.encodeStateAsUpdate (c.merged kind agreed content) (c.encodeStateVector agreed) := by
  unfold Replica.applyDeterministic Replica.applyUpdate at hu
  dsimp only at hu
  split at hu
  · exact .inl hu
  · have hnew : u ∈ r.pending ++
        [c.encodeStateAsUpdate (c.merged kind agreed content) (c.encodeStateVector agreed)] := by
      cases kind <;> exact hu
    exact (List.mem_append.mp hnew).imp_right List.mem_singleton.mp

theorem Between.apply (h : s.Between state goal content c) {kind : Kind} (hagreed : (s.replicas i).agreement ≤ state)
    (hreach : state ⊔ c.merged kind (s.replicas i).agreement content = goal) :
    (s.set i ((s.replicas i).applyDeterministic c kind (s.replicas i).agreement content)).Between state goal content c ∧
      ((s.replicas i).applyDeterministic c kind (s.replicas i).agreement content).doc = goal := by
  have hdoc := Replica.doc_applyDeterministic (c := c) kind content ((h.inv.ok i).agreement_le)
  have hsup : (s.replicas i).doc ⊔ c.merged kind (s.replicas i).agreement content = goal := by
    obtain hd | hd := h.docs i
    · rw [hd, hreach]
    · rw [hd, sup_eq_left]
      exact hreach ▸ le_sup_right
  rw [hsup] at hdoc
  refine ⟨h.set ?_ (.inr hdoc) fun u hu => ?_, hdoc⟩
  · refine h.inv.set ((h.inv.ok i).applyDeterministic kind content) ?_
    rw [hdoc, ← hsup]
    exact le_sup_left
  · obtain hu | rfl := pending_applyDeterministic hu
    · exact h.pending i u hu
    · exact .inr ((c.sup_update hagreed).trans hreach)

/-- The sessions before and after they have taken a write into the text: the goal is the common state with
one update of the agreed one. -/
structure Merging (state agreed goal : U) (content : Units) (c : Setting U C V H) (s : Folder ι U H) : Prop
    extends s.Between state goal content c where
  unknown : ∀ i, ¬ (s.replicas i).Recognises c s.hashes content
  base : ∀ i t b, (s.replicas i).base = some (t, b) → b = agreed ∨ (t = content ∧ (s.replicas i).doc = goal)
  none : ∀ i, (s.replicas i).base = none → agreed = state

section
variable {agreed : U}

section
variable (h : s.Merging state agreed goal content c)
include h

theorem Merging.flush (hgoal : state ≤ goal) (i : ι) :
    (s.flush i).Merging state agreed goal content c := by
  have hkeep : ∀ j, ((s.flush i).replicas j).base = (s.replicas j).base ∧
      ((s.flush i).replicas j).doc = (s.replicas j).doc ∧
      ((s.flush i).replicas j).staleFile = (s.replicas j).staleFile ∧
      ((s.flush i).replicas j).projected = (s.replicas j).projected := by
    intro j
    obtain rfl | hj := eq_or_ne j i
    · rw [replicas_flush_self]
      unfold Replica.flush
      split <;> exact ⟨rfl, rfl, rfl, rfl⟩
    · rw [replicas_flush_of_ne hj]
      exact ⟨rfl, rfl, rfl, rfl⟩
  refine ⟨h.toBetween.flush hgoal i, fun j => ?_, fun j => ?_, fun j => ?_⟩
  · obtain ⟨-, -, hstale, hproj⟩ := hkeep j
    unfold Replica.Recognises Replica.isProjection
    rw [hstale, hproj]
    exact h.unknown j
  · obtain ⟨hb, hd, -, -⟩ := hkeep j
    rw [hb, hd]
    exact h.base j
  · rw [(hkeep j).1]
    exact h.none j

theorem Merging.set {r : Replica U H}
    (hb : (s.set i r).Between state goal content c) (hunknown : ¬ r.Recognises c s.hashes content)
    (hbase : ∀ t b, r.base = some (t, b) → b = agreed ∨ (t = content ∧ r.doc = goal))
    (hnone : r.base = Option.none → agreed = state) : (s.set i r).Merging state agreed goal content c := by
  refine ⟨hb, fun j => ?_, fun j => ?_, fun j => ?_⟩ <;> obtain rfl | hj := eq_or_ne j i
  · rwa [replicas_set_self]
  · rw [replicas_set_of_ne hj]
    exact h.unknown j
  · rwa [replicas_set_self]
  · rw [replicas_set_of_ne hj]
    exact h.base j
  · rwa [replicas_set_self]
  · rw [replicas_set_of_ne hj]
    exact h.none j

theorem Merging.pull (hgoal : state ≤ goal) (i : ι) :
    (s.pull i).Merging state agreed goal content c := by
  have hb := h.toBetween.pull hgoal i
  refine h.set hb ?_ (fun t b hbase => (h.base i t b ?_).imp_right fun hd => ⟨hd.1, ?_⟩) ?_
  · rw [Replica.pull_eq]
    exact h.unknown i
  · rwa [Replica.pull_eq] at hbase
  · -- A replica in the goal stays there: its state grows, and does not leave the two.
    have hle : goal ≤ ((s.replicas i).pull s.files).doc := by
      rw [Replica.pull_eq, ← hd.2]
      exact le_sup_left
    obtain hstate | hsame := hb.docs i
    · rw [Folder.pull, replicas_set_self] at hstate
      exact le_antisymm (hstate ▸ hgoal) hle
    · rwa [Folder.pull, replicas_set_self] at hsame
  · rw [Replica.pull_eq]
    exact h.none i

end

/-- What makes the goal: the content is new to the common state and to the last agreement. -/
structure Goal (c : Setting U C V H) (state agreed goal : U) (content : Units) : Prop where
  not_text : content ≠ c.text state
  not_agreed : content ≠ c.text agreed
  agreed_le : agreed ≤ state
  eq : goal = state ⊔ c.merged (kindAt state) agreed content

theorem Goal.le (hg : Goal c state agreed goal content) : state ≤ goal := hg.eq ▸ le_sup_left

theorem Goal.text (hg : Goal c state agreed goal content) (h : agreed = state) : c.text goal = content := by
  rw [hg.eq, h, sup_eq_right.mpr (c.le_merged _ _ _), c.text_merged]

theorem Merging.merge (h : s.Merging state agreed goal content c) (hg : Goal c state agreed goal content) {kind : Kind}
    (hagreement : (s.replicas i).agreement = agreed) (hreach : state ⊔ c.merged kind agreed content = goal) :
    (s.merge c kind i).Merging state agreed goal content c ∧ ((s.merge c kind i).replicas i).doc = goal := by
  have hle : (s.replicas i).agreement ≤ state := hagreement.symm ▸ hg.agreed_le
  have hreach' : state ⊔ c.merged kind (s.replicas i).agreement content = goal := by rw [hagreement, hreach]
  obtain ⟨hset, hdoc⟩ := h.toBetween.apply (i := i) hle hreach'
  refine ⟨?_, by rw [Folder.merge, replicas_flush_self, replicas_set_self, doc_flush, h.file, hdoc]⟩
  rw [Folder.merge, h.file]
  refine Merging.flush (h.set hset ?_ (fun t b hb => .inr ⟨?_, hdoc⟩) fun hb => ?_) hg.le i
  · rintro (hstale | hproj)
    · rw [Replica.staleFile_applyDeterministic] at hstale
      cases hstale
    · rw [Replica.isProjection, Replica.projected_applyDeterministic] at hproj
      exact h.unknown i (.inr hproj)
  · rw [Replica.base_applyDeterministic] at hb
    exact (Prod.mk.inj (Option.some.inj hb)).1.symm
  · rw [Replica.base_applyDeterministic] at hb
    cases hb

theorem Merging.ingest (h : s.Merging state agreed goal content c) (hg : Goal c state agreed goal content) (i : ι) :
    (s.ingest c i).Merging state agreed goal content c ∧ ((s.ingest c i).replicas i).doc = goal := by
  have hp := h.pull hg.le i
  unfold Folder.ingest
  generalize s.pull i = s at hp ⊢
  have hdoc := hp.docs i
  have hi := hp.inv.ok i
  have hbot : (s.replicas i).isEmpty = true → state = ⊥ := by
    intro hempty
    obtain hd | hd := hdoc
    · rw [← hd, hi.empty hempty]
    · exact le_bot_iff.mp (hi.empty hempty ▸ hd ▸ hg.le)
  obtain ⟨hempty, hfile, heq⟩ | ⟨hempty, hfile, heq⟩ | ⟨hempty, htext, heq⟩ | ⟨hempty, htext, hbase, heq⟩ |
    ⟨-, -, -, hrec, heq⟩ | ⟨hempty, htext, hbase, hrec, heq⟩ := reconcileText_cases c s i
  · have hstate := hbot hempty
    have hagreement : (s.replicas i).agreement = agreed := by
      rw [le_bot_iff.mp (hi.agreement_le.trans (hi.empty hempty).le), le_bot_iff.mp (hg.agreed_le.trans hstate.le)]
    rw [heq]
    refine hp.merge hg hagreement ?_
    rw [hg.eq, kindAt, if_pos hstate.le]
  · refine absurd ?_ hg.not_text
    rw [hbot hempty, c.text_bot, ← hfile, hp.file]
  · have hgoal : (s.replicas i).doc = goal := by
      refine hdoc.resolve_left fun hd => hg.not_text ?_
      rw [← hp.file, htext, hd]
    rw [heq]
    refine ⟨hp.set (hp.toBetween.set ?_ (hp.docs i) (hp.pending i)) ?_ (fun t b hb => .inr ⟨?_, hgoal⟩)
      (fun hb => by cases hb), by rw [replicas_set_self]; exact hgoal⟩
    · rw [← heq]
      exact hp.inv.reconcileText i
    · rintro (hstale | hproj)
      · cases hstale
      · exact hp.unknown i (.inr hproj)
    · rw [← (Prod.mk.inj (Option.some.inj hb)).1, hp.file]
  · rw [heq]
    obtain ⟨⟨t, b⟩, hsome, ht⟩ := Option.map_eq_some_iff.mp hbase
    refine ⟨hp, ?_⟩
    obtain rfl | ⟨-, hgoal⟩ := hp.base i t b hsome
    · refine absurd ?_ hg.not_agreed
      rw [← (hi.base t b hsome).1, ← hp.file]
      exact ht.symm
    · exact hgoal
  · rw [hp.file] at hrec
    exact absurd hrec (hp.unknown i)
  · have hne : agreed ≠ state ∨ (s.replicas i).doc = state := by
      obtain hd | hd := hdoc
      · exact .inr hd
      · refine .inl fun hsame => htext ?_
        rw [hp.file, hd, hg.text hsame]
    have hagreement : (s.replicas i).agreement = agreed := by
      unfold Replica.agreement
      cases hb : (s.replicas i).base with
      | none =>
        have hsame := hp.none i hb
        exact (hne.resolve_left fun h => h hsame).trans hsame.symm
      | some p =>
        obtain ⟨t, b⟩ := p
        obtain h | ⟨rfl, -⟩ := hp.base i t b hb
        · exact h
        · exact absurd (by rw [hb, hp.file]; rfl) hbase
    rw [heq]
    refine hp.merge hg hagreement ?_
    rw [hg.eq, kindAt, if_neg]
    intro hbot
    have hstate := le_bot_iff.mp hbot
    have hsame : agreed = state := by rw [hstate, le_bot_iff.mp (hg.agreed_le.trans hbot)]
    have hd := hne.resolve_left fun h => h hsame
    have hfull := (hp.inv.isEmpty_iff i).mpr (hd.trans hstate)
    rw [hempty] at hfull
    cases hfull

structure Resting (state agreed : U) (content : Units) (c : Setting U C V H) (s : Folder ι U H) : Prop
    extends s.Between state state content c where
  known : content = c.text state ∨ (agreed ≠ state ∧ ∀ i, (s.replicas i).base = some (content, agreed))

theorem Resting.flush (h : s.Resting state agreed content c) (i : ι) : (s.flush i).Resting state agreed content c := by
  refine ⟨h.toBetween.flush le_rfl i, h.known.imp_right fun hk => ⟨hk.1, fun j => ?_⟩⟩
  obtain rfl | hj := eq_or_ne j i
  · rw [replicas_flush_self]
    unfold Replica.flush
    split <;> exact hk.2 j
  · rw [replicas_flush_of_ne hj]
    exact hk.2 j

theorem Resting.pull (h : s.Resting state agreed content c) (i : ι) : (s.pull i).Resting state agreed content c := by
  refine ⟨h.toBetween.pull le_rfl i, h.known.imp_right fun hk => ⟨hk.1, fun j => ?_⟩⟩
  obtain rfl | hj := eq_or_ne j i
  · rw [Folder.pull, replicas_set_self, Replica.pull_eq]
    exact hk.2 j
  · rw [Folder.pull, replicas_set_of_ne hj]
    exact hk.2 j

theorem Resting.ingest (h : s.Resting state agreed content c) (i : ι) :
    (s.ingest c i).Resting state agreed content c ∧ ((s.ingest c i).replicas i).doc = state := by
  have hp := h.pull i
  unfold Folder.ingest
  generalize s.pull i = s at hp ⊢
  have hdoc : (s.replicas i).doc = state := (hp.docs i).elim id id
  have hi := hp.inv.ok i
  have htext : (s.replicas i).isEmpty = true → content = c.text state := by
    intro hempty
    refine hp.known.resolve_right fun hk => hk.1 ?_
    have hle := (hi.base content agreed (hk.2 i)).2
    rw [hi.empty hempty] at hle hdoc
    rw [le_bot_iff.mp hle, hdoc]
  have hnote : ∀ r : Replica U H, r.doc = state → r.pending = (s.replicas i).pending → content = c.text state →
      s.reconcileText c i = s.set i r →
      (s.set i r).Resting state agreed content c ∧ ((s.set i r).replicas i).doc = state := by
    intro r hd hpend hcontent heq
    refine ⟨⟨hp.toBetween.set ?_ (.inl hd) fun u hu => hp.pending i u (hpend ▸ hu), .inl hcontent⟩, ?_⟩
    · rw [← heq]
      exact hp.inv.reconcileText i
    · rwa [replicas_set_self]
  have hstay : s.file ≠ c.text (s.replicas i).doc → (s.replicas i).base.map Prod.fst = some s.file := by
    intro hne
    rw [hp.file, hdoc] at hne
    rw [(hp.known.resolve_left hne).2 i, hp.file]
    rfl
  obtain ⟨hempty, hfile, heq⟩ | ⟨hempty, -, heq⟩ | ⟨-, hsame, heq⟩ | ⟨-, -, -, heq⟩ |
    ⟨-, hne, hbase, -, -⟩ | ⟨-, hne, hbase, -, -⟩ := reconcileText_cases c s i
  · refine absurd ?_ hfile
    rw [hp.file, htext hempty, ← hdoc, hi.empty hempty, c.text_bot]
  · rw [heq]
    exact hnote _ hdoc rfl (htext hempty) heq
  · rw [heq]
    refine hnote _ hdoc rfl ?_ heq
    rw [← hp.file, hsame, hdoc]
  · rw [heq]
    exact ⟨hp, hdoc⟩
  · exact absurd (hstay hne) hbase
  · exact absurd (hstay hne) hbase

theorem replicas_ingest_of_ne (h : j ≠ i) : (s.ingest c i).replicas j = s.replicas j := by
  have hpull : (s.pull i).replicas j = s.replicas j := replicas_set_of_ne h
  have hmerge : ∀ kind, ((s.pull i).merge c kind i).replicas j = s.replicas j := by
    intro kind
    rw [Folder.merge, replicas_flush_of_ne h, replicas_set_of_ne h, hpull]
  unfold Folder.ingest
  obtain ⟨-, -, heq⟩ | ⟨-, -, heq⟩ | ⟨-, -, heq⟩ | ⟨-, -, -, heq⟩ | ⟨-, -, -, -, heq⟩ |
    ⟨-, -, -, -, heq⟩ := reconcileText_cases c (s.pull i) i <;> rw [heq]
  · exact hmerge .seed
  · rw [replicas_set_of_ne h, hpull]
  · rw [replicas_set_of_ne h, hpull]
  · exact hpull
  · rw [replicas_set_of_ne h, hpull]
  · exact hmerge .edit

theorem merges_step {P : Folder ι U H → Prop} (hgoal : state ≤ goal) (hP : ∀ s, P s → s.Between state goal content c)
    (hflush : ∀ s i, P s → P (s.flush i)) (hpull : ∀ s i, P s → P (s.pull i))
    (hingest : ∀ s i, P s → P (s.ingest c i) ∧ ((s.ingest c i).replicas i).doc = goal) {e : Event ι U} (hs : P s)
    (he : e.Merges) (hstep : step c s e = some s') :
    P s' ∧ (∀ i, e = .ingest i → (s'.replicas i).doc = goal) ∧
      ∀ j, (s.replicas j).doc = goal → (s'.replicas j).doc = goal := by
  have hup : ∀ s s' : Folder ι U H, ∀ j, P s' → (s.replicas j).doc ≤ (s'.replicas j).doc → (s.replicas j).doc = goal →
      (s'.replicas j).doc = goal := by
    intro s s' j hs' hle hj
    obtain hd | hd := (hP s' hs').docs j
    · exact hd.trans (le_antisymm hgoal (hj ▸ hd ▸ hle))
    · exact hd
  have hle : ∀ s : Folder ι U H, P s → ∀ i j, (s.replicas j).doc ≤ ((s.pull i).replicas j).doc := by
    intro s _ i j
    obtain rfl | hj := eq_or_ne j i
    · rw [Folder.pull, replicas_set_self, Replica.pull_eq]
      exact le_sup_left
    · rw [Folder.pull, replicas_set_of_ne hj]
  cases e with
  | flush i =>
    obtain rfl := Option.some.inj hstep
    refine ⟨hflush s i hs, (fun _ h => by cases h), fun j hj => ?_⟩
    obtain rfl | hne := eq_or_ne j i
    · rwa [replicas_flush_self, doc_flush]
    · rwa [replicas_flush_of_ne hne]
  | pull i =>
    obtain rfl := Option.some.inj hstep
    exact ⟨hpull s i hs, (fun _ h => by cases h), fun j => hup s _ j (hpull s i hs) (hle s hs i j)⟩
  | ingest i =>
    obtain rfl := Option.some.inj hstep
    obtain ⟨hs', hdoc⟩ := hingest s i hs
    refine ⟨hs', fun i' h => by cases h; exact hdoc, fun j hj => ?_⟩
    obtain rfl | hne := eq_or_ne j i
    · exact hdoc
    · rwa [replicas_ingest_of_ne hne]
  | edit | project | write | reopen => exact he.elim

theorem merges_run {P : Folder ι U H → Prop} (hgoal : state ≤ goal) (hP : ∀ s, P s → s.Between state goal content c)
    (hflush : ∀ s i, P s → P (s.flush i)) (hpull : ∀ s i, P s → P (s.pull i))
    (hingest : ∀ s i, P s → P (s.ingest c i) ∧ ((s.ingest c i).replicas i).doc = goal) (events : List (Event ι U)) :
    ∀ s : Folder ι U H, P s → (∀ e ∈ events, e.Merges) → exec (step c) (fun _ _ => True) s events = some s' →
      ∀ i, ((s.replicas i).doc = goal ∨ .ingest i ∈ events) → (s'.replicas i).doc = goal := by
  induction events with
  | nil =>
    intro s _ _ hexec i hi
    obtain rfl := Option.some.inj hexec
    exact hi.resolve_right fun h => by cases h
  | cons e events ih =>
    intro s hs hm hexec i hi
    simp only [exec, if_true] at hexec
    split at hexec
    · rename_i t hstep
      obtain ⟨ht, hone, hkeep⟩ := merges_step hgoal hP hflush hpull hingest hs (hm e List.mem_cons_self) hstep
      refine ih t ht (fun e' he' => hm e' (List.mem_cons_of_mem e he')) hexec i ?_
      obtain hd | hmem := hi
      · exact .inl (hkeep i hd)
      · obtain heq | hmem := List.mem_cons.mp hmem
        · exact .inl (hone i heq.symm)
        · exact .inr hmem
    · cases hexec

end

end Folder

/-- Sessions in one state that last agreed with the file in one state end in one state, whatever the order
in which they take in what another program has written and exchange their updates: the change is counted
once, and where the last agreement is their state the text is the content. -/
theorem external_edit_merged_once (file : Units) (s s' : Folder ι U H) (state agreed : U) (content : Units)
    (events : List (Event ι U)) (hrun : Run (step c) (fun _ _ => True) (.opened file) s)
    (hstate : ∀ i, (s.replicas i).doc = state) (hagreed : ∀ i, (s.replicas i).agreement = agreed)
    (hunknown : content ≠ c.text state → ∀ i, ¬ (s.replicas i).Recognises c s.hashes content)
    (hmerges : ∀ e ∈ events, e.Merges)
    (hexec : exec (step c) (fun _ _ => True) s (.write content :: events) = some s') (i : ι)
    (hall : ∀ i, .ingest i ∈ events) :
    (s'.replicas i).doc = outcome c state agreed content ∧
      (agreed = state → c.text (outcome c state agreed content) = content) := by
  have hinv : s.Inv c := hrun.invariant (Folder.Inv c) (Folder.opened_inv file) fun s e s' h _ hs => h.step hs
  have hle : agreed ≤ state := by
    rw [← hagreed i, ← hstate i]
    exact (hinv.ok i).agreement_le
  have hwrite : exec (step c) (fun _ _ => True) { s with file := content } events = some s' := by
    simpa [exec, step] using hexec
  have hfiles : ∀ f ∈ s.files, f ≤ state := by
    intro f hf
    obtain ⟨-, j, hj⟩ := hinv.files f hf
    rwa [hstate j] at hj
  have hpending : ∀ i, ∀ u ∈ (s.replicas i).pending, u ≤ state := fun i u hu => hstate i ▸ ((hinv.ok i).pending u hu).1
  have hbetween : ∀ goal, ({ s with file := content } : Folder ι U H).Between state goal content c := fun goal =>
    ⟨hinv.file content s.hashes, rfl, fun i => .inl (hstate i), fun f hf => .inl (hfiles f hf),
      fun i u hu => .inl (hpending i u hu)⟩
  have hbase : ∀ i t b, (s.replicas i).base = some (t, b) → b = agreed := by
    intro i t b hb
    rw [← hagreed i, Replica.agreement, hb]
    rfl
  have hnone : ∀ i, (s.replicas i).base = none → agreed = state := by
    intro i hb
    rw [← hagreed i, Replica.agreement, hb]
    exact hstate i
  unfold outcome
  split
  · rename_i hknown
    refine ⟨?_, fun hsame => (hknown.elim id fun h => hsame ▸ h).symm⟩
    have hrest : ({ s with file := content } : Folder ι U H).Resting state agreed content c := by
      refine ⟨hbetween state, or_iff_not_imp_left.mpr fun hne => ?_⟩
      have htext := hknown.resolve_left hne
      have hdiff : agreed ≠ state := fun h => hne (h ▸ htext)
      refine ⟨hdiff, fun i => ?_⟩
      cases hb : (s.replicas i).base with
      | none => exact absurd (hnone i hb) hdiff
      | some p =>
        obtain ⟨t, b⟩ := p
        rw [((hinv.ok i).base t b hb).1, hbase i t b hb, htext]
    exact Folder.merges_run (c := c) le_rfl (fun s h => h.toBetween) (fun s i h => h.flush i) (fun s i h => h.pull i)
      (fun s i h => h.ingest i) events _ hrest hmerges hwrite i (.inr (hall i))
  · rename_i hnew
    rw [not_or] at hnew
    have hg : Folder.Goal c state agreed (state ⊔ c.merged (kindAt state) agreed content) content :=
      ⟨hnew.1, hnew.2, hle, rfl⟩
    refine ⟨?_, hg.text⟩
    have hmerging : ({ s with file := content } : Folder ι U H).Merging state agreed
        (state ⊔ c.merged (kindAt state) agreed content) content c :=
      ⟨hbetween _, hunknown hnew.1, fun i t b hb => .inl (hbase i t b hb), hnone⟩
    exact Folder.merges_run hg.le (fun s h => h.toBetween) (fun s i h => h.flush hg.le i) (fun s i h => h.pull hg.le i)
      (fun s i h => h.ingest hg i) events _ hmerging hmerges hwrite i (.inr (hall i))

/-- A text and how many changes it had: of two, the one with more changes counts. -/
abbrev Register := ℕ ×ₗ List ℕ

instance orderBotUnits : OrderBot (List ℕ) where
  bot := []
  bot_le l := by
    cases l with
    | nil => exact le_rfl
    | cons a l => exact (List.nil_lt_cons a l).le

def register : Setting Register (Kind × Register × Units) Register Units where
  text state := (ofLex state).2
  encodeStateVector := id
  encodeStateAsUpdate state _ := state
  transact _ state edits :=
    if edits = [] then state else toLex ((ofLex state).1 + 1, applyTextEdits (ofLex state).2 edits)
  text_bot := rfl
  text_transact _ state edits _ := by
    split
    · rename_i h
      rw [h]
      rfl
    · rfl
  le_transact _ state edits := by
    split
    · exact le_rfl
    · exact Prod.Lex.le_iff.mpr (.inl (Nat.lt_succ_self _))
  update_sup state old h := sup_eq_left.mpr h
  contentHash := id
  deterministicClientId kind vector hash := (kind, vector, hash)

/-- One session's text is in the file, and the other session has read its updates. -/
def typed : List (Event Bool Register) := [.edit false (toLex (1, [97])), .project false, .pull true]

theorem external_edit_merged_once_twoSessions : ∃ s s',
    exec (step register) (fun _ _ => True) (.opened []) typed = some s ∧
    exec (step register) (fun _ _ => True) s [.write [97, 98], .ingest false, .ingest true] = some s' ∧
    ∀ i, register.text (s'.replicas i).doc = [97, 98] := by
  refine ⟨_, _, rfl, rfl, fun i => ?_⟩
  have h := external_edit_merged_once (c := register) [] _ _ (toLex (1, [97])) (toLex (1, [97])) [97, 98]
    [.ingest false, .ingest true] (run_of_exec typed _ _ rfl) ?_ ?_ ?_ ?_ rfl i ?_
  · rw [h.1, h.2 rfl]
  · intro i
    cases i <;> rfl
  · intro i
    cases i <;> rfl
  · unfold Replica.Recognises
    cases i <;> decide +kernel
  · simp [Event.Merges]
  · cases i <;> decide

/-- All updates are in files that every session has read. -/
def Folder.Exchanged (s : Folder ι U H) : Prop :=
  ∀ i, (s.replicas i).pending = [] ∧ (s.replicas i).unread s.files = []

def projectedTwice : List (Event Unit Register) :=
  [.edit () (toLex (1, [97])), .project (), .edit () (toLex (2, [98])), .project ()]

/-- The other program writes what the session had written before: the file is taken for a projection that
is out of date. -/
theorem content_taken_for_projection : ¬ ∀ (s s' : Folder Unit Register Units) (state : Register) (content : Units)
    (events : List (Event Unit Register)), Run (step register) (fun _ _ => True) (.opened []) s →
    (∀ i, (s.replicas i).doc = state) → (∀ e ∈ events, e.Merges) →
    exec (step register) (fun _ _ => True) s (.write content :: events) = some s' → (∀ i, .ingest i ∈ events) →
    s'.Exchanged → ∀ i, register.text (s'.replicas i).doc = content := by
  intro h
  have hrun : Run (step register) (fun _ _ => True) (.opened []) _ := run_of_exec projectedTwice _ _ rfl
  have htext := h _ _ (toLex (2, [98])) [97] [.ingest ()] hrun (fun i => rfl) (by simp [Event.Merges]) rfl
    (fun _ => List.mem_singleton.mpr rfl) (fun _ => ⟨rfl, rfl⟩) ()
  exact absurd htext (by decide +kernel)

end Savoire.TextFile
