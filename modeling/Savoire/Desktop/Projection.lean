import Savoire.Desktop.ExternalEdit

/-! One session that holds a text document open: editor, projections, other programs and sessions that
write the visible file, and the session's jobs, one at a time, in every order of their asynchronous steps. -/
set_option linter.unusedSectionVars false
namespace Savoire.Projection
open TextFile TextDiff Transition

/-- Where the running job stands. `project` tells whether `reconcileText` was called by a projection, which
then goes on. -/
inductive Job (U H : Type*)
  | idle
  | reading (project : Bool)
  | compared (content : Units) (project : Bool)
  | asking (content : Units) (project : Bool)
  | asked (content : Units) (known project : Bool)
  | merging (kind : Kind) (state : U) (content : Units) (project : Bool)
  | merged (project : Bool)
  | starting
  | checking
  | checked (content : Units)
  | checkAsking (content : Units)
  | checkAsked (content : Units) (known : Bool)
  | remembering (text : Units) (state : U)
  | recording (text : Units) (state : U) (hashes : List H)
  | writing (text : Units) (state : U)
  | written (text : Units) (state : U)

/-- `shown` and `taken` record what sessions have projected and what the text has taken in, `overwritten`
what the session's writes have replaced, `unseen` whether another program has written since the last
reading of the file. -/
structure Session (U H : Type*) where
  file : Units
  hashes : List H
  replica : Replica U H
  job : Job U H
  shown : List Units
  taken : List Units
  overwritten : List Units
  unseen : Bool

inductive Event (U : Type*)
  | edit (update : U)
  /-- Another program writes the visible file. -/
  | write (content : Units)
  /-- Another session notes a projection, and writes one that it has noted. -/
  | otherNotes (text : Units)
  | otherWrites (text : Units)
  /-- A watch event's job: the updates of other sessions are read, then the file. -/
  | ingest (updates : List U)
  | project
  /-- The running job goes on to its next wait. -/
  | next

variable {U C V H : Type*} [SemilatticeSup U] [OrderBot U] [DecidableLE U] [DecidableEq H]
variable (c : Setting U C V H)

namespace Session

def opened (file : Units) : Session U H := ⟨file, [], .fresh, .idle, [], [], [], true⟩

def setReplica (s : Session U H) (r : Replica U H) : Session U H := { s with replica := r }

/-- The rest of `projectNow` after the file was confronted. -/
def choose (s : Session U H) : Session U H :=
  let text := c.text s.replica.doc
  if s.replica.base.map Prod.fst = some text then { s with job := .idle }
  else { s with job := .remembering text s.replica.doc }

/-- `reconcileText` is done. -/
def finish (project : Bool) (s : Session U H) : Session U H :=
  if project then s.choose c else { s with job := .idle }

def compare (content : Units) (project : Bool) (s : Session U H) : Session U H :=
  let r := s.replica
  match r.reading c content with
  | .seed => { s with job := .merging .seed r.agreement content project }
  | .empty => (s.setReplica r.noteEmpty).finish c project
  | .agreed =>
    ({ s with replica := r.noteAgreed content, taken := content :: s.taken } : Session U H).finish c project
  | .unchanged => s.finish c project
  | .stale => (s.setReplica (r.noteStale content)).finish c project
  | .unknown => { s with job := .asking content project }

def next (s : Session U H) : Option (Session U H) :=
  let r := s.replica
  match s.job with
  | .idle => none
  | .reading project => some { s with job := .compared s.file project, unseen := false }
  | .compared content project => some (s.compare c content project)
  | .asking content project =>
    some { s with job := .asked content (r.isProjection c s.hashes content) project }
  | .asked content known project =>
    some (if known then (s.setReplica (r.noteStale content)).finish c project
      else { s with job := .merging .edit r.agreement content project })
  | .merging kind state content project =>
    some { s with
      replica := r.applyDeterministic c kind state content
      taken := content :: s.taken
      job := .merged project }
  | .merged project => some (s.finish c project)
  | .starting => some (if r.base.isNone then { s with job := .checking } else s.choose c)
  | .checking => some { s with job := .checked s.file, unseen := false }
  | .checked content =>
    some (if r.staleFile = some content ∨ content = [] then s.choose c else { s with job := .checkAsking content })
  | .checkAsking content => some { s with job := .checkAsked content (r.isProjection c s.hashes content) }
  | .checkAsked _ known => some (if known then s.choose c else { s with job := .reading true })
  | .remembering text state =>
    some { s with
      replica := r.rememberProjection c text
      shown := text :: s.shown
      job := .recording text state s.hashes }
  | .recording text state hashes =>
    some { s with hashes := remember (c.contentHash text) hashes, job := .writing text state }
  | .writing text state =>
    some { s with file := text, overwritten := s.file :: s.overwritten, job := .written text state }
  | .written text state => some { s with replica := r.noteWritten text state, job := .idle }

end Session

def Job.isIdle : Job U H → Bool
  | .idle => true
  | _ => false

def step (s : Session U H) : Event U → Option (Session U H)
  | .edit u => some (s.setReplica (s.replica.applyUpdate u .editor))
  | .write content => some { s with file := content, unseen := true }
  | .otherNotes text =>
    some { s with hashes := remember (c.contentHash text) s.hashes, shown := text :: s.shown }
  | .otherWrites text => if text ∈ s.shown then some { s with file := text } else none
  | .ingest updates =>
    if s.job.isIdle then some { s with replica := s.replica.pull updates, job := .reading false } else none
  | .project =>
    if s.job.isIdle && s.replica.scheduled then
      some { s with replica := { s.replica with scheduled := false }, job := .starting }
    else none
  | .next => s.next c

def Session.Found (s : Session U H) (content : Units) : Prop :=
  content ∈ s.shown ∨ content ∈ s.taken ∨ content = []

structure Session.NothingLost (c : Setting U C V H) (s : Session U H) : Prop where
  overwritten : ∀ content ∈ s.overwritten, s.Found content
  taken : ∀ content ∈ s.taken, ∃ state ≤ s.replica.doc, c.text state = content

def Session.committed (s : Session U H) : Bool :=
  match s.job with
  | .compared _ project | .asking _ project | .asked _ _ project | .merging _ _ _ project | .merged project => project
  | .starting => s.replica.base.isSome
  | .checked _ | .checkAsking _ | .checkAsked .. | .remembering .. | .recording .. | .writing .. => true
  | .idle | .reading _ | .checking | .written .. => false

/-- No other program writes the file between a projection's reading of it and its write, and no projection
starts from a remembered agreement while such a write has not been read. -/
def Unraced (s : Session U H) : Event U → Prop
  | .write _ => s.committed = false
  | .project => s.replica.base.isSome → s.unseen = false
  | _ => True

namespace Session

structure Sound (c : Setting U C V H) (s : Session U H) : Prop where
  base : ∀ text state, s.replica.base = some (text, state) → s.Found text ∧ state ≤ s.replica.doc
  stale : ∀ text, s.replica.staleFile = some text → text ∈ s.shown
  projected : ∀ h ∈ s.replica.projected, ∃ text ∈ s.shown, c.contentHash text = h
  hashes : ∀ h ∈ s.hashes, ∃ text ∈ s.shown, c.contentHash text = h
  lost : s.NothingLost c

/-- A content that was read is still in the file, or what is there now is not lost; for a projection this
is so in any case, else as long as no other program has written. -/
def Holding (s : Session U H) (project : Bool) (content : Units) : Prop :=
  project = true ∨ s.unseen = false → s.file = content ∨ s.Found s.file

def AtJob (c : Setting U C V H) (s : Session U H) : Prop :=
  match s.job with
  | .idle => s.unseen = false → s.Found s.file
  | .reading _ | .checking => True
  | .compared content project | .asking content project => s.Holding project content
  | .asked content known project => s.Holding project content ∧ (known = true → content ∈ s.shown)
  | .merging _ state content project => s.Holding project content ∧ state ≤ s.replica.doc
  | .merged project => project = true ∨ s.unseen = false → s.Found s.file
  | .starting => s.replica.base.isSome = true ∨ s.unseen = false → s.Found s.file
  | .checked content | .checkAsking content => s.Holding true content
  | .checkAsked content known => s.Holding true content ∧ (known = true → content ∈ s.shown)
  | .remembering _ state => s.Found s.file ∧ state ≤ s.replica.doc
  | .recording text state hashes => s.Found s.file ∧ state ≤ s.replica.doc ∧ text ∈ s.shown ∧
      ∀ h ∈ hashes, ∃ text ∈ s.shown, c.contentHash text = h
  | .writing text state => s.Found s.file ∧ state ≤ s.replica.doc ∧ text ∈ s.shown
  | .written text state => (s.unseen = false → s.Found s.file) ∧ state ≤ s.replica.doc ∧ text ∈ s.shown

structure Inv (c : Setting U C V H) (s : Session U H) : Prop where
  sound : s.Sound c
  job : s.AtJob c

variable {c} {s s' : Session U H}

theorem Sound.setJob (h : s.Sound c) (job : Job U H) (unseen : Bool) :
    ({ s with job := job, unseen := unseen } : Session U H).Sound c :=
  ⟨h.base, h.stale, h.projected, h.hashes, h.lost.1, h.lost.2⟩

theorem Sound.agreement_le (h : s.Sound c) : s.replica.agreement ≤ s.replica.doc := by
  unfold Replica.agreement
  cases hb : s.replica.base with
  | none => exact le_rfl
  | some p => exact (h.base p.1 p.2 hb).2

variable {content : Units}

theorem Sound.shown_of_isProjection (h : s.Sound c) (hinj : Function.Injective c.contentHash)
    (hproj : s.replica.isProjection c s.hashes content = true) : content ∈ s.shown := by
  rw [Replica.isProjection, Bool.or_eq_true, List.contains_iff_mem, List.contains_iff_mem] at hproj
  have hknown : ∃ text ∈ s.shown, c.contentHash text = c.contentHash content :=
    hproj.elim (h.projected _) (h.hashes _)
  obtain ⟨text, hmem, heq⟩ := hknown
  exact hinj heq ▸ hmem

theorem mem_remember {h h' : H} {hashes : List H} (hmem : h ∈ remember h' hashes) : h ∈ hashes ∨ h = h' := by
  have hall := List.mem_of_mem_drop hmem
  rw [List.mem_append, List.mem_filter, List.mem_singleton] at hall
  exact hall.imp_left And.left

theorem Inv.choose (h : s.Sound c) (hfile : s.Found s.file) : (s.choose c).Inv c := by
  unfold Session.choose
  dsimp only
  split
  · exact ⟨h.setJob .idle s.unseen, fun _ => hfile⟩
  · exact ⟨h.setJob _ s.unseen, hfile, le_rfl⟩

variable {project : Bool}

theorem Inv.finish (h : s.Sound c) (hfile : project = true ∨ s.unseen = false → s.Found s.file) :
    (s.finish c project).Inv c := by
  unfold Session.finish
  split
  · rename_i hp
    exact Inv.choose h (hfile (.inl hp))
  · exact ⟨h.setJob .idle s.unseen, fun hu => hfile (.inr hu)⟩

variable {r : Replica U H}

theorem Sound.setReplica (h : s.Sound c) (hdoc : s.replica.doc ≤ r.doc)
    (hbase : ∀ text state, r.base = some (text, state) → s.Found text ∧ state ≤ r.doc)
    (hstale : ∀ text, r.staleFile = some text → text ∈ s.shown)
    (hprojected : ∀ h ∈ r.projected, ∃ text ∈ s.shown, c.contentHash text = h) : (s.setReplica r).Sound c where
  base := hbase
  stale := hstale
  projected := hprojected
  hashes := h.hashes
  lost := ⟨h.lost.1, fun content hc => (h.lost.2 content hc).imp fun _ hst => ⟨hst.1.trans hdoc, hst.2⟩⟩

theorem Sound.grow (h : s.Sound c) (hdoc : s.replica.doc ≤ r.doc)
    (hbase : r.base = s.replica.base) (hstale : r.staleFile = s.replica.staleFile)
    (hprojected : r.projected = s.replica.projected) : (s.setReplica r).Sound c := by
  refine h.setReplica hdoc (fun text state hb => ?_) (fun text ht => h.stale text (hstale ▸ ht)) ?_
  · rw [hbase] at hb
    exact ⟨(h.base text state hb).1, (h.base text state hb).2.trans hdoc⟩
  · rw [hprojected]
    exact h.projected

theorem Sound.take (h : s.Sound c) (hstate : ∃ state ≤ s.replica.doc, c.text state = content) :
    ({ s with taken := content :: s.taken } : Session U H).Sound c := by
  have hmore : ∀ x, s.Found x → ({ s with taken := content :: s.taken } : Session U H).Found x := fun x hx =>
    hx.imp_right (Or.imp_left (List.mem_cons_of_mem content))
  refine ⟨fun text state hb => ⟨hmore _ (h.base text state hb).1, (h.base text state hb).2⟩, h.stale, h.projected,
    h.hashes, fun x hx => hmore x (h.lost.1 x hx), fun x hx => ?_⟩
  obtain rfl | hx := List.mem_cons.mp hx
  · exact hstate
  · exact h.lost.2 x hx

theorem Found.show (h : s.Found content) (text : Units) :
    ({ s with shown := text :: s.shown } : Session U H).Found content :=
  h.imp_left (List.mem_cons_of_mem text)

theorem Sound.show (h : s.Sound c) (text : Units) : ({ s with shown := text :: s.shown } : Session U H).Sound c := by
  have hmore : ∀ h, (∃ t ∈ s.shown, c.contentHash t = h) → ∃ t ∈ text :: s.shown, c.contentHash t = h :=
    fun _ hx => hx.imp fun _ ht => ⟨List.mem_cons_of_mem text ht.1, ht.2⟩
  exact ⟨fun t b hb => ⟨Found.show (h.base t b hb).1 text, (h.base t b hb).2⟩,
    fun t ht => List.mem_cons_of_mem text (h.stale t ht), fun x hx => hmore x (h.projected x hx),
    fun x hx => hmore x (h.hashes x hx), fun x hx => Found.show (h.lost.1 x hx) text, h.lost.2⟩

theorem Inv.stale (h : s.Sound c) (hshown : content ∈ s.shown) (hhold : s.Holding project content) :
    ((s.setReplica (s.replica.noteStale content)).finish c project).Inv c := by
  refine Inv.finish (h.setReplica (r := s.replica.noteStale content) le_rfl (fun text state hb => by cases hb)
    (fun text ht => ?_) h.projected) fun hp => ?_
  · rw [← Option.some.inj ht]
    exact hshown
  · obtain heq | hf := hhold hp
    · have hfile : s.file ∈ s.shown := heq ▸ hshown
      exact .inl hfile
    · exact hf

theorem Inv.compare (h : s.Sound c) (hhold : s.Holding project content) :
    (s.compare c content project).Inv c := by
  have hspec := Replica.reading_spec c s.replica content
  have hfound : ∀ s' : Session U H, s'.file = s.file → s'.unseen = s.unseen → (∀ x, s.Found x → s'.Found x) →
      s'.Found content → project = true ∨ s'.unseen = false → s'.Found s'.file := by
    intro s' hfile hunseen hmore hcontent hp
    rw [hunseen] at hp
    rw [hfile]
    obtain heq | hf := hhold hp
    · rwa [heq]
    · exact hmore _ hf
  unfold Session.compare
  dsimp only
  cases hr : s.replica.reading c content with
  | seed => exact ⟨h.setJob _ s.unseen, hhold, h.agreement_le⟩
  | empty =>
    rw [hr] at hspec
    have hempty : s.Found content := .inr (.inr hspec.2)
    refine Inv.finish (h.setReplica (r := s.replica.noteEmpty) le_rfl (fun text state hb => ?_) h.stale h.projected)
      (hfound _ rfl rfl (fun _ => id) hempty)
    obtain ⟨rfl, rfl⟩ := Prod.mk.inj (Option.some.inj hb)
    exact ⟨.inr (.inr rfl), le_rfl⟩
  | agreed =>
    rw [hr] at hspec
    have htake := h.take ⟨s.replica.doc, le_rfl, hspec.2.symm⟩
    have hcontent : ({ s with taken := content :: s.taken } : Session U H).Found content :=
      .inr (.inl List.mem_cons_self)
    refine Inv.finish (htake.setReplica (r := s.replica.noteAgreed content) le_rfl (fun text state hb => ?_)
      (fun text ht => by cases ht) h.projected) (hfound _ rfl rfl (fun x hx => ?_) hcontent)
    · obtain ⟨rfl, rfl⟩ := Prod.mk.inj (Option.some.inj hb)
      exact ⟨hcontent, le_rfl⟩
    · exact hx.imp_right (Or.imp_left (List.mem_cons_of_mem content))
  | unchanged =>
    rw [hr] at hspec
    obtain ⟨⟨text, state⟩, hbase, rfl⟩ := Option.map_eq_some_iff.mp hspec.2.2
    exact Inv.finish h (hfound s rfl rfl (fun _ => id) (h.base text state hbase).1)
  | stale =>
    rw [hr] at hspec
    have hshown := h.stale content hspec.2.2.2
    exact Inv.stale h hshown hhold
  | unknown => exact ⟨h.setJob _ s.unseen, hhold⟩

theorem Inv.next (h : s.Inv c) (hinj : Function.Injective c.contentHash) (hs : s.next c = some s') : s'.Inv c := by
  obtain ⟨hsound, hjob⟩ := h
  unfold Session.AtJob at hjob
  unfold Session.next at hs
  cases hj : s.job with
  | idle => simp [hj] at hs
  | reading project =>
    rw [hj] at hs
    obtain rfl := Option.some.inj hs
    exact ⟨hsound.setJob _ false, fun _ => .inl rfl⟩
  | compared content project =>
    rw [hj] at hs hjob
    obtain rfl := Option.some.inj hs
    exact Inv.compare hsound hjob
  | asking content project =>
    rw [hj] at hs hjob
    obtain rfl := Option.some.inj hs
    exact ⟨hsound.setJob _ s.unseen, hjob, hsound.shown_of_isProjection hinj⟩
  | asked content known project =>
    rw [hj] at hs hjob
    obtain rfl := Option.some.inj hs
    cases known with
    | true => exact Inv.stale hsound (hjob.2 rfl) hjob.1
    | false => exact ⟨hsound.setJob _ s.unseen, hjob.1, hsound.agreement_le⟩
  | merging kind state content project =>
    rw [hj] at hs hjob
    obtain rfl := Option.some.inj hs
    obtain ⟨hhold, hstate⟩ := hjob
    have hdoc := Replica.doc_applyDeterministic (c := c) kind content hstate
    have hle : s.replica.doc ≤ (s.replica.applyDeterministic c kind state content).doc := hdoc ▸ le_sup_left
    have hmerged : c.merged kind state content ≤ (s.replica.applyDeterministic c kind state content).doc :=
      hdoc ▸ le_sup_right
    have hmore : ∀ x, s.Found x → x ∈ s.shown ∨ x ∈ content :: s.taken ∨ x = [] := fun x hx =>
      hx.imp_right (Or.imp_left (List.mem_cons_of_mem content))
    refine ⟨⟨fun t b hb => ?_, fun t ht => ?_, ?_, hsound.hashes, fun x hx => hmore x (hsound.lost.1 x hx),
      fun x hx => ?_⟩, fun hp => ?_⟩
    · rw [Replica.base_applyDeterministic] at hb
      obtain ⟨rfl, rfl⟩ := Prod.mk.inj (Option.some.inj hb)
      exact ⟨.inr (.inl List.mem_cons_self), hmerged⟩
    · rw [Replica.staleFile_applyDeterministic] at ht
      cases ht
    · rw [Replica.projected_applyDeterministic]
      exact hsound.projected
    · obtain rfl | hx := List.mem_cons.mp hx
      · exact ⟨_, hmerged, c.text_merged kind state x⟩
      · exact (hsound.lost.2 x hx).imp fun _ hst => ⟨hst.1.trans hle, hst.2⟩
    · obtain heq | hf := hhold hp
      · exact heq ▸ .inr (.inl List.mem_cons_self)
      · exact hmore _ hf
  | merged project =>
    rw [hj] at hs hjob
    obtain rfl := Option.some.inj hs
    exact Inv.finish hsound hjob
  | starting =>
    rw [hj] at hs hjob
    obtain rfl := Option.some.inj hs
    split
    · exact ⟨hsound.setJob _ s.unseen, trivial⟩
    · rename_i hbase
      refine Inv.choose hsound (hjob (.inl (Option.isSome_iff_ne_none.mpr ?_)))
      simpa using hbase
  | checking =>
    rw [hj] at hs
    obtain rfl := Option.some.inj hs
    exact ⟨hsound.setJob _ false, fun _ => .inl rfl⟩
  | checked content =>
    rw [hj] at hs hjob
    obtain rfl := Option.some.inj hs
    split
    · rename_i hknown
      refine Inv.choose hsound ((hjob (.inl rfl)).elim (fun heq => heq ▸ ?_) id)
      exact hknown.elim (fun hstale => .inl (hsound.stale content hstale)) fun hempty => .inr (.inr hempty)
    · exact ⟨hsound.setJob _ s.unseen, hjob⟩
  | checkAsking content =>
    rw [hj] at hs hjob
    obtain rfl := Option.some.inj hs
    exact ⟨hsound.setJob _ s.unseen, hjob, hsound.shown_of_isProjection hinj⟩
  | checkAsked content known =>
    rw [hj] at hs hjob
    obtain rfl := Option.some.inj hs
    cases known with
    | true => exact Inv.choose hsound ((hjob.1 (.inl rfl)).elim (fun heq => heq ▸ .inl (hjob.2 rfl)) id)
    | false => exact ⟨hsound.setJob _ s.unseen, trivial⟩
  | remembering text state =>
    rw [hj] at hs hjob
    obtain rfl := Option.some.inj hs
    obtain ⟨hfile, hstate⟩ := hjob
    have hshow := hsound.show text
    have hset := hshow.setReplica (r := s.replica.rememberProjection c text) le_rfl hshow.base hshow.stale
      fun h hmem => ?_
    · exact ⟨hset.setJob (.recording text state s.hashes) s.unseen, Found.show hfile text, hstate, List.mem_cons_self,
        hshow.hashes⟩
    obtain hold | rfl := mem_remember hmem
    · exact hshow.projected h hold
    · exact ⟨text, List.mem_cons_self, rfl⟩
  | recording text state hashes =>
    rw [hj] at hs hjob
    obtain rfl := Option.some.inj hs
    obtain ⟨hfile, hstate, htext, hhashes⟩ := hjob
    refine ⟨⟨hsound.base, hsound.stale, hsound.projected, fun h hmem => ?_, hsound.lost.1, hsound.lost.2⟩,
      hfile, hstate, htext⟩
    obtain hold | rfl := mem_remember hmem
    · exact hhashes h hold
    · exact ⟨text, htext, rfl⟩
  | writing text state =>
    rw [hj] at hs hjob
    obtain rfl := Option.some.inj hs
    obtain ⟨hfile, hstate, htext⟩ := hjob
    refine ⟨⟨hsound.base, hsound.stale, hsound.projected, hsound.hashes, fun x hx => ?_, hsound.lost.2⟩,
      fun _ => .inl htext, hstate, htext⟩
    obtain rfl | hx := List.mem_cons.mp hx
    · exact hfile
    · exact hsound.lost.1 x hx
  | written text state =>
    rw [hj] at hs hjob
    obtain rfl := Option.some.inj hs
    obtain ⟨hfile, hstate, htext⟩ := hjob
    have hset := hsound.setReplica (r := s.replica.noteWritten text state) le_rfl (fun t b hb => ?_)
      (fun t ht => by cases ht) hsound.projected
    · exact ⟨hset.setJob .idle s.unseen, hfile⟩
    obtain ⟨rfl, rfl⟩ := Prod.mk.inj (Option.some.inj hb)
    exact ⟨.inl htext, hstate⟩

theorem AtJob.setReplica (h : s.AtJob c) (hdoc : s.replica.doc ≤ r.doc)
    (hbase : r.base = s.replica.base) : (s.setReplica r).AtJob c := by
  unfold Session.AtJob at h ⊢
  dsimp only [Session.setReplica]
  cases hj : s.job with
  | idle | reading | checking | compared | asking | asked | merged | checked | checkAsking | checkAsked =>
    rw [hj] at h
    exact h
  | starting =>
    rw [hj] at h
    rw [hbase]
    exact h
  | merging kind state content project =>
    rw [hj] at h
    exact ⟨h.1, h.2.trans hdoc⟩
  | remembering text state =>
    rw [hj] at h
    exact ⟨h.1, h.2.trans hdoc⟩
  | recording text state hashes =>
    rw [hj] at h
    exact ⟨h.1, h.2.1.trans hdoc, h.2.2⟩
  | writing text state =>
    rw [hj] at h
    exact ⟨h.1, h.2.1.trans hdoc, h.2.2⟩
  | written text state =>
    rw [hj] at h
    exact ⟨h.1, h.2.1.trans hdoc, h.2.2⟩

theorem AtJob.write (h : s.AtJob c) (content : Units) (hfree : s.committed = false) :
    ({ s with file := content, unseen := true } : Session U H).AtJob c := by
  unfold Session.committed at hfree
  unfold Session.AtJob at h ⊢
  cases hj : s.job with
  | idle => exact fun hu => by cases hu
  | reading | checking => trivial
  | compared x project | asking x project | merged project =>
    rw [hj] at hfree
    rintro (hp | hu)
    · exact absurd (hfree.symm.trans hp) Bool.false_ne_true
    · cases hu
  | asked x known project =>
    rw [hj] at hfree h
    refine ⟨?_, h.2⟩
    rintro (hp | hu)
    · exact absurd (hfree.symm.trans hp) Bool.false_ne_true
    · cases hu
  | merging kind state x project =>
    rw [hj] at hfree h
    refine ⟨?_, h.2⟩
    rintro (hp | hu)
    · exact absurd (hfree.symm.trans hp) Bool.false_ne_true
    · cases hu
  | starting =>
    rw [hj] at hfree
    rintro (hp | hu)
    · exact absurd (hfree.symm.trans hp) Bool.false_ne_true
    · cases hu
  | written text state =>
    rw [hj] at h
    exact ⟨(fun hu => by cases hu), h.2⟩
  | checked | checkAsking | checkAsked | remembering | recording | writing =>
    rw [hj] at hfree
    cases hfree

theorem AtJob.known (h : s.AtJob c) {shown : List Units} {file : Units} {hashes : List H}
    (hshown : ∀ x ∈ s.shown, x ∈ shown) (hfile : file = s.file ∨ file ∈ shown) :
    ({ s with file := file, shown := shown, hashes := hashes } : Session U H).AtJob c := by
  have hfound : s.Found s.file →
      ({ s with file := file, shown := shown, hashes := hashes } : Session U H).Found file := by
    intro hf
    obtain rfl | hmem := hfile
    · exact hf.imp_left (hshown _)
    · exact .inl hmem
  have hhold : ∀ project x, s.Holding project x →
      ({ s with file := file, shown := shown, hashes := hashes } : Session U H).Holding project x := by
    intro project x hx hp
    obtain rfl | hmem := hfile
    · exact (hx hp).imp_right hfound
    · exact .inr (.inl hmem)
  unfold Session.AtJob at h ⊢
  cases hj : s.job with
  | idle | merged | starting =>
    rw [hj] at h
    exact fun hp => hfound (h hp)
  | reading | checking => trivial
  | compared x project | asking x project =>
    rw [hj] at h
    exact hhold project x h
  | checked x | checkAsking x =>
    rw [hj] at h
    exact hhold true x h
  | asked x known project =>
    rw [hj] at h
    exact ⟨hhold project x h.1, fun hk => hshown x (h.2 hk)⟩
  | merging kind state x project =>
    rw [hj] at h
    exact ⟨hhold project x h.1, h.2⟩
  | checkAsked x known =>
    rw [hj] at h
    exact ⟨hhold true x h.1, fun hk => hshown x (h.2 hk)⟩
  | remembering text state =>
    rw [hj] at h
    exact ⟨hfound h.1, h.2⟩
  | recording text state hashes =>
    rw [hj] at h
    exact ⟨hfound h.1, h.2.1, hshown text h.2.2.1, fun x hx => (h.2.2.2 x hx).imp fun t ht => ⟨hshown t ht.1, ht.2⟩⟩
  | writing text state =>
    rw [hj] at h
    exact ⟨hfound h.1, h.2.1, hshown text h.2.2⟩
  | written text state =>
    rw [hj] at h
    exact ⟨fun hu => hfound (h.1 hu), h.2.1, hshown text h.2.2⟩

theorem Job.eq_idle {job : Job U H} (h : job.isIdle = true) : job = .idle := by
  cases job <;> first | rfl | cases h

theorem Inv.step (h : s.Inv c) (hinj : Function.Injective c.contentHash) {e : Event U} (hok : Unraced s e)
    (hs : Projection.step c s e = some s') : s'.Inv c := by
  obtain ⟨hsound, hjob⟩ := h
  cases e with
  | edit u =>
    obtain rfl := Option.some.inj hs
    have hdoc : s.replica.doc ≤ (s.replica.applyUpdate u .editor).doc := by
      rw [Replica.doc_applyUpdate]
      exact le_sup_left
    exact ⟨hsound.grow hdoc (Replica.base_applyUpdate ..) (Replica.staleFile_applyUpdate ..)
      (Replica.projected_applyUpdate ..), hjob.setReplica hdoc (Replica.base_applyUpdate ..)⟩
  | write content =>
    obtain rfl := Option.some.inj hs
    exact ⟨⟨hsound.base, hsound.stale, hsound.projected, hsound.hashes, hsound.lost.1, hsound.lost.2⟩,
      hjob.write content hok⟩
  | otherNotes text =>
    obtain rfl := Option.some.inj hs
    have hshow := hsound.show text
    refine ⟨⟨hshow.base, hshow.stale, hshow.projected, fun h hmem => ?_, hshow.lost.1, hshow.lost.2⟩,
      hjob.known (fun x hx => List.mem_cons_of_mem text hx) (.inl rfl)⟩
    obtain hold | rfl := mem_remember hmem
    · exact hshow.hashes h hold
    · exact ⟨text, List.mem_cons_self, rfl⟩
  | otherWrites text =>
    simp only [Projection.step] at hs
    obtain ⟨hmem, rfl⟩ := Option.ite_some_none_eq_some.1 hs
    exact ⟨⟨hsound.base, hsound.stale, hsound.projected, hsound.hashes, hsound.lost.1, hsound.lost.2⟩,
      hjob.known (fun _ => id) (.inr hmem)⟩
  | ingest updates =>
    simp only [Projection.step] at hs
    obtain ⟨-, rfl⟩ := Option.ite_some_none_eq_some.1 hs
    have hset : (s.setReplica (s.replica.pull updates)).Sound c := by
      rw [Replica.pull_eq]
      exact hsound.grow le_sup_left rfl rfl rfl
    exact ⟨hset.setJob _ s.unseen, trivial⟩
  | project =>
    simp only [Projection.step] at hs
    obtain ⟨hidle, rfl⟩ := Option.ite_some_none_eq_some.1 hs
    rw [Bool.and_eq_true] at hidle
    unfold Session.AtJob at hjob
    rw [Job.eq_idle hidle.1] at hjob
    have hset : (s.setReplica { s.replica with scheduled := false }).Sound c := hsound.grow le_rfl rfl rfl rfl
    refine ⟨hset.setJob _ s.unseen, fun hp => hjob (hp.elim (fun hbase => hok hbase) id)⟩
  | next => exact Inv.next ⟨hsound, hjob⟩ hinj hs

end Session

instance (s : Session U H) (e : Event U) : Decidable (Unraced s e) :=
  match e with
  | .write _ => inferInstanceAs (Decidable (s.committed = false))
  | .project => inferInstanceAs (Decidable (_ → _))
  | .edit _ | .otherNotes _ | .otherWrites _ | .ingest _ | .next => .isTrue trivial

/-- The first text is written over an empty file. -/
def firstProjection : List (Event Register) :=
  [.edit (toLex (1, [97])), .project] ++ List.replicate 7 .next

/-- A change made elsewhere is taken in, and the next projection replaces it. -/
def inTurn : List (Event Register) :=
  firstProjection ++ [.write [97, 98], .ingest []] ++ List.replicate 6 .next ++
    [.edit (toLex (3, [97, 98, 99])), .project] ++ List.replicate 5 .next

def writtenBefore : List (Event Register) :=
  firstProjection ++ [.edit (toLex (2, [97, 98])), .write [120], .project] ++ List.replicate 4 .next

end Savoire.Projection
