import Savoire.Desktop.ScanIdentity

/-! Scans over a whole run: a folder that changes between them in any way, and sessions that are
opened again on what the last one wrote. -/
namespace Savoire.FolderVault
variable {ι : Type*} [DecidableEq ι]

def scanning (s : State ι) : Event ι → Option (Session ι × (Text → ι))
  | .change _ => none
  | .opened uuid => some (loadIds s.file .fresh, uuid)
  | .scan uuid => s.session.map fun b => (b, uuid)

variable (host : Host ι)

/-- The random ids drawn are new. -/
def Fresh (s : State ι) (e : Event ι) : Prop :=
  ∀ r ∈ scanning s e, FreshIds host s.folder r.2 (loadIds s.file r.1)

/-- No file takes the id of a vanished document by the hash of its path. -/
def NoReuse (s : State ι) (e : Event ι) : Prop := ∀ r ∈ scanning s e,
  reuses host s.folder (firstPass s.folder (loadIds s.file r.1)).2 (candidates s.folder (loadIds s.file r.1)) = false

def Known (file : Option (DocumentsFile ι)) (b : Session ι) (id : ι) (path : Text) : Prop :=
  pathsOf file id = some path ∨ b.directory.get id = some path

/-- What a scan by `b` of the folder leaves in the file and in the session. -/
structure Identified (folder : Folder) (file : Option (DocumentsFile ι)) (b : Session ι)
    (file' : Option (DocumentsFile ι)) (s' : Session ι) : Prop where
  one : ∀ path, (present folder).get path ≠ none → ∃! id, s'.directory.get id = some path
  apart : ∀ id p q, s'.directory.get id = some p → s'.directory.get id = some q → p = q
  there : ∀ id path, s'.directory.get id = some path → (present folder).get path ≠ none
  kept : ∀ id path, Known file b id path → (present folder).get path ≠ none → s'.directory.get id = some path
  renamed : ∀ id path, (id, path) ∈ renames host folder (firstPass folder (loadIds file b)).2
      (candidates folder (loadIds file b)) → s'.directory.get id = some path ∧
    ∃ old, Known file b id old ∧ (present folder).get old = none
  persisted : ∀ id, pathsOf file' id = s'.directory.get id
  reloaded : ∀ id, (loadIds file' .fresh).ids.get id = s'.ids.get id
  reopened : ∀ uuid file'' s'', start host folder uuid file' = some (file'', s'') →
    ∀ id, s''.directory.get id = s'.directory.get id

variable {host} {s s' : State ι} {folder : Folder} {file file' : Option (DocumentsFile ι)} {b t : Session ι}
  {uuid : Text → ι}

theorem pathsOf_eq_some {id : ι} {path : Text} :
    pathsOf file id = some path ↔ ∃ e, (documents file).get id = some e ∧ e.path = path := Option.map_eq_some_iff

def Distinct (file : Option (DocumentsFile ι)) : Prop :=
  ∀ id id' path, pathsOf file id = some path → pathsOf file id' = some path → id = id'

theorem indexed_of_distinct (hsaved : Saved file b) (hdistinct : Distinct file)
    (hdirectory : ∀ id path, b.directory.get id = some path → pathsOf file id = some path) : Indexed b where
  paths := by
    intro id id' e e' he he' hpath
    rw [← hsaved.same] at he he'
    exact hdistinct id id' e'.path (pathsOf_eq_some.mpr ⟨e, he, hpath⟩) (pathsOf_eq_some.mpr ⟨e', he', rfl⟩)
  directory := by
    intro id path hid
    obtain ⟨e, he, hpath⟩ := pathsOf_eq_some.mp (hdirectory id path hid)
    exact ⟨e, (hsaved.same id).symm.trans he, hpath⟩

theorem indexed_fresh (hdistinct : Distinct file) : Indexed (loadIds file .fresh) :=
  indexed_of_distinct (saved_loadIds file) hdistinct fun _ _ hid => by cases hid

theorem Synced.indexed (h : Synced file b) (hdistinct : Distinct file) : Indexed b :=
  indexed_of_distinct h.saved hdistinct fun id _ hid => (h.directory id).symm.trans hid

theorem start_spec {s' : Session ι} (hdistinct : Distinct file)
    (hfresh : FreshIds host folder uuid (loadIds file (loadIds file .fresh)))
    (hreuse : reuses host folder (firstPass folder (loadIds file (loadIds file .fresh))).2
      (candidates folder (loadIds file (loadIds file .fresh))) = false)
    (hstart : start host folder uuid file = some (file', s')) :
    Synced file' s' ∧
      ∀ id, s'.directory.get id = (assignment host folder uuid (loadIds file (loadIds file .fresh))).1.get id := by
  obtain ⟨⟨mid, t⟩, hscan, hsave⟩ := Option.map_eq_some_iff.mp hstart
  have hspec := scan_spec (saved_loadIds file) (indexed_fresh hdistinct) (.inl rfl) hfresh hreuse hscan
  rw [saveIds_idle hspec.1.saved.dirty hspec.1.saved.deleted] at hsave
  obtain ⟨rfl, rfl⟩ := Prod.mk.inj hsave
  exact hspec

theorem reopened_same (hdistinct : Distinct file) (hsynced : Synced file b)
    (hevery : ∀ path, (present folder).get path ≠ none → ∃ id, b.directory.get id = some path)
    (hthere : ∀ id path, b.directory.get id = some path → (present folder).get path ≠ none) {s' : Session ι}
    (hstart : start host folder uuid file = some (file', s')) (id : ι) :
    s'.directory.get id = b.directory.get id := by
  have hindexed := (indexed_fresh hdistinct).load (saved_loadIds file)
  have hids : ∀ id, (loadIds file (loadIds file .fresh)).ids.get id = (documents file).get id := by
    intro id
    exact ((saved_loadIds file).load.same id).symm
  have hentry : ∀ id path, b.directory.get id = some path →
      ∃ e, (loadIds file (loadIds file .fresh)).ids.get id = some e ∧ e.path = path := by
    intro id path hid
    obtain ⟨e, he, hpath⟩ := pathsOf_eq_some.mp ((hsynced.directory id).symm.trans hid)
    exact ⟨e, (hids id).trans he, hpath⟩
  have hnew : (firstPass folder (loadIds file (loadIds file .fresh))).2 = [] := by
    rw [List.eq_nil_iff_forall_not_mem]
    intro path hpath
    obtain ⟨hvisible, hunknown⟩ := ((firstPass_spec hindexed folder).unassigned path).mp hpath
    obtain ⟨k, hk⟩ := hevery path (mem_visible.mp hvisible)
    rw [(knownId_iff hindexed).mpr (hentry k path hk)] at hunknown
    cases hunknown
  have hfresh : FreshIds host folder uuid (loadIds file (loadIds file .fresh)) := by
    refine ⟨⟨?_, ?_⟩, ?_⟩ <;> rw [hnew] <;> simp
  have hreuse : reuses host folder (firstPass folder (loadIds file (loadIds file .fresh))).2
      (candidates folder (loadIds file (loadIds file .fresh))) = false := by
    rw [hnew]
    rfl
  have hassigned := assignment_spec hindexed hfresh hreuse
  obtain ⟨-, hdirectory⟩ := start_spec hdistinct hfresh hreuse hstart
  have hkept : ∀ k path, b.directory.get k = some path → s'.directory.get k = some path := by
    intro k path hk
    obtain ⟨e, he, rfl⟩ := hentry k path hk
    rw [hdirectory]
    exact hassigned.kept k e he (hthere k e.path hk)
  cases hid : b.directory.get id with
  | some path => exact hkept id path hid
  | none =>
    rw [Option.eq_none_iff_forall_ne_some]
    intro path hpath
    have hfile := hpath
    rw [hdirectory] at hfile
    obtain ⟨k, hk⟩ := hevery path (hassigned.there id path hfile)
    have hsame := hkept k path hk
    rw [hdirectory] at hsame
    rw [hassigned.inj id k path hfile hsame, hk] at hid
    cases hid

theorem identified (hsaved : Saved file b) (hindexed : Indexed b)
    (hfresh : FreshIds host folder uuid (loadIds file b))
    (hreuse : reuses host folder (firstPass folder (loadIds file b)).2 (candidates folder (loadIds file b)) = false)
    {s' : Session ι} (hsynced : Synced file' s')
    (hdirectory : ∀ id, s'.directory.get id = (assignment host folder uuid (loadIds file b)).1.get id) :
    Identified host folder file b file' s' ∧ Distinct file' := by
  have hassigned := assignment_spec (hindexed.load hsaved) hfresh hreuse
  have hload : ∀ id, (loadIds file b).ids.get id = (documents file).get id := fun id => (hsaved.load.same id).symm
  have hknown : ∀ id path, Known file b id path → ∃ e, (loadIds file b).ids.get id = some e ∧ e.path = path := by
    rintro id path (hpath | hpath)
    · obtain ⟨e, he, heq⟩ := pathsOf_eq_some.mp hpath
      exact ⟨e, (hload id).trans he, heq⟩
    · obtain ⟨e, he, heq⟩ := hindexed.directory id path hpath
      exact ⟨e, (get_loadIds hsaved.mirror id).trans he, heq⟩
  have hevery : ∀ path, (present folder).get path ≠ none → ∃ id, s'.directory.get id = some path := by
    intro path hpath
    obtain ⟨id, hid⟩ := hassigned.every path hpath
    exact ⟨id, (hdirectory id).trans hid⟩
  have hinj : ∀ id id' path, s'.directory.get id = some path → s'.directory.get id' = some path → id = id' := by
    intro id id' path hid hid'
    rw [hdirectory] at hid hid'
    exact hassigned.inj id id' path hid hid'
  have hthere : ∀ id path, s'.directory.get id = some path → (present folder).get path ≠ none := by
    intro id path hid
    rw [hdirectory] at hid
    exact hassigned.there id path hid
  have hpersisted : ∀ id, pathsOf file' id = s'.directory.get id := fun id => (hsynced.directory id).symm
  have hdistinct : Distinct file' := by
    intro id id' path hid hid'
    rw [hpersisted] at hid hid'
    exact hinj id id' path hid hid'
  refine ⟨⟨?_, ?_, hthere, ?_, ?_, hpersisted, ?_, ?_⟩, hdistinct⟩
  · intro path hpath
    obtain ⟨id, hid⟩ := hevery path hpath
    exact ⟨id, hid, fun id' hid' => hinj id' id path hid' hid⟩
  · intro id p q hp hq
    exact Option.some.inj (hp.symm.trans hq)
  · intro id path hpath hvisible
    obtain ⟨e, he, rfl⟩ := hknown id path hpath
    rw [hdirectory]
    exact hassigned.kept id e he hvisible
  · intro id path hrenamed
    obtain ⟨hfile, e, he, hgone⟩ := hassigned.renamed id path hrenamed
    refine ⟨(hdirectory id).trans hfile, e.path, .inl ?_, hgone⟩
    exact pathsOf_eq_some.mpr ⟨e, (hload id).symm.trans he, rfl⟩
  · intro id
    rw [← hsynced.saved.same]
    rfl
  · intro uuid' file'' s'' hstart id
    exact reopened_same hdistinct hsynced hevery hthere hstart id

/-- What holds between two events: no two documents of the file have the same path, and the session
that is open has what the file has. -/
structure Settled (s : State ι) : Prop where
  distinct : Distinct s.file
  session : ∀ b ∈ s.session, Synced s.file b

theorem scan_identified (hs : Settled s) {e : Event ι} {r : Session ι × (Text → ι)} (hr : scanning s e = some r)
    (hfresh : Fresh host s e) (hreuse : NoReuse host s e) (hstep : step host s e = some s') :
    ∃ t, s'.session = some t ∧ s'.folder = s.folder ∧ Identified host s.folder s.file r.1 s'.file t ∧ Settled s' := by
  have hfresh := hfresh r hr
  have hreuse := hreuse r hr
  have hdone : ∀ file' t, Saved s.file r.1 → Indexed r.1 → Synced file' t →
      (∀ id, t.directory.get id = (assignment host s.folder r.2 (loadIds s.file r.1)).1.get id) →
      s' = { s with file := file', session := some t } →
      ∃ t, s'.session = some t ∧ s'.folder = s.folder ∧ Identified host s.folder s.file r.1 s'.file t ∧ Settled s' := by
    rintro file' t hsaved hindexed hsynced hdirectory rfl
    obtain ⟨hidentified, hdistinct⟩ := identified hsaved hindexed hfresh hreuse hsynced hdirectory
    refine ⟨t, rfl, rfl, hidentified, hdistinct, ?_⟩
    intro t' ht'
    obtain rfl := Option.some.inj ht'
    exact hsynced
  cases e with
  | change folder => cases hr
  | opened uuid =>
    obtain rfl := Option.some.inj hr
    dsimp only [step] at hstep
    obtain ⟨⟨file', t⟩, hstart, rfl⟩ := Option.map_eq_some_iff.mp hstep
    obtain ⟨hsynced, hdirectory⟩ := start_spec hs.distinct hfresh hreuse hstart
    exact hdone file' t (saved_loadIds s.file) (indexed_fresh hs.distinct) hsynced hdirectory rfl
  | scan uuid =>
    obtain ⟨b, hb, rfl⟩ := Option.map_eq_some_iff.mp hr
    dsimp only [step] at hstep
    rw [hb] at hstep
    obtain ⟨⟨file', t⟩, hscan, rfl⟩ := Option.map_eq_some_iff.mp hstep
    have hb := hs.session b hb
    have hindexed := hb.indexed hs.distinct
    have hdrop : ∀ id, b.ids.get id ≠ none → b.directory.get id ≠ none := by
      intro id hid
      obtain ⟨e, he⟩ := Option.ne_none_iff_exists'.mp hid
      rw [hb.directory, pathsOf, hb.saved.same, he]
      exact Option.some_ne_none e.path
    obtain ⟨hsynced, hdirectory⟩ := scan_spec hb.saved hindexed (.inr hdrop) hfresh hreuse hscan
    exact hdone file' t hb.saved hindexed hsynced hdirectory rfl

theorem settled_step (hs : Settled s) {e : Event ι} (hfresh : Fresh host s e) (hreuse : NoReuse host s e)
    (hstep : step host s e = some s') : Settled s' := by
  cases hr : scanning s e with
  | some r =>
    obtain ⟨t, -, -, -, hsettled⟩ := scan_identified hs hr hfresh hreuse hstep
    exact hsettled
  | none =>
    cases e with
    | change folder =>
      obtain rfl := Option.some.inj hstep
      exact ⟨hs.distinct, hs.session⟩
    | opened uuid => cases hr
    | scan uuid =>
      dsimp only [step] at hstep
      rw [Option.map_eq_none_iff.mp hr] at hstep
      cases hstep

/-- Over every run of changes, scans and sessions opened again, from any folder and from any ids of
earlier sessions, each scan keeps the identities of the documents. -/
theorem scans_keep_identities (host : Host ι) (folder : Folder) (file : Option (DocumentsFile ι))
    (hdistinct : Distinct file) {s s' : State ι}
    (hrun : Transition.Run (step host) (fun s e => Fresh host s e ∧ NoReuse host s e) ⟨folder, file, none⟩ s)
    (e : Event ι) (r : Session ι × (Text → ι)) (hr : scanning s e = some r) (hfresh : Fresh host s e)
    (hreuse : NoReuse host s e) (hstep : step host s e = some s') :
    ∃ t, s'.session = some t ∧ s'.folder = s.folder ∧ Identified host s.folder s.file r.1 s'.file t := by
  have hsettled : Settled s := by
    refine hrun.invariant Settled ⟨hdistinct, ?_⟩ fun s e s' hs hok hstep => settled_step hs hok.1 hok.2 hstep
    intro b hb
    cases hb
  obtain ⟨t, ht, hfolder, hidentified, -⟩ := scan_identified hsettled hr hfresh hreuse hstep
  exact ⟨t, ht, hfolder, hidentified⟩

instance (host : Host ι) (folder : Folder) (uuid : Text → ι) (s : Session ι) :
    Decidable (FreshIds host folder uuid s) :=
  decidable_of_iff
    (((∀ p ∈ (firstPass folder s).2, ∀ q ∈ (firstPass folder s).2, uuid p = uuid q → p = q) ∧
      ∀ p ∈ (firstPass folder s).2, ∀ q ∈ (firstPass folder s).2, uuid p ≠ host.discoveredDocumentId q) ∧
      ∀ p ∈ (firstPass folder s).2, s.ids.get (uuid p) = none)
    ⟨fun h => ⟨⟨h.1.1, h.1.2⟩, h.2⟩, fun h => ⟨⟨h.random.distinct, h.random.drawn⟩, h.unknown⟩⟩

instance (host : Host ι) (s : State ι) (e : Event ι) : Decidable (Fresh host s e) :=
  inferInstanceAs (Decidable (∀ r ∈ scanning s e, _))

instance (host : Host ι) (s : State ι) (e : Event ι) : Decidable (NoReuse host s e) :=
  inferInstanceAs (Decidable (∀ r ∈ scanning s e, _))

/-- The id of a path is the path after `d`, a random one the path after `u`. -/
def noteHost : Host Text where
  discoveredDocumentId path := 'd' :: path
  contentHash _ := []
  localeCompare _ _ := .eq

def noteUuid (path : Text) : Text := 'u' :: path

/-- A file whose size and date are the same number. -/
def noteEntry (path : Text) (n : Nat) : FileEntry := ⟨path, .file, some n, some n⟩

def noteFolder (notes : List (Text × Nat)) (h : ((vaultMetaPath, 9) :: notes).map Prod.fst |>.Nodup) : Folder where
  entries := ((vaultMetaPath, 9) :: notes).map fun note => noteEntry note.1 note.2
  nodup := by
    rw [List.map_map]
    exact h
  bytes _ := []

def noteA : Text := "A.md".toList
def noteB : Text := "B.md".toList
def noteC : Text := "C.md".toList

def oneNote : Folder := noteFolder [(noteA, 1)] (by decide)
def renamedNote : Folder := noteFolder [(noteB, 1)] (by decide)

/-- `B.md` is renamed again, and there is another `A.md`. -/
def newNote : Folder := noteFolder [(noteA, 2), (noteC, 1)] (by decide)

def firstEvents : List (Event Text) := [.opened noteUuid, .change renamedNote]

theorem scans_keep_identities_renamed : ∃ s s' : State Text, ∃ r : Session Text × (Text → Text),
    Transition.Run (step noteHost) (fun s e => Fresh noteHost s e ∧ NoReuse noteHost s e) ⟨oneNote, none, none⟩ s ∧
    scanning s (.scan noteUuid) = some r ∧ step noteHost s (.scan noteUuid) = some s' ∧
    ∃ t, s'.session = some t ∧ s'.folder = s.folder ∧ Identified noteHost s.folder s.file r.1 s'.file t := by
  refine ⟨_, _, _, Transition.run_of_exec firstEvents _ _ rfl, rfl, rfl, ?_⟩
  have hnone : Distinct (none : Option (DocumentsFile Text)) := by
    intro id id' path hid
    cases hid
  exact scans_keep_identities noteHost oneNote none hnone (Transition.run_of_exec firstEvents _ _ rfl)
    (.scan noteUuid) _ rfl (by decide +kernel) (by decide +kernel) rfl

/-- The new `A.md` takes the id of the renamed document, which then gets its own file: `A.md` has no id. -/
theorem note_without_id : ∃ s : State Text,
    Transition.Run (step noteHost) (fun s e => Fresh noteHost s e) ⟨oneNote, none, none⟩ s ∧
    (present s.folder).get noteA ≠ none ∧
    ∀ t, s.session = some t → ∀ id, t.directory.get id ≠ some noteA := by
  let events := firstEvents ++ [.scan noteUuid, .change newNote, .scan noteUuid]
  let last := Transition.exec (step noteHost) (fun s e => Fresh noteHost s e) ⟨oneNote, none, none⟩ events
  obtain ⟨s, hs⟩ : ∃ s, last = some s := ⟨_, rfl⟩
  have hvisible : last.map (fun s => (present s.folder).get noteA) ≠ some none := by decide +kernel
  have hpaths : last.bind (fun s => s.session.map fun t => t.directory.entries.map Prod.snd) = some [noteC] := by
    decide +kernel
  rw [hs] at hvisible hpaths
  refine ⟨s, Transition.run_of_exec events _ _ hs, fun hnone => hvisible (congrArg some hnone), ?_⟩
  intro t ht id hid
  rw [Option.bind_some, ht] at hpaths
  have hpaths : t.directory.entries.map Prod.snd = [noteC] := Option.some.inj hpaths
  have hmem : noteA ∈ t.directory.entries.map Prod.snd := List.mem_map.mpr ⟨_, KeyedMap.mem_iff.mpr hid, rfl⟩
  rw [hpaths] at hmem
  exact absurd hmem (by decide)

end Savoire.FolderVault
