import Mathlib.Data.List.Nodup
import Mathlib.Logic.Function.Basic
import Savoire.Library.Transition
import Savoire.Text

/-! The folders of vaults: those that were opened lately, kept in a file, and those that the page may use in this
session. Paths are valid UTF-8. -/
namespace Savoire.RecentVaults
open Transition

def maxRecent : ℕ := 20

structure RecentVault where
  path : Text
  name : Text
  lastOpenedMs : ℕ
  deriving DecidableEq

/-- The file system as a call finds it: `canonicalize` and `is_dir`. -/
structure Disk where
  canonicalize : Text → Except Text Text
  isDir : Text → Bool

/-- Paths as the platform compares them, by their components, and `file_name`. -/
structure Host (κ : Type) where
  components : Text → κ
  fileName : Text → Option Text

structure VaultRegistry (κ : Type) where
  recent : List RecentVault
  authorized : List κ
  file : List RecentVault

/-- How the file was saved: the old one stays where that failed. -/
abbrev Save := Except Text Unit

section Code
variable {κ : Type} [DecidableEq κ] (host : Host κ) (s : VaultRegistry κ)

def folderName (path : Text) : Text := (host.fileName path).getD path

def nameFor (list : List RecentVault) (path : Text) (name : Option Text) : Text :=
  match name, list.find? (·.path = path) with
  | some n, _ => n
  | none, some previous => previous.name
  | none, none => folderName host path

def upsert (list : List RecentVault) (path : Text) (name : Option Text) (atMs : ℕ) : List RecentVault :=
  (⟨path, nameFor host list path name, atMs⟩ :: list.eraseP (·.path = path)).take maxRecent

def save (list : List RecentVault) (saved : Save) : Except Text Unit × VaultRegistry κ :=
  match saved with
  | .error e => (.error e, { s with recent := list })
  | .ok () => (.ok (), { s with recent := list, file := list })

/-- The folder that `admit` goes on with. -/
def folderAt (disk : Disk) (dir : Text) : Except Text Text :=
  match disk.canonicalize dir with
  | .error e => .error ("dossier introuvable : ".toList ++ e)
  | .ok real => if disk.isDir real then .ok real else .error "ce n'est pas un dossier".toList

/-- `admit` -/
def admitFolder (disk : Disk) (dir : Text) (name : Option Text) (now : ℕ) (saved : Save) :
    Except Text Unit × VaultRegistry κ :=
  match folderAt disk dir with
  | .error e => (.error e, s)
  | .ok real =>
    save { s with authorized := s.authorized.insert (host.components real) } (upsert host s.recent real name now) saved

/-- The folder may change between the two looks at it. -/
def reopen (disk disk' : Disk) (path : Text) (now : ℕ) (saved : Save) : Except Text Unit × VaultRegistry κ :=
  if s.recent.all (·.path ≠ path) then (.error "ce dossier n'est pas dans la liste des vaults".toList, s)
  else
    match disk.canonicalize path with
    | .error e => (.error ("dossier introuvable : ".toList ++ e), s)
    | .ok real =>
      if real ≠ path then (.error "le dossier a change de place, choisissez-le a nouveau".toList, s)
      else admitFolder host s disk' real none now saved

def forget (path : Text) (saved : Save) : Except Text Unit × VaultRegistry κ :=
  match save s (s.recent.filter (·.path ≠ path)) saved with
  | (.error e, s) => (.error e, s)
  | (.ok (), s) => (.ok (), { s with authorized := s.authorized.filter (· ≠ host.components path) })

def setName (path name : Text) : List RecentVault → List RecentVault
  | [] => []
  | v :: list => if v.path = path then { v with name } :: list else v :: setName path name list

def rename (path name : Text) (saved : Save) : Except Text Unit × VaultRegistry κ :=
  if name.trim = [] then (.error "nom vide".toList, s)
  else if s.recent.all (·.path ≠ path) then (.error "vault inconnu".toList, s)
  else save s (setName path name.trim s.recent) saved

/-- A new session. -/
def load : VaultRegistry κ := ⟨s.file, [], s.file⟩

end Code

inductive Event
  | admitFolder (disk : Disk) (dir : Text) (name : Option Text) (now : ℕ) (saved : Save)
  | reopen (disk disk' : Disk) (path : Text) (now : ℕ) (saved : Save)
  | forget (path : Text) (saved : Save)
  | rename (path name : Text) (saved : Save)
  | restart

structure Session (κ : Type) where
  registry : VaultRegistry κ
  chosen : List κ

section Runs
variable {κ : Type} [DecidableEq κ] (host : Host κ) (s : Session κ)

def empty : Session κ := ⟨⟨[], [], []⟩, []⟩

def admitted : Event → Option (Text × Option Text × ℕ × Save)
  | .admitFolder disk dir name now saved => (folderAt disk dir).toOption.map (·, name, now, saved)
  | .reopen disk disk' path now saved =>
    if s.registry.recent.all (·.path ≠ path) then none
    else if (disk.canonicalize path).toOption = some path then (folderAt disk' path).toOption.map (·, none, now, saved)
    else none
  | _ => none

def act : Event → Except Text Unit × VaultRegistry κ
  | .admitFolder disk dir name now saved => admitFolder host s.registry disk dir name now saved
  | .reopen disk disk' path now saved => reopen host s.registry disk disk' path now saved
  | .forget path saved => forget host s.registry path saved
  | .rename path name saved => rename s.registry path name saved
  | .restart => (.ok (), load s.registry)

def next (e : Event) : Session κ :=
  ⟨(act host s e).2, match e with
    | .restart => []
    | _ => s.chosen ++ ((admitted s e).map fun a => host.components a.1).toList⟩

def step (s : Session κ) (e : Event) : Option (Session κ) := some (next host s e)

structure Sound : Prop where
  nodup : (s.registry.recent.map RecentVault.path).Nodup
  bounded : s.registry.recent.length ≤ maxRecent
  /-- So a root that was removed is no longer authorised. -/
  listed : ∀ a ∈ s.registry.authorized, ∃ v ∈ s.registry.recent, host.components v.path = a
  chosen : ∀ a ∈ s.registry.authorized, a ∈ s.chosen

/-- A call that returns an error changes nothing. -/
def Atomic (e : Event) : Prop := ∀ err, (act host s e).1 = .error err → (act host s e).2 = s.registry

/-- A save that fails is one of what has not changed, and no authorised root is pushed out of the list. -/
def Clean (s : Session κ) (e : Event) : Prop :=
  match e with
  | .admitFolder .. | .reopen .. => ∀ real name now saved, admitted s e = some (real, name, now, saved) →
      (saved ≠ .ok () → upsert host s.registry.recent real name now = s.registry.recent ∧
        host.components real ∈ s.registry.authorized) ∧
      ∀ a ∈ s.registry.authorized, ∃ v ∈ upsert host s.registry.recent real name now, host.components v.path = a
  | .forget path saved => saved ≠ .ok () → ∀ v ∈ s.registry.recent, v.path ≠ path
  | .rename path name saved => saved ≠ .ok () → name.trim ≠ [] →
      setName path name.trim s.registry.recent = s.registry.recent
  | .restart => True

structure Inv : Prop extends Sound host s where
  saved : s.registry.file = s.registry.recent

/-- What a call under the condition keeps, and that the condition is exact. -/
def Exact (e : Event) : Prop := (Clean host s e → Inv host (next host s e)) ∧
  ((Sound host (next host s e) ∧ Atomic host s e) ↔ Clean host s e)

end Runs

section Lists
variable {κ : Type} {host : Host κ} {list : List RecentVault} {path name : Text} {newName : Option Text} {now : ℕ}

theorem upsert_head (host : Host κ) (list : List RecentVault) (path : Text) (newName : Option Text) (now : ℕ) :
    ∃ v ∈ upsert host list path newName now, v.path = path :=
  ⟨_, List.mem_cons_self, rfl⟩

theorem map_eraseP (path : Text) (list : List RecentVault) :
    (list.eraseP (·.path = path)).map RecentVault.path = (list.map RecentVault.path).erase path := by
  induction list with
  | nil => rfl
  | cons v list ih =>
    by_cases hv : v.path = path
    · simp [hv]
    · simp [hv, ih]

theorem nodup_upsert (h : (list.map RecentVault.path).Nodup) :
    ((upsert host list path newName now).map RecentVault.path).Nodup := by
  rw [upsert, List.map_take, List.map_cons, map_eraseP]
  apply List.Nodup.sublist (List.take_sublist _ _)
  exact List.nodup_cons.2 ⟨h.not_mem_erase, h.erase _⟩

theorem length_upsert : (upsert host list path newName now).length ≤ maxRecent := by
  rw [upsert, List.length_take]
  exact Nat.min_le_left _ _

theorem setName_paths (path name : Text) (list : List RecentVault) :
    (setName path name list).map RecentVault.path = list.map RecentVault.path := by
  induction list with
  | nil => rfl
  | cons v list ih =>
    rw [setName]
    split_ifs
    · rfl
    · rw [List.map_cons, List.map_cons, ih]

theorem setName_unknown {path : Text} {list : List RecentVault} (name : Text)
    (h : list.all (·.path ≠ path) = true) : setName path name list = list := by
  induction list with
  | nil => rfl
  | cons v list ih =>
    rw [List.all_cons, Bool.and_eq_true, decide_eq_true_eq] at h
    rw [setName, if_neg h.1, ih h.2]

end Lists

section Calls
variable {κ : Type} [DecidableEq κ] {host : Host κ} {s : Session κ} {e : Event} {real : Text} {name : Option Text}
  {now : ℕ} {saved : Save}

section
variable (h : Inv host s)
include h

theorem stays_exact {r : Except Text Unit} (hact : act host s e = (r, s.registry))
    (hclean : Clean host s e) (hchosen : ∀ a ∈ s.chosen, a ∈ (next host s e).chosen) : Exact host s e := by
  have hregistry : (next host s e).registry = s.registry := congrArg Prod.snd hact
  have hsound : Sound host (next host s e) := by
    constructor
    · rw [hregistry]
      exact h.nodup
    · rw [hregistry]
      exact h.bounded
    · rw [hregistry]
      exact h.listed
    · rw [hregistry]
      exact fun a ha => hchosen a (h.chosen a ha)
  refine ⟨fun _ => ⟨hsound, ?_⟩, iff_of_true ⟨hsound, ?_⟩ hclean⟩
  · rw [hregistry]
    exact h.saved
  · intro err _
    rw [hact]

/-- A folder that was found is authorised and goes to the head of the list. -/
theorem admitted_exact (hadmitted : admitted s e = some (real, name, now, saved))
    (hrestart : e ≠ .restart) (hclean : Clean host s e ↔
      (saved ≠ .ok () → upsert host s.registry.recent real name now = s.registry.recent ∧
        host.components real ∈ s.registry.authorized) ∧
      ∀ a ∈ s.registry.authorized, ∃ v ∈ upsert host s.registry.recent real name now, host.components v.path = a)
    (hact : act host s e = save { s.registry with
      authorized := s.registry.authorized.insert (host.components real) }
      (upsert host s.registry.recent real name now) saved) : Exact host s e := by
  have hadded : (next host s e).chosen = s.chosen ++ ((admitted s e).map fun a => host.components a.1).toList := by
    cases e with
    | restart => exact absurd rfl hrestart
    | _ => rfl
  have hchosen : (next host s e).chosen = s.chosen ++ [host.components real] := by
    rw [hadded, hadmitted]
    rfl
  have hregistry : (next host s e).registry = (act host s e).2 := rfl
  have hrecent : (act host s e).2.recent = upsert host s.registry.recent real name now := by
    rw [hact]
    cases saved <;> rfl
  have hauthorized : (act host s e).2.authorized = s.registry.authorized.insert (host.components real) := by
    rw [hact]
    cases saved <;> rfl
  have hsound : Sound host (next host s e) ↔
      ∀ a ∈ s.registry.authorized, ∃ v ∈ upsert host s.registry.recent real name now, host.components v.path = a := by
    constructor
    · intro hs a ha
      have hlisted := hs.listed a
      rw [hregistry, hrecent, hauthorized] at hlisted
      exact hlisted (List.mem_insert_of_mem ha)
    · intro hlisted
      constructor
      · rw [hregistry, hrecent]
        exact nodup_upsert h.nodup
      · rw [hregistry, hrecent]
        exact length_upsert
      · rw [hregistry, hrecent, hauthorized]
        intro a ha
        obtain rfl | ha := List.mem_insert_iff.1 ha
        · obtain ⟨v, hv, hpath⟩ := upsert_head host s.registry.recent real name now
          exact ⟨v, hv, congrArg host.components hpath⟩
        · exact hlisted a ha
      · rw [hregistry, hauthorized, hchosen]
        intro a ha
        obtain rfl | ha := List.mem_insert_iff.1 ha
        · exact List.mem_append_right _ (List.mem_singleton_self _)
        · exact List.mem_append_left _ (h.chosen a ha)
  have hatomic : Atomic host s e ↔ (saved ≠ .ok () → upsert host s.registry.recent real name now = s.registry.recent ∧
      host.components real ∈ s.registry.authorized) := by
    rw [Atomic, hact]
    cases saved with
    | error err =>
      constructor
      · intro hsame _
        have hsame := hsame err rfl
        refine ⟨congrArg VaultRegistry.recent hsame, ?_⟩
        have hauth : s.registry.authorized.insert (host.components real) = s.registry.authorized :=
          congrArg VaultRegistry.authorized hsame
        rw [← hauth]
        exact List.mem_insert_self
      · intro hsame err' _
        obtain ⟨hlist, hmem⟩ := hsame (by simp)
        change (⟨_, _, _⟩ : VaultRegistry κ) = _
        rw [hlist, List.insert_of_mem hmem]
    | ok =>
      constructor
      · intro _ hne
        exact absurd rfl hne
      · rintro - err ⟨⟩
  rw [Exact, hclean, hsound, hatomic]
  refine ⟨?_, and_comm⟩
  rintro ⟨hsame, hlisted⟩
  refine ⟨hsound.2 hlisted, ?_⟩
  rw [hregistry, hrecent, hact]
  cases saved with
  | error => exact h.saved.trans (hsame (by simp)).1.symm
  | ok => rfl

theorem admit_exact (disk : Disk) (dir : Text) (name : Option Text) (now : ℕ) (saved : Save) :
    Exact host s (.admitFolder disk dir name now saved) := by
  cases hfolder : folderAt disk dir with
  | error err =>
    have hnone : admitted s (.admitFolder disk dir name now saved) = none := by
      simp [admitted, hfolder, Except.toOption]
    refine stays_exact h (?_ : act host s _ = (.error err, s.registry)) ?_ ?_
    · simp [act, admitFolder, hfolder]
    · rw [Clean, hnone]
      rintro _ _ _ _ ⟨⟩
    · intro a ha
      exact List.mem_append_left _ ha
  | ok real =>
    have hsome : admitted s (.admitFolder disk dir name now saved) = some (real, name, now, saved) := by
      simp [admitted, hfolder, Except.toOption]
    apply admitted_exact h hsome (by simp)
    · rw [Clean, hsome]
      constructor
      · intro hall
        exact hall _ _ _ _ rfl
      · rintro hone _ _ _ _ ⟨⟩
        exact hone
    · simp [act, admitFolder, hfolder]

theorem reopen_exact (disk disk' : Disk) (path : Text) (now : ℕ) (saved : Save) :
    Exact host s (.reopen disk disk' path now saved) := by
  have hrefused (hnone : admitted s (.reopen disk disk' path now saved) = none) (err : Text)
      (hact : act host s (.reopen disk disk' path now saved) = (.error err, s.registry)) :
      Exact host s (.reopen disk disk' path now saved) := by
    apply stays_exact h hact
    · rw [Clean, hnone]
      rintro _ _ _ _ ⟨⟩
    · intro a ha
      exact List.mem_append_left _ ha
  by_cases hknown : s.registry.recent.all (·.path ≠ path) = true
  · exact hrefused (by rw [admitted, if_pos hknown]) _ (by rw [act, reopen, if_pos hknown])
  · cases hreal : disk.canonicalize path with
    | error err =>
      apply hrefused
      · rw [admitted, if_neg hknown, hreal]
        rfl
      · rw [act, reopen, if_neg hknown, hreal]
    | ok real =>
      by_cases hsame : real = path
      · subst hsame
        have hact' : act host s (.reopen disk disk' real now saved) =
            act host s (.admitFolder disk' real none now saved) := by
          change reopen host s.registry disk disk' real now saved =
            admitFolder host s.registry disk' real none now saved
          unfold reopen
          rw [if_neg hknown, hreal]
          exact if_neg (by simp)
        have hadmitted' : admitted s (.reopen disk disk' real now saved) =
            admitted s (.admitFolder disk' real none now saved) := by
          simp only [admitted]
          rw [if_neg hknown, hreal]
          exact if_pos rfl
        have hnext : next host s (.reopen disk disk' real now saved) =
            next host s (.admitFolder disk' real none now saved) := by
          simp only [next, hact', hadmitted']
        have hclean : Clean host s (.reopen disk disk' real now saved) ↔
            Clean host s (.admitFolder disk' real none now saved) := by
          rw [Clean, Clean, hadmitted']
        have hadmit := admit_exact h disk' real none now saved
        rwa [Exact, hclean, hnext, Atomic, hact', ← Atomic, ← Exact]
      · apply hrefused
        · rw [admitted, if_neg hknown, hreal, if_neg]
          simpa [Except.toOption] using hsame
        · rw [act, reopen, if_neg hknown, hreal]
          exact if_pos hsame

theorem forget_exact (path : Text) (saved : Save) :
    Exact host s (.forget path saved) := by
  have hchosen : (next host s (.forget path saved)).chosen = s.chosen := List.append_nil _
  cases saved with
  | error err =>
    have hact : act host s (.forget path (.error err)) =
        (.error err, { s.registry with recent := s.registry.recent.filter (·.path ≠ path) }) := rfl
    have hsame : Clean host s (.forget path (.error err)) ↔
        s.registry.recent.filter (·.path ≠ path) = s.registry.recent := by
      simp [Clean]
    by_cases hclean : Clean host s (.forget path (.error err))
    · refine stays_exact h (?_ : act host s _ = (.error err, s.registry)) hclean ?_
      · rw [hact, hsame.1 hclean]
      · rw [hchosen]
        exact fun a => id
    · refine ⟨fun hc => absurd hc hclean, iff_of_false ?_ hclean⟩
      rintro ⟨-, hatomic⟩
      exact hclean (hsame.2 (congrArg VaultRegistry.recent (hatomic err (by rw [hact]))))
  | ok =>
    have hregistry : (next host s (.forget path (.ok ()))).registry =
        ⟨s.registry.recent.filter (·.path ≠ path), s.registry.authorized.filter (· ≠ host.components path),
          s.registry.recent.filter (·.path ≠ path)⟩ := rfl
    have hclean : Clean host s (.forget path (.ok ())) := fun hne => absurd rfl hne
    have hsound : Sound host (next host s (.forget path (.ok ()))) := by
      constructor
      · exact h.nodup.sublist (List.filter_sublist.map _)
      · exact (List.length_filter_le _ _).trans h.bounded
      · intro a ha
        obtain ⟨ha, hne⟩ := List.mem_filter.1 ha
        obtain ⟨v, hv, rfl⟩ := h.listed a ha
        refine ⟨v, List.mem_filter.2 ⟨hv, ?_⟩, rfl⟩
        rw [decide_eq_true_eq] at hne ⊢
        exact fun heq => hne (congrArg host.components heq)
      · rw [hregistry, hchosen]
        exact fun a ha => h.chosen a (List.mem_of_mem_filter ha)
    refine ⟨fun _ => ⟨hsound, rfl⟩, iff_of_true ⟨hsound, ?_⟩ hclean⟩
    rintro err ⟨⟩

theorem rename_exact (path name : Text) (saved : Save) :
    Exact host s (.rename path name saved) := by
  have hchosen : (next host s (.rename path name saved)).chosen = s.chosen := List.append_nil _
  by_cases hname : name.trim = []
  · refine stays_exact h (?_ : act host s _ = (.error "nom vide".toList, s.registry)) (fun _ hne => absurd hname hne) ?_
    · exact if_pos hname
    · rw [hchosen]
      exact fun a => id
  by_cases hknown : s.registry.recent.all (·.path ≠ path) = true
  · have hsame := setName_unknown name.trim hknown
    refine stays_exact h (?_ : act host s _ = (.error "vault inconnu".toList, s.registry)) (fun _ _ => hsame) ?_
    · simp only [act, rename]
      rw [if_neg hname]
      exact if_pos hknown
    · rw [hchosen]
      exact fun a => id
  have hact : act host s (.rename path name saved) =
      save s.registry (setName path name.trim s.registry.recent) saved := by
    simp only [act, rename]
    rw [if_neg hname, if_neg hknown]
  have hpaths := setName_paths path name.trim s.registry.recent
  have hclean : Clean host s (.rename path name saved) ↔
      (saved ≠ .ok () → setName path name.trim s.registry.recent = s.registry.recent) := by
    simp [Clean, hname]
  cases saved with
  | error err =>
    by_cases hsame : setName path name.trim s.registry.recent = s.registry.recent
    · refine stays_exact h (?_ : act host s _ = (.error err, s.registry)) (hclean.2 fun _ => hsame) ?_
      · rw [hact, hsame]
        rfl
      · rw [hchosen]
        exact fun a => id
    · have hnot : ¬ Clean host s (.rename path name (.error err)) := by
        rw [hclean]
        exact fun hall => hsame (hall (by simp))
      refine ⟨fun hc => absurd hc hnot, iff_of_false ?_ hnot⟩
      rintro ⟨-, hatomic⟩
      rw [Atomic, hact] at hatomic
      exact hsame (congrArg VaultRegistry.recent (hatomic err rfl))
  | ok =>
    have hregistry : (next host s (.rename path name (.ok ()))).registry =
        ⟨setName path name.trim s.registry.recent, s.registry.authorized,
          setName path name.trim s.registry.recent⟩ := congrArg Prod.snd hact
    have hsound : Sound host (next host s (.rename path name (.ok ()))) := by
      constructor
      · rw [hregistry, hpaths]
        exact h.nodup
      · rw [hregistry, ← List.length_map RecentVault.path, hpaths, List.length_map]
        exact h.bounded
      · rw [hregistry]
        intro a ha
        obtain ⟨v, hv, hva⟩ := h.listed a ha
        have hmem : v.path ∈ (setName path name.trim s.registry.recent).map RecentVault.path := by
          rw [hpaths]
          exact List.mem_map_of_mem hv
        obtain ⟨w, hw, hwv⟩ := List.mem_map.1 hmem
        exact ⟨w, hw, by rw [hwv, hva]⟩
      · rw [hregistry, hchosen]
        exact h.chosen
    refine ⟨fun _ => ⟨hsound, by rw [hregistry]⟩, iff_of_true ⟨hsound, ?_⟩ (hclean.2 fun hne => absurd rfl hne)⟩
    rw [Atomic, hact]
    rintro err ⟨⟩

theorem next_exact (e : Event) : Exact host s e := by
  cases e with
  | admitFolder disk dir name now saved => exact admit_exact h disk dir name now saved
  | reopen disk disk' path now saved => exact reopen_exact h disk disk' path now saved
  | forget path saved => exact forget_exact h path saved
  | rename path name saved => exact rename_exact h path name saved
  | restart =>
    have hregistry : (next host s .restart).registry = ⟨s.registry.recent, [], s.registry.recent⟩ := by
      rw [← h.saved]
      rfl
    have hsound : Sound host (next host s .restart) := by
      constructor
      · rw [hregistry]
        exact h.nodup
      · rw [hregistry]
        exact h.bounded
      · rintro a ⟨⟩
      · rintro a ⟨⟩
    refine ⟨fun _ => ⟨hsound, by rw [hregistry]⟩, iff_of_true ⟨hsound, ?_⟩ trivial⟩
    rintro err ⟨⟩

end

omit [DecidableEq κ] in
theorem inv_empty (host : Host κ) : Inv host empty where
  nodup := List.nodup_nil
  bounded := Nat.zero_le _
  listed := by
    rintro a ⟨⟩
  chosen := by
    rintro a ⟨⟩
  saved := rfl

/-- The registry is sound in every state reached by calls under the condition, and it is exact: in such a state a call
keeps it sound, and changes nothing when it fails, just when it meets it. -/
theorem registry_runs (host : Host κ) (h : Run (step host) (Clean host) empty s) :
    Sound host s ∧ ∀ e, (Sound host (next host s e) ∧ Atomic host s e) ↔ Clean host s e := by
  have hinv : Inv host s := by
    refine h.invariant (Inv host) (inv_empty host) ?_
    rintro t e t' ht hclean ⟨⟩
    exact (next_exact ht e).1 hclean
  exact ⟨hinv.toSound, fun e => (next_exact hinv e).2⟩

end Calls

/-- Paths are their texts, each one a folder. -/
def plainHost : Host Text := ⟨id, fun _ => none⟩
def plainDisk : Disk := ⟨.ok, fun _ => true⟩

def folder (c : Char) : Text := ['/', c]

theorem registry_runs_admitted :
    Sound plainHost (next plainHost empty (.admitFolder plainDisk (folder 'a') none 0 (.ok ()))) := by
  have hclean : Clean plainHost empty (.admitFolder plainDisk (folder 'a') none 0 (.ok ())) := by
    rintro real name now saved ⟨⟩
    refine ⟨fun hne => absurd rfl hne, ?_⟩
    rintro a ⟨⟩
  exact (registry_runs plainHost (.tail (.admitFolder plainDisk (folder 'a') none 0 (.ok ())) .refl hclean rfl)).1

/-- After twenty others the first folder has left the list and is still authorised. -/
theorem authorized_unlisted : ∃ es : List Event,
    let s := es.foldl (next plainHost) empty
    folder 'a' ∈ s.registry.authorized ∧ ∀ v ∈ s.registry.recent, v.path ≠ folder 'a' := by
  refine ⟨"abcdefghijklmnopqrstu".toList.map fun c => .admitFolder plainDisk (folder c) none 0 (.ok ()), ?_⟩
  decide

end Savoire.RecentVaults
