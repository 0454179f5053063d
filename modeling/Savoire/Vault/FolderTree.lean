import Savoire.Library.BreadthFirst
import Savoire.Vault.FolderOps

/-! What the walk through a folder gives: its folders, and its files in the order of their names. -/
namespace Savoire.FolderOps
open VaultClient
open VaultIndex (isTrashPath nameOf)

section Paths
variable {d : Directory} {dir path e q rest : Text}

theorem isFolder_iff : isFolder path = true ↔ ∃ u, path = u ++ ['/'] := by
  rw [isFolder, Links.endsWith, List.isSuffixOf_iff_suffix]
  exact ⟨fun ⟨u, hu⟩ => ⟨u, hu.symm⟩, fun ⟨u, hu⟩ => ⟨u, hu.symm⟩⟩

theorem folderStart_of_folder (h : isFolder dir = true) : folderStart dir = dir := if_pos h

theorem ne_nil_of_folder (h : isFolder dir = true) : dir ≠ [] := by
  rintro rfl
  cases h

theorem listStart_of_folder (h : isFolder dir = true) : listStart dir = dir := by
  rw [listStart, if_neg (ne_nil_of_folder h), folderStart_of_folder h]

theorem isFolder_append_of_ne_nil (h : rest ≠ []) : isFolder (dir ++ rest) = isFolder rest := by
  have hiff : isFolder (dir ++ rest) = true ↔ isFolder rest = true := by
    rw [isFolder_iff, isFolder_iff]
    constructor
    · rintro ⟨u, hu⟩
      obtain ⟨v, c, rfl⟩ := List.eq_nil_or_concat' rest |>.resolve_left h
      rw [← List.append_assoc] at hu
      exact ⟨v, congrArg (v ++ ·) (List.append_inj_right' hu rfl)⟩
    · rintro ⟨u, rfl⟩
      exact ⟨dir ++ u, (List.append_assoc _ _ _).symm⟩
  rw [Bool.eq_iff_iff]
  exact hiff

theorem not_isFolder_of_no_slash (h : '/' ∉ rest) : isFolder rest = false := by
  rw [← Bool.not_eq_true, isFolder_iff]
  rintro ⟨u, rfl⟩
  exact h (by simp)

theorem parentOf_folder (hdir : isFolder dir = true) (h : '/' ∉ rest) : parentOf (dir ++ rest) = dir := by
  obtain ⟨u, rfl⟩ := isFolder_iff.1 hdir
  have hall : ∀ c ∈ rest.reverse, decide (c ≠ '/') = true := by
    intro c hc
    rw [decide_eq_true_iff]
    rintro rfl
    exact h (List.mem_reverse.1 hc)
  rw [parentOf, List.rdropWhile, List.reverse_append, List.dropWhile_append_of_pos hall]
  simp

theorem entryOf_append (dir rest : Text) : entryOf dir (dir ++ rest) =
    if '/' ∈ rest then dir ++ rest.takeWhile (· ≠ '/') ++ "/".toList else dir ++ rest := by
  rw [entryOf, List.drop_left]

theorem isTrashPath_of_under (hdir : isFolder dir = true) (hpath : dir <+: path) (h : isTrashPath path = true) :
    isTrashPath dir = true := by
  rw [isTrashPath, Text.startsWith_iff] at h ⊢
  obtain hlong | hshort := List.prefix_or_prefix_of_prefix h hpath
  · exact hlong
  · -- a beginning of `.trash/` that ends with a separator is all of it
    obtain ⟨u, rfl⟩ := isFolder_iff.1 hdir
    obtain ⟨v, hv⟩ := hshort
    obtain hsame | hin := List.prefix_concat_iff.1 (show u ++ ['/'] <+: ".trash".toList ++ ['/'] from ⟨v, hv⟩)
    · rw [hsame]
      exact List.prefix_refl _
    · have hslash : '/' ∈ ".trash".toList := hin.subset (by simp)
      exact absurd hslash (by decide)

theorem mem_list (hdir : isFolder dir = true) : e ∈ list d dir ↔
    (∃ rest, dir ++ rest ∈ d.paths ∧ entryOf dir (dir ++ rest) = e) ∨
      ∃ rest, rest ≠ [] ∧ dir ++ rest ∈ d.getFolders ∧ entryOf dir (dir ++ rest) = e := by
  have hstart := listStart_of_folder hdir
  simp only [list, hstart, StableSort.mem_sort, List.mem_dedup, List.mem_append, List.mem_map, List.mem_filter,
    Bool.and_eq_true, Bool.not_eq_true', Text.startsWith_iff]
  refine or_congr ?_ ?_
  · constructor
    · rintro ⟨path, ⟨hpath, ⟨rest, rfl⟩, -⟩, he⟩
      exact ⟨rest, hpath, he⟩
    · rintro ⟨rest, hpath, he⟩
      refine ⟨dir ++ rest, ⟨hpath, ⟨rest, rfl⟩, ?_⟩, he⟩
      cases htrash : isTrashPath (dir ++ rest) with
      | false => simp
      | true => simp [isTrashPath_of_under hdir ⟨rest, rfl⟩ htrash]
  · constructor
    · rintro ⟨path, ⟨hpath, ⟨rest, rfl⟩, hrest⟩, he⟩
      rw [List.drop_left, decide_eq_true_iff] at hrest
      exact ⟨rest, hrest, hpath, he⟩
    · rintro ⟨rest, hrest, hpath, he⟩
      exact ⟨dir ++ rest, ⟨hpath, ⟨rest, rfl⟩, by simpa using hrest⟩, he⟩

theorem nodup_list (d : Directory) (dir : Text) : (list d dir).Nodup :=
  (StableSort.sort_perm _ _).nodup_iff.2 (List.nodup_dedup _)

theorem length_list_le (d : Directory) (dir : Text) : (list d dir).length ≤ (d.paths ++ d.getFolders).length := by
  refine (StableSort.sort_perm _ _).length_eq.le.trans ((List.dedup_sublist _).length_le.trans ?_)
  rw [List.length_append, List.length_append, List.length_map, List.length_map]
  exact Nat.add_le_add (List.length_filter_le _ _) (List.length_filter_le _ _)

def subfolders (d : Directory) (dir : Text) : List Text := (list d dir).filter isFolder

def filesOf (d : Directory) (dir : Text) : List Text := (list d dir).filter (!isFolder ·)

theorem collect_eq (d : Directory) (fuel : ℕ) (queue files done : List Text) :
    collect d fuel queue ⟨files, done ++ queue⟩ = (BreadthFirst.visit (subfolders d) fuel queue).map fun dirs =>
      ⟨files ++ dirs.flatMap (filesOf d), done ++ dirs⟩ := by
  induction fuel generalizing queue files done with
  | zero =>
    cases queue with
    | nil => simp [collect, BreadthFirst.visit]
    | cons dir queue => rfl
  | succ fuel ih =>
    cases queue with
    | nil => simp [collect, BreadthFirst.visit]
    | cons dir queue =>
      have hdone : done ++ dir :: queue ++ subfolders d dir = done ++ [dir] ++ (queue ++ subfolders d dir) := by simp
      have hnext := ih (queue ++ subfolders d dir) (files ++ filesOf d dir) (done ++ [dir])
      rw [← hdone] at hnext
      refine hnext.trans ?_
      rw [BreadthFirst.visit, Option.map_map]
      refine congrArg (Option.map · _) (funext fun dirs => ?_)
      simp

theorem collectFolder_eq (d : Directory) (fuel : ℕ) (start : Text) :
    collectFolder d fuel start = (BreadthFirst.visit (subfolders d) fuel [start]).map fun dirs =>
      ⟨dirs.flatMap (filesOf d), dirs⟩ :=
  collect_eq d fuel [start] [] []

theorem entryOf_below (dir seg tail : Text) (h : '/' ∉ seg) :
    entryOf dir (dir ++ (seg ++ '/' :: tail)) = dir ++ seg ++ ['/'] := by
  rw [entryOf_append, if_pos (by simp), Text.takeWhile_sep '/' seg tail h]
  rfl

theorem entryOf_name (dir : Text) (h : '/' ∉ rest) : entryOf dir (dir ++ rest) = dir ++ rest := by
  rw [entryOf_append, if_neg h]

/-- What stands below a folder, as a document or as an entry. -/
def Below (d : Directory) (dir rest : Text) : Prop :=
  dir ++ rest ∈ d.paths ∨ rest ≠ [] ∧ dir ++ rest ∈ d.getFolders

theorem mem_list_iff (hdir : isFolder dir = true) :
    e ∈ list d dir ↔ ∃ rest, Below d dir rest ∧ entryOf dir (dir ++ rest) = e := by
  rw [mem_list hdir]
  constructor
  · rintro (⟨rest, hpath, he⟩ | ⟨rest, hrest, hfolder, he⟩)
    · exact ⟨rest, .inl hpath, he⟩
    · exact ⟨rest, .inr ⟨hrest, hfolder⟩, he⟩
  · rintro ⟨rest, hpath | ⟨hrest, hfolder⟩, he⟩
    · exact .inl ⟨rest, hpath, he⟩
    · exact .inr ⟨rest, hrest, hfolder, he⟩

theorem of_subfolder (hdir : isFolder dir = true) (he : e ∈ subfolders d dir) :
    (∃ seg tail, '/' ∉ seg ∧ e = dir ++ seg ++ ['/'] ∧ Below d dir (seg ++ '/' :: tail)) ∨ e = dir ∧ dir ∈ d.paths := by
  obtain ⟨hlist, hfolder⟩ := List.mem_filter.1 he
  obtain ⟨rest, hbelow, rfl⟩ := (mem_list_iff hdir).1 hlist
  by_cases hslash : '/' ∈ rest
  · obtain ⟨seg, tail, rfl, hseg⟩ := List.eq_append_cons_of_mem hslash
    exact .inl ⟨seg, tail, hseg, entryOf_below dir seg tail hseg, hbelow⟩
  · rw [entryOf_name dir hslash] at hfolder ⊢
    have hnil : rest = [] := by
      by_contra hne
      rw [isFolder_append_of_ne_nil hne, not_isFolder_of_no_slash hslash] at hfolder
      cases hfolder
    subst hnil
    rw [List.append_nil]
    obtain hpath | ⟨hne, -⟩ := hbelow
    · exact .inr ⟨rfl, by simpa using hpath⟩
    · exact absurd rfl hne

theorem mem_filesOf (hdir : isFolder dir = true) : e ∈ filesOf d dir ↔
    ∃ rest, rest ≠ [] ∧ '/' ∉ rest ∧ e = dir ++ rest ∧ (e ∈ d.paths ∨ e ∈ d.getFolders) := by
  rw [filesOf, List.mem_filter, mem_list_iff hdir]
  constructor
  · rintro ⟨⟨rest, hbelow, rfl⟩, hfile⟩
    by_cases hslash : '/' ∈ rest
    · obtain ⟨seg, tail, rfl, hseg⟩ := List.eq_append_cons_of_mem hslash
      rw [entryOf_below dir seg tail hseg, isFolder_iff.2 ⟨_, rfl⟩] at hfile
      cases hfile
    · rw [entryOf_name dir hslash] at hfile ⊢
      refine ⟨rest, ?_, hslash, rfl, hbelow.imp_right And.right⟩
      rintro rfl
      rw [List.append_nil, hdir] at hfile
      cases hfile
  · rintro ⟨rest, hne, hslash, rfl, hin⟩
    refine ⟨⟨rest, hin.imp_right fun hfolder => ⟨hne, hfolder⟩, entryOf_name dir hslash⟩, ?_⟩
    rw [isFolder_append_of_ne_nil hne, not_isFolder_of_no_slash hslash]
    rfl

theorem mem_subfolders (hdir : isFolder dir = true) {seg tail : Text} (hseg : '/' ∉ seg)
    (h : Below d dir (seg ++ '/' :: tail)) : dir ++ seg ++ ['/'] ∈ subfolders d dir :=
  List.mem_filter.2 ⟨(mem_list_iff hdir).2 ⟨_, h, entryOf_below dir seg tail hseg⟩, isFolder_iff.2 ⟨_, rfl⟩⟩

end Paths

section Walk
variable {d : Directory} {start q f g : Text} {dirs : List Text} {fuel : ℕ}

/-- The folders of the walk. -/
def Inside (start dir : Text) : Prop := isFolder dir = true ∧ start <+: dir

theorem inside_subfolder {a b : Text} (ha : Inside start a) (hb : b ∈ subfolders d a) : Inside start b := by
  obtain ⟨seg, tail, -, rfl, -⟩ | ⟨rfl, -⟩ := of_subfolder ha.1 hb
  · refine ⟨isFolder_iff.2 ⟨_, rfl⟩, ha.2.trans ?_⟩
    rw [List.append_assoc]
    exact List.prefix_append _ _
  · exact ha

/-- A walk through the folder that has ended. -/
abbrev Walk (d : Directory) (fuel : ℕ) (start : Text) (dirs : List Text) : Prop :=
  BreadthFirst.visit (subfolders d) fuel [start] = some dirs

def parentFolder (start dir : Text) : Option Text := if dir = start then none else some (parentOf dir.dropLast)

/-- No document under `start` has a folder path. -/
def Proper (d : Directory) (start : Text) : Prop := ∀ q ∈ d.paths, start <+: q → isFolder q = false

theorem child_of_proper (hproper : Proper d start) {a b : Text} (ha : Inside start a) (hb : b ∈ subfolders d a) :
    ∃ seg, '/' ∉ seg ∧ b = a ++ seg ++ ['/'] ∧ ∃ q ∈ d.paths ++ d.getFolders, b <+: q := by
  obtain ⟨seg, tail, hseg, rfl, hbelow⟩ | ⟨rfl, hpath⟩ := of_subfolder ha.1 hb
  · have hwhole : a ++ seg ++ ['/'] <+: a ++ (seg ++ '/' :: tail) := ⟨tail, by simp⟩
    obtain hq | hq := hbelow
    · exact ⟨seg, hseg, rfl, _, List.mem_append_left _ hq, hwhole⟩
    · exact ⟨seg, hseg, rfl, _, List.mem_append_right _ hq.2, hwhole⟩
  · have hfile := hproper b hpath ha.2
    rw [ha.1] at hfile
    cases hfile

theorem exists_walk (hstart : isFolder start = true) (hproper : Proper d start) :
    ∃ fuel dirs, Walk d fuel start dirs := by
  have hlong : ∀ q ∈ d.paths ++ d.getFolders, q.length ≤ ((d.paths ++ d.getFolders).map List.length).sum :=
    fun q hq => List.single_le_sum (by simp) _ (List.mem_map_of_mem hq)
  have hmany : ∀ a, (subfolders d a).length ≤ (d.paths ++ d.getFolders).length :=
    fun a => (List.length_filter_le _ _).trans (length_list_le d a)
  refine ⟨_, BreadthFirst.exists_visit (P := Inside start) List.length
    ((d.paths ++ d.getFolders).map List.length).sum _ (fun a b => inside_subfolder) ?_ hmany ?_⟩
  · intro a b ha hb
    obtain ⟨seg, -, rfl, q, hq, hbq⟩ := child_of_proper hproper ha hb
    have hle := hbq.length_le.trans (hlong q hq)
    simp only [List.length_append, List.length_singleton] at hle ⊢
    omega
  · intro a ha
    rw [List.mem_singleton.1 ha]
    exact ⟨hstart, List.prefix_refl _⟩

theorem mem_root (h : Walk d fuel start dirs) : start ∈ dirs :=
  BreadthFirst.mem_of_mem_queue h List.mem_cons_self

variable (hstart : isFolder start = true) (h : Walk d fuel start dirs)
include hstart h

theorem forall_inside : ∀ a ∈ dirs, Inside start a := by
  refine BreadthFirst.forall_of_inherited (P := Inside start) (fun a b => inside_subfolder) h ?_
  intro a ha
  rw [List.mem_singleton.1 ha]
  exact ⟨hstart, List.prefix_refl _⟩

theorem found_below (rest : Text) {a : Text} (ha : a ∈ dirs) (hq : Below d a rest) :
    (isFolder (a ++ rest) = true → a ++ rest ∈ dirs) ∧
      (isFolder (a ++ rest) = false → a ++ rest ∈ dirs.flatMap (filesOf d)) := by
  induction hn : rest.length using Nat.strong_induction_on generalizing rest a with
  | _ n ih =>
    have hin := forall_inside hstart h a ha
    by_cases hslash : '/' ∈ rest
    · obtain ⟨seg, tail, rfl, hseg⟩ := List.eq_append_cons_of_mem hslash
      have hsub := BreadthFirst.mem_of_mem_children h ha (mem_subfolders hin.1 hseg hq)
      have hwhole : a ++ seg ++ ['/'] ++ tail = a ++ (seg ++ '/' :: tail) := by simp
      by_cases htail : tail = []
      · subst htail
        rw [← hwhole, List.append_nil]
        refine ⟨fun _ => hsub, fun hfile => ?_⟩
        rw [isFolder_iff.2 ⟨_, rfl⟩] at hfile
        cases hfile
      · have hbelow : Below d (a ++ seg ++ ['/']) tail := by
          unfold Below at hq ⊢
          rw [hwhole]
          exact hq.imp_right fun hfolder => ⟨htail, hfolder.2⟩
        have hless : tail.length < n := by
          rw [← hn]
          simp
          omega
        have hrest := ih tail.length hless tail hsub hbelow rfl
        rw [hwhole] at hrest
        exact hrest
    · by_cases hnil : rest = []
      · subst hnil
        rw [List.append_nil]
        refine ⟨fun _ => ha, fun hfile => ?_⟩
        rw [hin.1] at hfile
        cases hfile
      · have hfile : isFolder (a ++ rest) = false := by
          rw [isFolder_append_of_ne_nil hnil, not_isFolder_of_no_slash hslash]
        rw [hfile]
        refine ⟨(fun hfolder => by cases hfolder), fun _ => List.mem_flatMap.2 ⟨a, ha, ?_⟩⟩
        exact (mem_filesOf hin.1).2 ⟨rest, hnil, hslash, rfl, hq.imp_right And.right⟩

theorem no_folder_document (hq : q ∈ d.paths) (hunder : start <+: q) : isFolder q = false := by
  by_contra hfolder
  rw [Bool.not_eq_false] at hfolder
  obtain ⟨rest, rfl⟩ := hunder
  have hmem := (found_below hstart h rest (mem_root h) (.inl hq)).1 hfolder
  have hself : start ++ rest ∈ subfolders d (start ++ rest) := by
    refine List.mem_filter.2 ⟨(mem_list_iff hfolder).2 ⟨[], ?_, ?_⟩, hfolder⟩
    · exact .inl (by rwa [List.append_nil])
    · rw [entryOf_name _ List.not_mem_nil, List.append_nil]
  exact BreadthFirst.not_mem_of_mem_children hself h hmem

theorem document_found (hq : q ∈ d.paths) (hunder : start <+: q) : q ∈ dirs.flatMap (filesOf d) := by
  have hfile := no_folder_document hstart h hq hunder
  obtain ⟨rest, rfl⟩ := hunder
  exact (found_below hstart h rest (mem_root h) (.inl hq)).2 hfile

theorem folder_found (hq : q ∈ d.getFolders) (hunder : start <+: q) (hfolder : isFolder q = true) : q ∈ dirs := by
  obtain ⟨rest, rfl⟩ := hunder
  by_cases hnil : rest = []
  · subst hnil
    rw [List.append_nil]
    exact mem_root h
  · exact (found_below hstart h rest (mem_root h) (.inr ⟨hnil, hq⟩)).1 hfolder

theorem of_file (hf : f ∈ dirs.flatMap (filesOf d)) :
    start <+: f ∧ isFolder f = false ∧ (f ∈ d.paths ∨ f ∈ d.getFolders) := by
  obtain ⟨a, ha, hfa⟩ := List.mem_flatMap.1 hf
  have hin := forall_inside hstart h a ha
  obtain ⟨rest, hne, hslash, rfl, hmem⟩ := (mem_filesOf hin.1).1 hfa
  refine ⟨hin.2.trans (List.prefix_append _ _), ?_, hmem⟩
  rw [isFolder_append_of_ne_nil hne, not_isFolder_of_no_slash hslash]

theorem nodup_dirs (hproper : Proper d start) : dirs.Nodup := by
  refine BreadthFirst.nodup_visit (P := Inside start) (parentFolder start) ?_ (fun a => (nodup_list d a).filter _)
    ⟨hstart, List.prefix_refl _⟩ (if_pos rfl) h
  intro a b ha hb
  refine ⟨inside_subfolder ha hb, ?_⟩
  obtain ⟨seg, hseg, rfl, -⟩ := child_of_proper hproper ha hb
  have hlonger : a ++ seg ++ ['/'] ≠ start := by
    intro heq
    have hlen := ha.2.length_le
    rw [← heq] at hlen
    simp at hlen
  rw [parentFolder, if_neg hlonger, List.dropLast_concat, parentOf_folder ha.1 hseg]

theorem files_ordered (hproper : Proper d start) : (dirs.flatMap (filesOf d)).Pairwise fun f g =>
      f ≠ g ∧ (parentOf f = parentOf g → compareTexts f g ≠ .gt) := by
  have hparent : ∀ a ∈ dirs, ∀ f ∈ filesOf d a, parentOf f = a := by
    intro a ha f hf
    have hin := forall_inside hstart h a ha
    obtain ⟨rest, -, hslash, rfl, -⟩ := (mem_filesOf hin.1).1 hf
    exact parentOf_folder hin.1 hslash
  refine List.pairwise_flatMap.2 ⟨fun a _ => ?_, ?_⟩
  · have hsorted : (list d a).Pairwise fun f g => compareTexts f g ≠ .gt :=
      StableSort.sort_pairwise (StableSort.consistent_of_trans _)
    exact ((nodup_list d a).and hsorted).filter _ |>.imp fun hfg => ⟨hfg.1, fun _ => hfg.2⟩
  · refine (nodup_dirs hstart h hproper).imp_of_mem ?_
    intro a b ha hb hab f hf g hg
    have hne : parentOf f ≠ parentOf g := by
      rw [hparent a ha f hf, hparent b hb g hg]
      exact hab
    exact ⟨fun heq => hne (congrArg parentOf heq), fun heq => absurd heq hne⟩

end Walk
end Savoire.FolderOps
