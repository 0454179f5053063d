import Savoire.Desktop.Paths

/-! `vault_fs.rs`: where a read, a creation or an atomic write of an accepted path ends, links followed. -/
namespace Savoire.VaultFs
open FileTree VaultPaths
variable (tree : DirTree Text) (links : Nat) (root : List Text)

/-- The directories that `write_atomic` makes for the entry of `up`: the tree then, and whether the
directory of the temporary files is there. None when the one of the file cannot be made. -/
def makeDirectories (up : List Text) : Option (DirTree Text × Bool) :=
  match tree.createDirAll links up with
  | none => none
  | some made => match made.createDirAll links (root ++ tmpDir) with
    | none => some (made, false)
    | some staged => some (staged, true)

/-- The file that `write_atomic` puts in place or opens. `renamed`: the temporary file was written
and moved; otherwise the path is written directly. -/
def writeAtomicReach (renamed : Bool) (full : List Text) : Option (List Text) :=
  match full.getLast? with
  | none => none
  | some n => match makeDirectories tree links root full.dropLast with
    | none => none
    | some (made, staged) =>
      if renamed && staged then made.renameReach links full.dropLast n else made.createReach links full

/-- Every file that is reached lies in the vault: by opening the path, creating it or writing it. -/
structure Confined (full : List Text) : Prop where
  opened : ∀ p, tree.canonicalize links full = some p → root <+: p
  created : ∀ p, tree.createReach links full = some p → root <+: p
  written : ∀ renamed p, writeAtomicReach tree links root renamed full = some p → root <+: p

/-- The links that `resolve` does not see. -/
structure Tame (up : List Text) (n : Text) : Prop where
  /-- A link to a file that is not there yet points into the vault, before the write and once its
  directories are made. -/
  dangling : ∀ made, made = tree ∨ (∃ staged, makeDirectories tree links root up = some (made, staged)) →
    made.isLink links up n → tree.canonicalize links (up ++ [n]) = none →
    ∀ p, made.createReach links (up ++ [n]) = some p → root <+: p
  /-- A link that leads into the vault, which the rename replaces, is itself in the vault. -/
  entry : ∀ made, makeDirectories tree links root up = some (made, true) →
    tree.isLink links up n → tree.canonicalize links (up ++ [n]) ≠ none →
    ∀ p, tree.canonicalize links up = some p → root <+: p

variable {tree links root} {up : List Text} {n : Text}

theorem writeAtomicReach_snoc (renamed : Bool) : writeAtomicReach tree links root renamed (up ++ [n]) =
    match makeDirectories tree links root up with
    | none => none
    | some (made, staged) =>
      if renamed && staged then made.renameReach links up n else made.createReach links (up ++ [n]) := by
  simp only [writeAtomicReach, List.getLast?_append, List.getLast?_singleton, Option.some_or, List.dropLast_concat]

variable {made : DirTree Text} {staged : Bool}

theorem makeDirectories_made (h : makeDirectories tree links root up = some (made, staged)) :
    ∃ mid, tree.createDirAll links up = some mid ∧ Extends mid.node made.node := by
  unfold makeDirectories at h
  split at h
  · cases h
  · rename_i mid hmid
    refine ⟨mid, hmid, ?_⟩
    split at h
    · obtain ⟨rfl, -⟩ := Prod.mk.inj (Option.some.inj h)
      exact fun _ _ => id
    · rename_i last hlast
      obtain ⟨rfl, -⟩ := Prod.mk.inj (Option.some.inj h)
      exact DirTree.createDirAll_extends hlast

theorem makeDirectories_extends
    (h : makeDirectories tree links root up = some (made, staged)) : Extends tree.node made.node := by
  obtain ⟨mid, hmid, hext⟩ := makeDirectories_made h
  exact fun p kind hp => hext p kind (DirTree.createDirAll_extends hmid p kind hp)

variable {p : List Text} {l : Nat}

theorem checked_found {full : List Text} (h : Checked tree links root full)
    (hfull : tree.lookup links full = .found p l) : root <+: p := by
  obtain ⟨pre, suf, real, l', rfl, hpre, hroot, rfl | ⟨c, rest, rfl, hmissing⟩⟩ := h
  · rw [List.append_nil] at hfull
    obtain ⟨rfl, -⟩ := Walk.found.inj (hfull.symm.trans hpre)
    exact hroot
  · have hsplit : pre ++ c :: rest = (pre ++ [c]) ++ rest := by simp
    rw [hsplit] at hfull
    obtain ⟨q, l'', hprefix⟩ := DirTree.found_prefix hfull
    exact absurd hprefix (hmissing q l'')

section
variable (h : Checked tree links root (up ++ [n]))
include h

theorem checked_missing (hnone : tree.canonicalize links (up ++ [n]) = none) :
    ∃ pre real l, tree.lookup links pre = .found real l ∧ root <+: real ∧
      (up = pre ∨ ∃ c rest, up = pre ++ c :: rest ∧ ∀ p l', tree.lookup links (pre ++ [c]) ≠ .found p l') := by
  obtain ⟨pre, suf, real, l, hsplit, hpre, hroot, rfl | ⟨c, rest, rfl, hmissing⟩⟩ := h
  · rw [List.append_nil] at hsplit
    rw [← hsplit] at hpre
    exact absurd hpre (canonicalize_eq_none.mp hnone real l)
  · refine ⟨pre, real, l, hpre, hroot, ?_⟩
    obtain rfl | ⟨rest, m, rfl⟩ := rest.eq_nil_or_concat'
    · exact .inl (List.append_inj' hsplit rfl).1
    · have hassoc : pre ++ c :: (rest ++ [m]) = (pre ++ c :: rest) ++ [m] := by simp
      exact .inr ⟨c, rest, (List.append_inj' (hsplit.trans hassoc) rfl).1, hmissing⟩

theorem directory_there
    (hnone : tree.canonicalize links (up ++ [n]) = none) {q : List Text}
    (hup : tree.lookup links up = .found q l) : root <+: q := by
  obtain ⟨pre, real, l', hpre, hroot, rfl | ⟨c, rest, rfl, hmissing⟩⟩ := checked_missing h hnone
  · obtain ⟨rfl, -⟩ := Walk.found.inj (hup.symm.trans hpre)
    exact hroot
  · have hsplit : pre ++ c :: rest = (pre ++ [c]) ++ rest := by simp
    rw [hsplit] at hup
    obtain ⟨p, l'', hprefix⟩ := DirTree.found_prefix hup
    exact absurd hprefix (hmissing p l'')

theorem directory_made
    (hnone : tree.canonicalize links (up ++ [n]) = none)
    (hmade : makeDirectories tree links root up = some (made, staged)) {q : List Text}
    (hup : made.lookup links up = .found q l) : root <+: q := by
  obtain ⟨mid, hmid, hext⟩ := makeDirectories_made hmade
  obtain ⟨pre, real, l', hpre, hroot, rfl | ⟨c, rest, rfl, hmissing⟩⟩ := checked_missing h hnone
  · have hthere := DirTree.lookup_mono (makeDirectories_extends hmade) hpre
    obtain ⟨rfl, -⟩ := Walk.found.inj (hup.symm.trans hthere)
    exact hroot
  · obtain ⟨p, hp, hreal, -, -⟩ := DirTree.createDirAll_new rest hpre hmissing hmid
    obtain ⟨rfl, -⟩ := Walk.found.inj (hup.symm.trans (DirTree.lookup_mono hext hp))
    exact hroot.trans hreal

end

theorem created_inside (hext : Extends tree.node made.node) (h : Checked tree links root (up ++ [n]))
    (hdirectory : tree.canonicalize links (up ++ [n]) = none → ∀ q l, made.lookup links up = .found q l → root <+: q)
    (hdangling : made.isLink links up n → tree.canonicalize links (up ++ [n]) = none →
      ∀ p, made.createReach links (up ++ [n]) = some p → root <+: p)
    (hp : made.createReach links (up ++ [n]) = some p) : root <+: p := by
  cases hfull : tree.canonicalize links (up ++ [n]) with
  | some real =>
    obtain ⟨l, hreal⟩ := canonicalize_eq_some.mp hfull
    rw [DirTree.createReach_found (DirTree.lookup_mono hext hreal) hp]
    exact checked_found h hreal
  | none =>
    obtain ⟨q, l, hup⟩ := DirTree.createReach_up hp
    obtain rfl | hlink := DirTree.createReach_cases hup hp
    · exact (hdirectory hfull q l hup).trans (List.prefix_append _ _)
    · exact hdangling hlink hfull p hp

theorem renamed_inside (h : Checked tree links root (up ++ [n]))
    (hmade : makeDirectories tree links root up = some (made, true)) (htame : Tame tree links root up n)
    (hp : made.renameReach links up n = some p) : root <+: p := by
  have hext := makeDirectories_extends hmade
  obtain ⟨q, l, hup, hdir, hentry, rfl⟩ := DirTree.renameReach_eq_some.mp hp
  cases hfull : tree.canonicalize links (up ++ [n]) with
  | none => exact (directory_made h hfull hmade hup).trans (List.prefix_append _ _)
  | some real =>
    obtain ⟨l', hreal⟩ := canonicalize_eq_some.mp hfull
    obtain ⟨q', l'', hup', hdir', rfl | hlink⟩ := DirTree.found_snoc hreal
    · obtain ⟨rfl, -⟩ := Walk.found.inj (hup.symm.trans (DirTree.lookup_mono hext hup'))
      exact checked_found h hreal
    · have hsome : tree.canonicalize links (up ++ [n]) ≠ none := by
        rw [hfull]
        exact Option.some_ne_none real
      obtain ⟨rfl, -⟩ := Walk.found.inj (hup.symm.trans (DirTree.lookup_mono hext hup'))
      have hroot := htame.entry made hmade hlink hsome q (canonicalize_eq_some.mpr ⟨l'', hup'⟩)
      exact hroot.trans (List.prefix_append _ _)

theorem confined_of_tame (h : Checked tree links root (up ++ [n])) (htame : Tame tree links root up n) :
    Confined tree links root (up ++ [n]) where
  opened := by
    intro p hp
    obtain ⟨l, hfound⟩ := canonicalize_eq_some.mp hp
    exact checked_found h hfound
  created := by
    intro p hp
    exact created_inside (fun _ _ => id) h (fun hnone q l hup => directory_there h hnone hup)
      (htame.dangling tree (.inl rfl)) hp
  written := by
    intro renamed p hp
    rw [writeAtomicReach_snoc] at hp
    split at hp
    · cases hp
    · rename_i made staged hmade
      split at hp
      · rename_i hrename
        obtain ⟨-, rfl⟩ := Bool.and_eq_true_iff.mp hrename
        exact renamed_inside h hmade htame hp
      · exact created_inside (makeDirectories_extends hmade) h (fun hnone q l hup => directory_made h hnone hmade hup)
          (htame.dangling made (.inr ⟨staged, hmade⟩)) hp

theorem tame_of_confined (hroot : tree.node root = some .dir) (h : Confined tree links root (up ++ [n])) :
    Tame tree links root up n where
  dangling := by
    rintro made (rfl | ⟨staged, hmade⟩) hlink hnone p hp
    · exact h.created p hp
    · refine h.written false p ?_
      rw [writeAtomicReach_snoc, hmade]
      exact hp
  entry := by
    intro made hmade hlink hsome q hq
    have hext := makeDirectories_extends hmade
    obtain ⟨l, hup⟩ := canonicalize_eq_some.mp hq
    obtain ⟨real, hreal⟩ := Option.ne_none_iff_exists'.mp hsome
    obtain ⟨l', hfound⟩ := canonicalize_eq_some.mp hreal
    obtain ⟨q', l'', hup', hdir, -⟩ := DirTree.found_snoc hfound
    obtain ⟨rfl, -⟩ := Walk.found.inj (hup.symm.trans hup')
    obtain ⟨target, htarget⟩ := (DirTree.isLink_iff hup).mp hlink
    have hrename : made.renameReach links up n = some (q ++ [n]) := by
      refine DirTree.renameReach_eq_some.mpr ⟨q, l, DirTree.lookup_mono hext hup, hext q .dir hdir, ?_, rfl⟩
      rw [hext _ _ htarget]
      simp
    have hwritten : writeAtomicReach tree links root true (up ++ [n]) = some (q ++ [n]) := by
      rw [writeAtomicReach_snoc, hmade]
      exact hrename
    obtain heq | hprefix := List.prefix_concat_iff.mp (h.written true _ hwritten)
    · rw [heq, htarget] at hroot
      cases hroot
    · exact hprefix

/-- An accepted path stays in the vault exactly when its last component is no link that `resolve` does not see. -/
theorem resolve_confined (tree : DirTree Text) (links : Nat) (root : List Text) (hroot : tree.node root = some .dir)
    (windows : Bool) (rel : Text) (allowRoot : Bool) (full : List Text)
    (h : resolve tree links root windows rel allowRoot = .ok full) :
    Confined tree links root full ↔ ∀ up n, full = up ++ [n] → Tame tree links root up n := by
  have hchecked := (resolve_ok h).2
  constructor
  · rintro hconfined up n rfl
    exact tame_of_confined hroot hconfined
  · intro htame
    obtain rfl | ⟨up, n, rfl⟩ := full.eq_nil_or_concat'
    · have hnil : tree.lookup links [] = .found [] links := walk_nil links []
      refine ⟨?_, ?_, ?_⟩
      · intro p hp
        obtain ⟨l, hfound⟩ := canonicalize_eq_some.mp hp
        exact checked_found hchecked hfound
      · intro p hp
        rw [DirTree.createReach_found hnil hp]
        exact checked_found hchecked hnil
      · intro renamed p hp
        cases hp
    · exact confined_of_tame hchecked (htame up n rfl)

def vault : List Text := ["v".toList]

/-- `leak.md` is a link to a file outside the vault that is not there; `leak` leads outside, to a
directory that holds a link back. -/
def leakTree : DirTree Text :=
  DirTree.ofEntries
    [([], .dir), (vault, .dir), (["outside".toList], .dir), (vault ++ ["note.md".toList], .file),
      (vault ++ ["leak.md".toList], .link ⟨true, [.name "outside".toList, .name "new.md".toList]⟩),
      (vault ++ ["leak".toList], .link ⟨true, [.name "outside".toList]⟩),
      (["outside".toList, "back".toList], .link ⟨true, [.name "v".toList, .name "note.md".toList]⟩)]
    (by decide) (by decide)

theorem resolve_confined_note : resolve leakTree 40 vault false "a/b.md".toList false =
      .ok (vault ++ ["a".toList, "b.md".toList]) ∧
    (Confined leakTree 40 vault (vault ++ ["a".toList, "b.md".toList]) ↔
      ∀ up n, vault ++ ["a".toList, "b.md".toList] = up ++ [n] → Tame leakTree 40 vault up n) :=
  ⟨by decide +kernel, resolve_confined leakTree 40 vault (by decide) false "a/b.md".toList false _ (by decide +kernel)⟩

/-- A link to a missing file is accepted, and creating the file by it creates it outside. -/
theorem created_outside : leakTree.node vault = some .dir ∧
    resolve leakTree 40 vault false "leak.md".toList false = .ok (vault ++ ["leak.md".toList]) ∧
    ¬ Confined leakTree 40 vault (vault ++ ["leak.md".toList]) := by
  refine ⟨by decide, by decide +kernel, ?_⟩
  intro hconfined
  have hreach : leakTree.createReach 40 (vault ++ ["leak.md".toList]) = some ["outside".toList, "new.md".toList] := by
    decide +kernel
  exact absurd (hconfined.created _ hreach) (by decide)

end Savoire.VaultFs
