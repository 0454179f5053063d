import Savoire.Library.FileTree
import Savoire.Text

/-! `paths.rs`: the paths that the page gives, relative to the root of a vault, and the check that
they stay in it. -/
namespace Savoire.VaultPaths
open FileTree

def savoireDir : Text := ".savoire".toList

/-- `TMP_DIR`, as `join` cuts it. -/
def tmpDir : List Text := [savoireDir, "tmp".toList]

def invalidPath (rel : Text) : Text := "chemin invalide : ".toList ++ rel

def outsideVault (rel : Text) : Text := "chemin hors du vault : ".toList ++ rel

/-- A drive letter would make the path absolute on Windows. -/
def refusedPart (windows : Bool) (part : Text) : Bool :=
  part == [] || part == ['.'] || part == ['.', '.'] || (windows && part.contains ':')

def splitRelative (windows : Bool) (rel : Text) (allowRoot : Bool) : Except Text (List Text) :=
  if rel = [] then
    if allowRoot then .ok [] else .error "chemin vide".toList
  else if '\\' ∈ rel ∨ Char.ofNat 0 ∈ rel then .error (invalidPath rel)
  else
    let parts := rel.splitOn '/'
    if parts.any (refusedPart windows) then .error (invalidPath rel) else .ok parts

section
variable (tree : DirTree Text) (links : Nat) (root : List Text)

/-- The loop over the ancestors, on the components from the last to the first. `exists` and
`canonicalize` are one walk, so the error of a `canonicalize` after `exists` does not occur. -/
def probe (rel : Text) : List Text → Except Text Unit
  | [] => match tree.canonicalize links [] with
    | some real => if root <+: real then .ok () else .error (outsideVault rel)
    | none => .error (outsideVault rel)
  | part :: parent => match tree.canonicalize links (part :: parent).reverse with
    | some real => if root <+: real then .ok () else .error (outsideVault rel)
    | none => probe rel parent

def resolve (windows : Bool) (rel : Text) (allowRoot : Bool) : Except Text (List Text) := do
  let parts ← splitRelative windows rel allowRoot
  let full := root ++ parts
  probe tree links root rel full.reverse
  return full

end

variable {tree : DirTree Text} {links : Nat} {root : List Text} {windows allowRoot : Bool} {rel : Text}

theorem canonicalize_eq_some {path real : List Text} :
    tree.canonicalize links path = some real ↔ ∃ l, tree.lookup links path = .found real l := by
  unfold DirTree.canonicalize
  cases hpath : tree.lookup links path with
  | found p l => simp
  | missing | notDir | loop => simp

theorem canonicalize_eq_none {path : List Text} :
    tree.canonicalize links path = none ↔ ∀ p l, tree.lookup links path ≠ .found p l := by
  rw [Option.eq_none_iff_forall_ne_some]
  constructor
  · intro h p l hpath
    exact h p (canonicalize_eq_some.mpr ⟨l, hpath⟩)
  · intro h p hpath
    obtain ⟨l, hfound⟩ := canonicalize_eq_some.mp hpath
    exact h p l hfound

/-- The ancestor `pre` of `full` is there, in the vault, and the next one is not. -/
def Checked (tree : DirTree Text) (links : Nat) (root full : List Text) : Prop := ∃ pre suf real l,
  full = pre ++ suf ∧ tree.lookup links pre = .found real l ∧ root <+: real ∧
    (suf = [] ∨ ∃ c rest, suf = c :: rest ∧ ∀ p l', tree.lookup links (pre ++ [c]) ≠ .found p l')

theorem probe_ok (path : List Text) (h : probe tree links root rel path = .ok ()) :
    Checked tree links root path.reverse := by
  induction path with
  | nil =>
    rw [probe] at h
    split at h
    · rename_i real hreal
      split at h
      · rename_i hprefix
        obtain ⟨l, hfound⟩ := canonicalize_eq_some.mp hreal
        exact ⟨[], [], real, l, rfl, hfound, hprefix, .inl rfl⟩
      · cases h
    · cases h
  | cons part parent ih =>
    rw [probe] at h
    split at h
    · rename_i real hreal
      split at h
      · rename_i hprefix
        obtain ⟨l, hfound⟩ := canonicalize_eq_some.mp hreal
        exact ⟨(part :: parent).reverse, [], real, l, by simp, hfound, hprefix, .inl rfl⟩
      · cases h
    · rename_i hnone
      obtain ⟨pre, suf, real, l, hparent, hfound, hprefix, hsuf⟩ := ih h
      have hfull : (part :: parent).reverse = pre ++ (suf ++ [part]) := by
        rw [List.reverse_cons, hparent, List.append_assoc]
      refine ⟨pre, suf ++ [part], real, l, hfull, hfound, hprefix, .inr ?_⟩
      obtain rfl | ⟨c, rest, rfl, hmissing⟩ := hsuf
      · refine ⟨part, [], rfl, ?_⟩
        rw [List.nil_append] at hfull
        rw [← hfull]
        exact canonicalize_eq_none.mp hnone
      · exact ⟨c, rest ++ [part], rfl, hmissing⟩

theorem splitRelative_ok {parts : List Text} (h : splitRelative windows rel allowRoot = .ok parts) :
    ['/'].intercalate parts = rel ∧ ∀ part ∈ parts, refusedPart windows part = false := by
  unfold splitRelative at h
  split at h
  · rename_i hempty
    split at h
    · obtain rfl := Except.ok.inj h
      exact ⟨hempty.symm, by simp⟩
    · cases h
  · split at h
    · cases h
    · dsimp only at h
      split at h
      · cases h
      · rename_i hparts
        obtain rfl := Except.ok.inj h
        simpa using hparts

theorem resolve_ok {full : List Text} (h : resolve tree links root windows rel allowRoot = .ok full) :
    (∃ parts, full = root ++ parts ∧ ['/'].intercalate parts = rel ∧
      ∀ part ∈ parts, refusedPart windows part = false) ∧ Checked tree links root full := by
  dsimp only [resolve, bind, Except.bind] at h
  cases hparts : splitRelative windows rel allowRoot with
  | error e => simp [hparts] at h
  | ok parts =>
    rw [hparts] at h
    dsimp only at h
    cases hprobe : probe tree links root rel (root ++ parts).reverse with
    | error e => simp only [hprobe, reduceCtorEq] at h
    | ok u =>
      rw [hprobe] at h
      have hfull : full = root ++ parts := (Except.ok.inj h).symm
      have hchecked := probe_ok _ hprobe
      rw [List.reverse_reverse] at hchecked
      exact ⟨⟨parts, hfull, splitRelative_ok hparts⟩, hfull ▸ hchecked⟩

end Savoire.VaultPaths
