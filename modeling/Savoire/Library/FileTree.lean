import Mathlib.Data.List.Basic
import Mathlib.Data.List.Induction
import Mathlib.Logic.Function.Basic

/-! Directory trees with symbolic links, and what the POSIX calls do with a path: a path is walked
component by component from a directory, links are followed as long as there are some left. -/
set_option linter.unusedSectionVars false

namespace FileTree

inductive Component (ν : Type*)
  | current
  | parent
  | name (n : ν)
  deriving DecidableEq

/-- The target of a link: from the root or from the directory that holds the link. -/
structure Target (ν : Type*) where
  absolute : Bool
  components : List (Component ν)
  deriving DecidableEq

inductive Node (ν : Type*)
  | dir
  | file
  | link (target : Target ν)
  deriving DecidableEq

/-- What stands at each real path. -/
structure DirTree (ν : Type*) where
  node : List ν → Option (Node ν)
  root : node [] = some .dir
  closed : ∀ p n, node (p ++ [n]) ≠ none → node p = some .dir

/-- Where a walk ends; at the real path of a node with the links left, or at a path where nothing is,
with the components that remain. -/
inductive Walk (ν : Type*)
  | found (p : List ν) (links : Nat)
  | missing (p : List ν) (rest : List (Component ν))
  | notDir
  | loop

variable {ν : Type*}

section
variable (node : List ν → Option (Node ν))

def walkFrom (links : Nat) (follow : List ν → List (Component ν) → Walk ν) :
    List ν → List (Component ν) → Walk ν
  | cur, [] => .found cur links
  | cur, c :: rest => match node cur with
    | some .dir => match c with
      | .current => walkFrom links follow cur rest
      | .parent => walkFrom links follow cur.dropLast rest
      | .name n => match node (cur ++ [n]) with
        | none => .missing (cur ++ [n]) rest
        | some (.link target) => follow (if target.absolute then [] else cur) (target.components ++ rest)
        | some _ => walkFrom links follow (cur ++ [n]) rest
    | _ => .notDir

def walk : Nat → List ν → List (Component ν) → Walk ν
  | 0 => walkFrom node 0 fun _ _ => .loop
  | links + 1 => walkFrom node (links + 1) (walk links)

/-- A walk goes on from where it has come. -/
def Walk.andThen (rest : List (Component ν)) : Walk ν → Walk ν
  | .found p links => walk node links p rest
  | .missing p rest' => .missing p (rest' ++ rest)
  | .notDir => .notDir
  | .loop => .loop

variable {node}

theorem walkFrom_cons (links : Nat) (follow : List ν → List (Component ν) → Walk ν) (cur : List ν)
    (c : Component ν) (rest : List (Component ν)) :
    walkFrom node links follow cur (c :: rest) = match node cur with
      | some .dir => match c with
        | .current => walkFrom node links follow cur rest
        | .parent => walkFrom node links follow cur.dropLast rest
        | .name n => match node (cur ++ [n]) with
          | none => .missing (cur ++ [n]) rest
          | some (.link target) => follow (if target.absolute then [] else cur) (target.components ++ rest)
          | some _ => walkFrom node links follow (cur ++ [n]) rest
      | _ => .notDir := rfl

theorem walkFrom_append {links : Nat} {follow : List ν → List (Component ν) → Walk ν}
    (hwalk : ∀ cur xs, walkFrom node links follow cur xs = walk node links cur xs) (ys : List (Component ν))
    (hfollow : ∀ cur xs, follow cur (xs ++ ys) = (follow cur xs).andThen node ys) (cur : List ν)
    (xs : List (Component ν)) :
    walkFrom node links follow cur (xs ++ ys) = (walkFrom node links follow cur xs).andThen node ys := by
  induction xs generalizing cur with
  | nil => exact hwalk cur ys
  | cons c xs ih =>
    rw [List.cons_append, walkFrom_cons, walkFrom_cons]
    cases hcur : node cur with
    | none => rfl
    | some kind =>
      cases kind with
      | file | link => rfl
      | dir =>
        cases c with
        | current => exact ih cur
        | parent => exact ih cur.dropLast
        | name n =>
          dsimp only
          cases hn : node (cur ++ [n]) with
          | none => rfl
          | some kind =>
            cases kind with
            | dir | file => exact ih (cur ++ [n])
            | link target =>
              dsimp only
              rw [← List.append_assoc]
              exact hfollow _ _

theorem walk_append (links : Nat) (cur : List ν) (xs ys : List (Component ν)) :
    walk node links cur (xs ++ ys) = (walk node links cur xs).andThen node ys := by
  induction links generalizing cur xs with
  | zero => exact walkFrom_append (fun _ _ => rfl) ys (fun _ _ => rfl) cur xs
  | succ links ih => exact walkFrom_append (fun _ _ => rfl) ys ih cur xs

/-- Every node of the first tree is in the second one. -/
def Extends (node node' : List ν → Option (Node ν)) : Prop := ∀ p kind, node p = some kind → node' p = some kind

theorem walkFrom_mono {node' : List ν → Option (Node ν)} (hext : Extends node node') {links : Nat}
    {follow follow' : List ν → List (Component ν) → Walk ν}
    (hfollow : ∀ cur xs p l, follow cur xs = .found p l → follow' cur xs = .found p l) (cur : List ν)
    (xs : List (Component ν)) {p : List ν} {l : Nat} (h : walkFrom node links follow cur xs = .found p l) :
    walkFrom node' links follow' cur xs = .found p l := by
  induction xs generalizing cur with
  | nil => exact h
  | cons c xs ih =>
    rw [walkFrom_cons] at h ⊢
    cases hcur : node cur with
    | none => simp [hcur] at h
    | some kind =>
      cases kind with
      | file | link => simp [hcur] at h
      | dir =>
        rw [hcur] at h
        rw [hext cur .dir hcur]
        cases c with
        | current => exact ih cur h
        | parent => exact ih cur.dropLast h
        | name n =>
          dsimp only at h ⊢
          cases hn : node (cur ++ [n]) with
          | none => simp [hn] at h
          | some kind =>
            rw [hn] at h
            rw [hext _ kind hn]
            cases kind with
            | dir | file => exact ih (cur ++ [n]) h
            | link target => exact hfollow _ _ p l h

theorem walk_mono {node' : List ν → Option (Node ν)} (hext : Extends node node') {links : Nat} {cur : List ν}
    {xs : List (Component ν)} {p : List ν} {l : Nat} (h : walk node links cur xs = .found p l) :
    walk node' links cur xs = .found p l := by
  induction links generalizing cur xs p l with
  | zero =>
    refine walkFrom_mono hext (fun cur' xs' p' l' hloop => ?_) cur xs h
    simp at hloop
  | succ links ih => exact walkFrom_mono hext (fun _ _ _ _ => ih) cur xs h

@[simp] theorem walk_nil (links : Nat) (cur : List ν) : walk node links cur [] = .found cur links := by
  cases links <;> rfl

theorem walk_name (links : Nat) (cur : List ν) (n : ν) (hcur : node cur = some .dir) :
    walk node links cur [.name n] = match node (cur ++ [n]) with
      | none => .missing (cur ++ [n]) []
      | some (.link target) => match links with
        | 0 => .loop
        | links + 1 => walk node links (if target.absolute then [] else cur) target.components
      | some _ => .found (cur ++ [n]) links := by
  cases links with
  | zero =>
    rw [walk, walkFrom_cons, hcur]
    dsimp only
    cases hn : node (cur ++ [n]) with
    | none => rfl
    | some kind => cases kind <;> rfl
  | succ links =>
    rw [walk, walkFrom_cons, hcur]
    dsimp only
    cases hn : node (cur ++ [n]) with
    | none => rfl
    | some kind =>
      cases kind with
      | dir | file => rfl
      | link target =>
        dsimp only
        rw [List.append_nil]

theorem walk_not_dir (links : Nat) (cur : List ν) (c : Component ν) (rest : List (Component ν))
    (hcur : node cur ≠ some .dir) : walk node links cur (c :: rest) = .notDir := by
  have hstep : ∀ follow, walkFrom node links follow cur (c :: rest) = .notDir := by
    intro follow
    rw [walkFrom_cons]
    split
    · rename_i hdir
      exact absurd hdir hcur
    · rfl
  cases links <;> exact hstep _

end

namespace DirTree
variable (tree : DirTree ν) (links : Nat)

def lookup (path : List ν) : Walk ν := walk tree.node links [] (path.map .name)

/-- Where `canonicalize` ends; a path exists when it does. -/
def canonicalize (path : List ν) : Option (List ν) := match tree.lookup links path with
  | .found p _ => some p
  | _ => none

def isDir (path : List ν) : Prop := match tree.lookup links path with
  | .found p _ => tree.node p = some .dir
  | _ => False

variable [DecidableEq ν]

instance (path : List ν) : Decidable (tree.isDir links path) := by
  unfold isDir
  split <;> infer_instance

def ofEntries (entries : List (List ν × Node ν)) (root : entries.lookup [] = some .dir)
    (closed : ∀ entry ∈ entries, entry.1 ≠ [] → entries.lookup entry.1.dropLast = some .dir) : DirTree ν where
  node p := entries.lookup p
  root := root
  closed := by
    intro p n hnode
    obtain ⟨kind, hkind⟩ := Option.ne_none_iff_exists'.mp hnode
    obtain ⟨before, after, hentries, -⟩ := List.lookup_eq_some_iff.mp hkind
    have hentry : (p ++ [n], kind) ∈ entries := by simp [hentries]
    simpa using closed _ hentry (by simp)

def createReach (path : List ν) : Option (List ν) := match tree.lookup links path with
  | .found p _ => if tree.node p = some .file then some p else none
  | .missing p [] => some p
  | _ => none

/-- The file that a rename onto `up/n` puts in place: a link there is replaced. -/
def renameReach (up : List ν) (n : ν) : Option (List ν) := match tree.lookup links up with
  | .found p _ => if tree.node p = some .dir ∧ tree.node (p ++ [n]) ≠ some .dir then some (p ++ [n]) else none
  | _ => none

/-- The entry `up/n` is a link. -/
def isLink (up : List ν) (n : ν) : Prop := match tree.lookup links up with
  | .found p _ => ∃ target, tree.node (p ++ [n]) = some (.link target)
  | _ => False

def addDir (p : List ν) (n : ν) (hdir : tree.node p = some .dir) (hnone : tree.node (p ++ [n]) = none) : DirTree ν where
  node := Function.update tree.node (p ++ [n]) (some .dir)
  root := by
    rw [Function.update_of_ne (by simp)]
    exact tree.root
  closed := by
    intro q m hq
    by_cases hpath : q ++ [m] = p ++ [n]
    · obtain ⟨rfl, -⟩ := List.append_inj' hpath rfl
      rw [Function.update_of_ne (by simp)]
      exact hdir
    · rw [Function.update_of_ne hpath] at hq
      have hold := tree.closed q m hq
      rw [Function.update_of_ne, hold]
      intro heq
      rw [heq, hnone] at hold
      cases hold

inductive Mkdir (ν : Type*)
  | made (tree : DirTree ν)
  | notFound
  | failed

def mkdir (up : List ν) (n : ν) : Mkdir ν := match tree.lookup links up with
  | .found p _ =>
    if hdir : tree.node p = some .dir then
      if hnone : tree.node (p ++ [n]) = none then .made (tree.addDir p n hdir hnone) else .failed
    else .failed
  | .missing .. => .notFound
  | _ => .failed

/-- `create_dir_all`, on the components of the path from the last to the first. -/
def createDirAllRev (tree : DirTree ν) (links : Nat) : List ν → Option (DirTree ν)
  | [] => some tree
  | n :: up => match tree.mkdir links up.reverse n with
    | .made tree' => some tree'
    | .notFound => match createDirAllRev tree links up with
      | none => none
      | some tree' => match tree'.mkdir links up.reverse n with
        | .made tree'' => some tree''
        | _ => if tree'.isDir links (n :: up).reverse then some tree' else none
    | .failed => if tree.isDir links (n :: up).reverse then some tree else none

def createDirAll (path : List ν) : Option (DirTree ν) := tree.createDirAllRev links path.reverse

variable {tree links}
variable {up path p q : List ν} {n : ν} {l : Nat} {tree' : DirTree ν}

theorem lookup_append (xs ys : List ν) :
    tree.lookup links (xs ++ ys) = (tree.lookup links xs).andThen tree.node (ys.map .name) := by
  rw [lookup, lookup, List.map_append, walk_append]

theorem lookup_snoc (hup : tree.lookup links up = .found p l) :
    tree.lookup links (up ++ [n]) = walk tree.node l p [.name n] := by
  rw [lookup_append, hup]
  rfl

theorem found_prefix {xs ys : List ν} (h : tree.lookup links (xs ++ ys) = .found p l) :
    ∃ q l', tree.lookup links xs = .found q l' := by
  rw [lookup_append] at h
  cases hxs : tree.lookup links xs with
  | found q l' => exact ⟨q, l', rfl⟩
  | missing | notDir | loop => simp [hxs, Walk.andThen] at h

theorem lookup_mono (hext : Extends tree.node tree'.node) (h : tree.lookup links path = .found p l) :
    tree'.lookup links path = .found p l := walk_mono hext h

theorem addDir_extends (hdir : tree.node p = some .dir) (hnone : tree.node (p ++ [n]) = none) :
    Extends tree.node (tree.addDir p n hdir hnone).node := by
  intro q kind hq
  dsimp only [addDir]
  rw [Function.update_of_ne, hq]
  rintro rfl
  rw [hnone] at hq
  cases hq

theorem mkdir_eq_made (h : tree.mkdir links up n = .made tree') : ∃ p l, ∃ (hdir : tree.node p = some .dir)
    (hnone : tree.node (p ++ [n]) = none), tree.lookup links up = .found p l ∧ tree' = tree.addDir p n hdir hnone := by
  unfold mkdir at h
  split at h
  · rename_i p l hup
    split at h
    · rename_i hdir
      split at h
      · rename_i hnone
        exact ⟨p, l, hdir, hnone, hup, (Mkdir.made.inj h).symm⟩
      · cases h
    · cases h
  · cases h
  · cases h

theorem createDirAllRev_extends (path : List ν) (h : tree.createDirAllRev links path = some tree') :
    Extends tree.node tree'.node := by
  induction path generalizing tree' with
  | nil =>
    obtain rfl := Option.some.inj h
    exact fun _ _ => id
  | cons n up ih =>
    rw [createDirAllRev] at h
    split at h
    · rename_i made hmade
      obtain rfl := Option.some.inj h
      obtain ⟨p, l, hdir, hnone, -, rfl⟩ := mkdir_eq_made hmade
      exact addDir_extends hdir hnone
    · split at h
      · cases h
      · rename_i mid hmid
        split at h
        · rename_i made hmade
          obtain rfl := Option.some.inj h
          obtain ⟨p, l, hdir, hnone, -, rfl⟩ := mkdir_eq_made hmade
          exact fun q kind hq => addDir_extends hdir hnone q kind (ih hmid q kind hq)
        · obtain ⟨-, rfl⟩ := Option.ite_some_none_eq_some.1 h
          exact ih hmid
    · obtain ⟨-, rfl⟩ := Option.ite_some_none_eq_some.1 h
      exact fun _ _ => id

theorem createDirAll_extends (h : tree.createDirAll links path = some tree') : Extends tree.node tree'.node :=
  createDirAllRev_extends _ h

theorem createDirAll_snoc (up : List ν) (n : ν) : tree.createDirAll links (up ++ [n]) =
    match tree.mkdir links up n with
    | .made tree' => some tree'
    | .notFound => match tree.createDirAll links up with
      | none => none
      | some tree' => match tree'.mkdir links up n with
        | .made tree'' => some tree''
        | _ => if tree'.isDir links (up ++ [n]) then some tree' else none
    | .failed => if tree.isDir links (up ++ [n]) then some tree else none := by
  rw [createDirAll, List.reverse_append, List.reverse_singleton, List.singleton_append, createDirAllRev]
  simp only [createDirAll, List.reverse_reverse, List.reverse_cons]

theorem lookup_addDir (hup : tree.lookup links up = .found p l) (hdir : tree.node p = some .dir)
    (hnone : tree.node (p ++ [n]) = none) :
    (tree.addDir p n hdir hnone).lookup links (up ++ [n]) = .found (p ++ [n]) l := by
  have hext := addDir_extends hdir hnone
  rw [lookup_snoc (lookup_mono hext hup), walk_name _ _ _ (hext p .dir hdir)]
  simp [addDir]

theorem addDir_empty (hdir : tree.node p = some .dir) (hnone : tree.node (p ++ [n]) = none) (m : ν) :
    (tree.addDir p n hdir hnone).node (p ++ [n] ++ [m]) = none := by
  dsimp only [addDir]
  rw [Function.update_of_ne (by simp)]
  by_contra hsome
  have := tree.closed _ _ hsome
  rw [hnone] at this
  cases this

/-- Directories are made below the last directory that is there; the last one made is empty. -/
theorem createDirAll_new {pre : List ν} {c : ν} {real : List ν} (rest : List ν)
    (hpre : tree.lookup links pre = .found real l)
    (hstop : ∀ q l', tree.lookup links (pre ++ [c]) ≠ .found q l')
    (h : tree.createDirAll links (pre ++ c :: rest) = some tree') :
    ∃ q, tree'.lookup links (pre ++ c :: rest) = .found q l ∧ real <+: q ∧ tree'.node q = some .dir ∧
      ∀ m, tree'.node (q ++ [m]) = none := by
  have hnot : ∀ rest, ¬ tree.isDir links (pre ++ c :: rest) := by
    intro rest hdir
    have hpath : pre ++ c :: rest = (pre ++ [c]) ++ rest := by simp
    rw [isDir] at hdir
    split at hdir
    · rename_i q l' hfound
      rw [hpath] at hfound
      obtain ⟨q', l'', hprefix⟩ := found_prefix hfound
      exact hstop q' l'' hprefix
    · exact hdir
  induction rest using List.reverseRecOn generalizing tree' with
  | nil =>
    rw [createDirAll_snoc] at h
    cases hmkdir : tree.mkdir links pre c with
    | made made =>
      rw [hmkdir] at h
      obtain rfl := Option.some.inj h
      obtain ⟨p, l', hdir, hnone, hup, rfl⟩ := mkdir_eq_made hmkdir
      obtain ⟨rfl, rfl⟩ := Walk.found.inj (hpre.symm.trans hup)
      exact ⟨real ++ [c], lookup_addDir hpre hdir hnone, List.prefix_append _ _, by simp [addDir],
        addDir_empty hdir hnone⟩
    | notFound =>
      rw [mkdir, hpre] at hmkdir
      dsimp only at hmkdir
      split at hmkdir
      · split at hmkdir <;> cases hmkdir
      · cases hmkdir
    | failed =>
      rw [hmkdir] at h
      rw [if_neg (hnot [])] at h
      cases h
  | append_singleton rest m ih =>
    have hpath : pre ++ c :: (rest ++ [m]) = (pre ++ c :: rest) ++ [m] := by simp
    have hnotm := hnot (rest ++ [m])
    rw [hpath] at h hnotm ⊢
    rw [createDirAll_snoc] at h
    have hmissing : ∀ q l', tree.lookup links (pre ++ c :: rest) ≠ .found q l' := by
      intro q l' hfound
      have hsplit : pre ++ c :: rest = (pre ++ [c]) ++ rest := by simp
      rw [hsplit] at hfound
      obtain ⟨q', l'', hprefix⟩ := found_prefix hfound
      exact hstop q' l'' hprefix
    cases hmkdir : tree.mkdir links (pre ++ c :: rest) m with
    | made made =>
      obtain ⟨p, l', -, -, hup, -⟩ := mkdir_eq_made hmkdir
      exact absurd hup (hmissing p l')
    | failed =>
      rw [hmkdir] at h
      rw [if_neg hnotm] at h
      cases h
    | notFound =>
      rw [hmkdir] at h
      dsimp only at h
      split at h
      · cases h
      · rename_i mid hmid
        obtain ⟨q, hq, hreal, hdir, hempty⟩ := ih hmid
        have hmade : mid.mkdir links (pre ++ c :: rest) m = .made (mid.addDir q m hdir (hempty m)) := by
          rw [mkdir, hq]
          dsimp only
          rw [dif_pos hdir, dif_pos (hempty m)]
        rw [hmade] at h
        obtain rfl := Option.some.inj h
        exact ⟨q ++ [m], lookup_addDir hq hdir (hempty m), hreal.trans (List.prefix_append _ _), by simp [addDir],
          addDir_empty hdir (hempty m)⟩

theorem isLink_iff (hup : tree.lookup links up = .found q l) :
    tree.isLink links up n ↔ ∃ target, tree.node (q ++ [n]) = some (.link target) := by
  rw [isLink, hup]

theorem createReach_cases (hup : tree.lookup links up = .found q l) (h : tree.createReach links (up ++ [n]) = some p) :
    p = q ++ [n] ∨ tree.isLink links up n := by
  by_cases hq : tree.node q = some .dir
  · have hlast := lookup_snoc (n := n) hup
    rw [walk_name _ _ _ hq] at hlast
    cases hn : tree.node (q ++ [n]) with
    | none =>
      rw [hn] at hlast
      rw [createReach, hlast] at h
      exact .inl (Option.some.inj h).symm
    | some kind =>
      cases kind with
      | link target =>
        exact .inr ((isLink_iff hup).mpr ⟨target, hn⟩)
      | dir | file =>
        rw [hn] at hlast
        have hreach : tree.createReach links (up ++ [n]) =
            if tree.node (q ++ [n]) = some .file then some (q ++ [n]) else none := by rw [createReach, hlast]
        rw [hreach] at h
        obtain ⟨-, hp⟩ := Option.ite_none_right_eq_some.mp h
        exact .inl (Option.some.inj hp).symm
  · have hlast := lookup_snoc (n := n) hup
    rw [walk_not_dir _ _ _ _ hq] at hlast
    rw [createReach, hlast] at h
    cases h

theorem createReach_up (h : tree.createReach links (up ++ [n]) = some p) :
    ∃ q l, tree.lookup links up = .found q l := by
  cases hup : tree.lookup links up with
  | found q l => exact ⟨q, l, rfl⟩
  | missing q rest =>
    rw [createReach, lookup_append, hup] at h
    simp [Walk.andThen] at h
  | notDir | loop =>
    rw [createReach, lookup_append, hup] at h
    cases h

theorem createReach_found (hpath : tree.lookup links path = .found q l) (h : tree.createReach links path = some p) :
    p = q := by
  rw [createReach, hpath] at h
  obtain ⟨-, hp⟩ := Option.ite_none_right_eq_some.mp h
  exact (Option.some.inj hp).symm

theorem renameReach_eq_some : tree.renameReach links up n = some p ↔
    ∃ q l, tree.lookup links up = .found q l ∧ tree.node q = some .dir ∧ tree.node (q ++ [n]) ≠ some .dir ∧
      p = q ++ [n] := by
  unfold renameReach
  cases hup : tree.lookup links up with
  | found q l =>
    rw [Option.ite_none_right_eq_some]
    constructor
    · rintro ⟨⟨hdir, hentry⟩, hp⟩
      exact ⟨q, l, rfl, hdir, hentry, (Option.some.inj hp).symm⟩
    · rintro ⟨q', l', hfound, hdir, hentry, rfl⟩
      obtain ⟨rfl, rfl⟩ := Walk.found.inj hfound
      exact ⟨⟨hdir, hentry⟩, rfl⟩
  | missing | notDir | loop => simp

theorem found_snoc (h : tree.lookup links (up ++ [n]) = .found p l) :
    ∃ q l', tree.lookup links up = .found q l' ∧ tree.node q = some .dir ∧ (p = q ++ [n] ∨ tree.isLink links up n) := by
  obtain ⟨q, l', hup⟩ := found_prefix h
  rw [lookup_snoc hup] at h
  have hq : tree.node q = some .dir := by
    by_contra hq
    rw [walk_not_dir _ _ _ _ hq] at h
    cases h
  refine ⟨q, l', hup, hq, ?_⟩
  rw [walk_name _ _ _ hq] at h
  cases hn : tree.node (q ++ [n]) with
  | none => simp [hn] at h
  | some kind =>
    rw [hn] at h
    cases kind with
    | dir | file => exact .inl (Walk.found.inj h).1.symm
    | link target => exact .inr ((isLink_iff hup).mpr ⟨target, hn⟩)

end DirTree
end FileTree
