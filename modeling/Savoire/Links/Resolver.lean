import Savoire.Index.Paths
import Savoire.Library.StableSort
import Savoire.Library.Utf

/-! The link resolver that the plugins share: editor, integrations, backlinks, graph. -/
namespace Savoire.Links
open VaultIndex (Lower nameOf jsTrim beforeLast afterLast)
open StableSort (Before)

/-- What the host gives: `toLowerCase`, and `localeCompare`, which is a consistent comparator. -/
structure Host where
  lower : Lower
  localeCompare : Text → Text → Ordering
  consistent : Std.TransCmp localeCompare

instance (host : Host) : Std.TransCmp host.localeCompare := host.consistent

def noteExt : Text := ".md".toList

def endsWith (s tail : Text) : Bool := tail.isSuffixOf s

/-- `s.slice(0, -NOTE_EXT.length)`. -/
def withoutExt (s : Text) : Text := s.take (s.length - noteExt.length)

/-- `s.length`, in UTF-16 units. -/
def utf16Length (s : Text) : Nat := (s.flatMap Utf.utf16).length

/-- The test of `fileExtensionOf`: letters, and digits after the first, at most ten. -/
def isExtension : Text → Bool
  | [] => false
  | c :: rest => c.isAlpha && rest.length ≤ 9 && rest.all Char.isAlphanum

def fileExtensionOf (path : Text) : Text :=
  match beforeLast '.' (nameOf path) with
  | none | some [] => []
  | some _ =>
    let ext := afterLast '.' (nameOf path)
    if isExtension ext then ext.map Char.toLower else []

def withNoteExtension (path : Text) : Text :=
  if fileExtensionOf path ≠ [] then path else path ++ noteExt

structure Keys where
  full : Text
  bare : Text
  name : Text
  stem : Text

section Definitions
variable (host : Host)

def isNote (path : Text) : Bool := endsWith (host.lower.apply path) noteExt

def keysOf (path : Text) : Keys :=
  let full := host.lower.apply path
  let bare := if endsWith full noteExt then withoutExt full else full
  ⟨full, bare, nameOf full, nameOf bare⟩

/-- The comparator of `best`. -/
def compareFiles : Text → Text → Ordering :=
  compareLex (compareOn fun p => if isNote host p then 0 else 1)
    (compareLex (compareOn utf16Length) host.localeCompare)

def best (candidates : List Text) : Option Text :=
  (StableSort.sort (compareFiles host) candidates).head?

/-- `replace(/^(\.\/)+/, '')`. -/
def stripDotSlash : Text → Text
  | '.' :: '/' :: rest => stripDotSlash rest
  | s => s

def cleanTarget (target : Text) : Text :=
  (stripDotSlash ((jsTrim target).map fun c => if c = '\\' then '/' else c)).dropWhile (· = '/')

/-- A `Map` to lists of paths; a key that was never pushed has the empty list. -/
abbrev FileMap := Text → List Text

def push (m : FileMap) (key p : Text) : FileMap :=
  if p ∈ m key then m else Function.update m key (m key ++ [p])

structure LinkResolver where
  exactSet : List Text
  byPath : FileMap
  byName : FileMap

def createLinkResolver (paths : List Text) : LinkResolver where
  exactSet := paths
  byPath := paths.foldl
    (fun m p => push (push m (keysOf host p).full p) (keysOf host p).bare p) fun _ => []
  byName := paths.foldl
    (fun m p => push (push m (keysOf host p).name p) (keysOf host p).stem p) fun _ => []

def LinkResolver.resolve (r : LinkResolver) (target : Text) : Option Text :=
  let t := cleanTarget target
  if t = [] then none
  else if t ∈ r.exactSet then some t
  else
    let k := host.lower.apply t
    match r.byPath k with
    | p :: rest => best host (p :: rest)
    | [] =>
      if '/' ∉ k then best host (r.byName k)
      -- the end of a path, among the files of this name
      else best host ((r.byName (nameOf k)).filter fun p =>
        endsWith (keysOf host p).full ('/' :: k) || endsWith (keysOf host p).bare ('/' :: k))

def resolveLinkPath (target : Text) (paths : List Text) : Option Text :=
  (createLinkResolver host paths).resolve host target

def fitsPath (k p : Text) : Bool := (keysOf host p).full = k ∨ (keysOf host p).bare = k

def fitsName (k p : Text) : Bool := (keysOf host p).name = k ∨ (keysOf host p).stem = k

def fitsEnd (k p : Text) : Bool :=
  fitsName host (nameOf k) p &&
    (endsWith (keysOf host p).full ('/' :: k) || endsWith (keysOf host p).bare ('/' :: k))

def fits (paths : List Text) (k p : Text) : Bool :=
  if paths.any (fitsPath host k) then fitsPath host k p
  else if '/' ∉ k then fitsName host k p
  else fitsEnd host k p

/-- A file that the text finds, and that no other file it finds comes before. -/
def First (paths : List Text) (k p : Text) : Prop :=
  p ∈ paths ∧ fits host paths k p = true ∧
    ∀ q ∈ paths, fits host paths k q = true → ¬ Before (compareFiles host) paths q p

instance (paths : List Text) (k p : Text) : Decidable (First host paths k p) :=
  inferInstanceAs (Decidable (_ ∧ _))

end Definitions

variable {host : Host} {paths : List Text} {p q k t : Text}

instance : Std.TransCmp (compareFiles host) := by unfold compareFiles; infer_instance

theorem best_filter_iff (hn : paths.Nodup) (f : Text → Bool) :
    best host (paths.filter f) = some p ↔
      p ∈ paths ∧ f p = true ∧ ∀ q ∈ paths, f q = true → ¬ Before (compareFiles host) paths q p :=
  StableSort.head_sort_filter_iff hn

theorem push_push (m : FileMap) (a b p k : Text) (hnew : ∀ k, p ∉ m k) :
    push (push m a p) b p k = if a = k ∨ b = k then m k ++ [p] else m k := by
  have hone : push m a p = Function.update m a (m a ++ [p]) := by simp [push, hnew]
  rw [hone]
  by_cases hab : b = a
  · simp only [push, hab, Function.update_self, List.mem_append, List.mem_singleton, or_true,
      ↓reduceIte, or_self, Function.update_apply]
    by_cases hk : a = k
    · simp [hk]
    · simp [hk, Ne.symm hk]
  · simp only [push, Function.update_of_ne hab, hnew, ↓reduceIte, Function.update_apply]
    by_cases hb : b = k
    · simp [hb]
    · by_cases ha : a = k
      · simp [ha, Ne.symm hb]
      · simp [ha, hb, Ne.symm ha, Ne.symm hb]

theorem foldl_push (f g : Text → Text) (m : FileMap) (hn : paths.Nodup)
    (hnew : ∀ p ∈ paths, ∀ k, p ∉ m k) (k : Text) :
    paths.foldl (fun m p => push (push m (f p) p) (g p) p) m k =
      m k ++ paths.filter fun p => f p = k ∨ g p = k := by
  induction paths generalizing m with
  | nil => simp
  | cons p paths ih =>
    obtain ⟨hp, hn⟩ := List.nodup_cons.1 hn
    have hstep : ∀ k, push (push m (f p) p) (g p) p k =
        if f p = k ∨ g p = k then m k ++ [p] else m k :=
      fun k => push_push m (f p) (g p) p k (hnew p List.mem_cons_self)
    rw [List.foldl_cons, ih _ hn, hstep]
    · by_cases h : f p = k ∨ g p = k
      · simp [h]
      · simp [h]
    · intro q hq k
      have hqp : q ≠ p := fun hqp => hp (hqp ▸ hq)
      have hqm := hnew q (List.mem_cons_of_mem p hq) k
      rw [hstep]
      split_ifs
      · simp [hqm, hqp]
      · exact hqm

theorem byPath_eq (host : Host) (hn : paths.Nodup) (k : Text) :
    (createLinkResolver host paths).byPath k = paths.filter (fitsPath host k) := by
  have h := foldl_push (fun p => (keysOf host p).full) (fun p => (keysOf host p).bare) (fun _ => []) hn
    (by simp) k
  exact h

theorem byName_eq (hn : paths.Nodup) (k : Text) :
    (createLinkResolver host paths).byName k = paths.filter (fitsName host k) := by
  have h := foldl_push (fun p => (keysOf host p).name) (fun p => (keysOf host p).stem) (fun _ => []) hn
    (by simp) k
  exact h

theorem fits_of_path (h : paths.any (fitsPath host k) = true) :
    fits host paths k = fitsPath host k := by
  funext p
  simp [fits, h]

theorem fits_of_name (h : paths.any (fitsPath host k) = false) (hk : '/' ∉ k) :
    fits host paths k = fitsName host k := by
  funext p
  simp [fits, h, hk]

theorem fits_of_end (h : paths.any (fitsPath host k) = false) (hk : '/' ∈ k) :
    fits host paths k = fitsEnd host k := by
  funext p
  simp [fits, h, hk]

theorem filter_fitsPath_eq_nil :
    paths.filter (fitsPath host k) = [] ↔ paths.any (fitsPath host k) = false := by
  rw [List.filter_eq_nil_iff, List.any_eq_false]

theorem resolveLinkPath_eq (hn : paths.Nodup) (target : Text) :
    resolveLinkPath host target paths =
      if cleanTarget target = [] then none
      else if cleanTarget target ∈ paths then some (cleanTarget target)
      else best host (paths.filter (fits host paths (host.lower.apply (cleanTarget target)))) := by
  have hset : (createLinkResolver host paths).exactSet = paths := rfl
  simp only [resolveLinkPath, LinkResolver.resolve, hset]
  generalize host.lower.apply (cleanTarget target) = k
  have hpath := byPath_eq host hn k
  cases hb : (createLinkResolver host paths).byPath k with
  | cons p rest =>
    have hany : paths.any (fitsPath host k) = true := by
      by_contra h
      rw [filter_fitsPath_eq_nil.2 (by simpa using h), hb] at hpath
      simp at hpath
    rw [fits_of_path hany, ← hpath, hb]
  | nil =>
    have hany : paths.any (fitsPath host k) = false := filter_fitsPath_eq_nil.1 (hpath ▸ hb)
    by_cases hk : '/' ∈ k
    · rw [fits_of_end hany hk, byName_eq hn (nameOf k), List.filter_filter]
      have hend : fitsEnd host k = fun p => (endsWith (keysOf host p).full ('/' :: k) ||
          endsWith (keysOf host p).bare ('/' :: k)) && fitsName host (nameOf k) p :=
        funext fun p => Bool.and_comm _ _
      simp only [hk, not_true_eq_false, ↓reduceIte, hend]
    · rw [fits_of_name hany hk, byName_eq hn]
      simp only [hk, not_false_eq_true, ↓reduceIte]

theorem resolveLinkPath_iff (hn : paths.Nodup) (target : Text) :
    resolveLinkPath host target paths = some p ↔
      cleanTarget target ≠ [] ∧
        if cleanTarget target ∈ paths then cleanTarget target = p
        else First host paths (host.lower.apply (cleanTarget target)) p := by
  rw [resolveLinkPath_eq hn]
  by_cases hnil : cleanTarget target = []
  · simp [hnil]
  · simp only [hnil, ↓reduceIte, ne_eq, not_false_eq_true, true_and]
    split_ifs
    · exact Option.some_inj
    · exact best_filter_iff hn _

end Savoire.Links
