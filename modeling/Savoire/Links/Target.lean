import Savoire.Links.Resolver

/-! The text that a new link to a file is given, and whether it leads back to the file. -/
namespace Savoire.Links
open VaultIndex (nameOf notMem_nameOf)
open StableSort (Before)

section Definitions
variable (host : Host)

def shown (path : Text) : Text := if isNote host path then withoutExt path else path

/-- The name by which a link finds the file. -/
def ownKey (path : Text) : Text :=
  if isNote host path then (keysOf host path).stem else (keysOf host path).name

def sameName (path : Text) (paths : List Text) : List Text :=
  paths.filter fun p => p ≠ path ∧
    ((keysOf host p).name = ownKey host path ∨ (keysOf host p).stem = ownKey host path)

def linkTargetFor (path : Text) (paths : List Text) : Text :=
  -- a file that is not in the list: a name would not lead to it
  if path ∉ paths then shown host path
  else if sameName host path paths = [] then nameOf (shown host path)
  else shown host path

def targetKey (path : Text) (paths : List Text) : Text :=
  if sameName host path paths = [] then ownKey host path else (keysOf host path).bare

def Plain (w key : Text) : Prop := cleanTarget w = w ∧ w ≠ [] ∧ host.lower.apply w = key

instance (w key : Text) : Decidable (Plain host w key) := inferInstanceAs (Decidable (_ ∧ _))

/-- No file stands at the text itself, and no note whose path in lower case is that of the note,
with or without its `.md`, comes before it. -/
def AloneOnPath (path : Text) (paths : List Text) : Prop :=
  shown host path ∉ paths ∧ ∀ q ∈ paths, isNote host q = true →
    ((keysOf host q).full = (keysOf host path).bare ∨ (keysOf host q).full = (keysOf host path).full) →
    ¬ Before (compareFiles host) paths q path

instance (path : Text) (paths : List Text) : Decidable (AloneOnPath host path paths) :=
  inferInstanceAs (Decidable (_ ∧ _))

def LeadsBack (path : Text) (paths : List Text) : Prop :=
  let w := linkTargetFor host path paths
  if Plain host w (targetKey host path paths) then
    sameName host path paths = [] ∨ isNote host path = false ∨ AloneOnPath host path paths
  else
    -- blanks at an end, a backslash, a leading separator, no text, or a final capital sigma
    cleanTarget w ≠ [] ∧ (cleanTarget w = path ∨
      cleanTarget w ∉ paths ∧ First host paths (host.lower.apply (cleanTarget w)) path)

instance (path : Text) (paths : List Text) : Decidable (LeadsBack host path paths) := by
  unfold LeadsBack
  infer_instance

end Definitions

variable {host : Host} {paths : List Text} {p q k w : Text}

theorem nameOf_of_notMem (h : '/' ∉ k) : nameOf k = k := by
  rw [nameOf, VaultIndex.afterLast, List.rtakeWhile_eq_self_iff]
  intro c hc
  have hne : c ≠ '/' := fun he => h (he ▸ hc)
  simpa using hne

theorem notMem_ownKey (host : Host) (p : Text) : '/' ∉ ownKey host p := by
  unfold ownKey keysOf
  split_ifs <;> exact notMem_nameOf _

theorem full_of_note (h : isNote host p = true) :
    (keysOf host p).full = (keysOf host p).bare ++ noteExt := by
  have hend : endsWith (host.lower.apply p) noteExt = true := h
  obtain ⟨u, hu⟩ := List.isSuffixOf_iff_suffix.1 hend
  simp only [keysOf, hend, ↓reduceIte, withoutExt]
  rw [← hu]
  simp

theorem fitsName_iff : fitsName host k p = true ↔ (keysOf host p).name = k ∨ (keysOf host p).stem = k := by
  simp [fitsName]

theorem fitsPath_iff : fitsPath host k p = true ↔ (keysOf host p).full = k ∨ (keysOf host p).bare = k := by
  simp [fitsPath]

theorem fitsName_of_path (h : fitsPath host k p = true) : fitsName host (nameOf k) p = true := by
  rw [fitsName_iff]
  obtain h | h := fitsPath_iff.1 h
  · exact .inl (congrArg nameOf h)
  · exact .inr (congrArg nameOf h)

theorem fitsName_of_fits (hk : '/' ∉ k) (h : fits host paths k p = true) : fitsName host k p = true := by
  by_cases hany : paths.any (fitsPath host k) = true
  · rw [fits_of_path hany] at h
    simpa [nameOf_of_notMem hk] using fitsName_of_path h
  · rwa [fits_of_name (by simpa using hany) hk] at h

theorem fitsName_ownKey (p : Text) : fitsName host (ownKey host p) p = true := by
  rw [fitsName_iff, ownKey]
  split_ifs <;> simp

theorem sameName_eq_nil : sameName host p paths = [] ↔
    ∀ q ∈ paths, fitsName host (ownKey host p) q = true → q = p := by
  simp only [sameName, List.filter_eq_nil_iff, decide_eq_true_eq, fitsName_iff]
  refine forall₂_congr fun q _ => ?_
  tauto

theorem not_before_self (hn : paths.Nodup) (p : Text) : ¬ Before (compareFiles host) paths p p := by
  rintro (hlt | ⟨-, hsub⟩)
  · simp [Std.ReflCmp.compare_self] at hlt
  · exact StableSort.not_pair_self hn hsub

theorem not_before_note (hp : isNote host p = true) (hq : isNote host q = false) :
    ¬ Before (compareFiles host) paths q p := by
  have hgt : compareFiles host q p = .gt := by
    simp [compareFiles, compareLex, compareOn, hp, hq]
    rfl
  simp [Before, hgt]

theorem shown_ne (hp : isNote host p = true) : shown host p ≠ p := by
  have hnil : p ≠ [] := by
    rintro rfl
    simp [isNote, host.lower.nil, endsWith, noteExt] at hp
  intro h
  have hlen := congrArg List.length h
  have hpos := List.length_pos_iff.2 hnil
  simp only [shown, hp, ↓reduceIte, withoutExt, List.length_take, noteExt] at hlen
  simp at hlen
  omega

section Plain
variable (hn : paths.Nodup) (hp : p ∈ paths)
include hn hp

theorem resolve_ownKey (hsame : sameName host p paths = []) (hw : Plain host w (ownKey host p)) :
    resolveLinkPath host w paths = some p := by
  obtain ⟨hclean, hnil, hlower⟩ := hw
  have hone := sameName_eq_nil.1 hsame
  have hsep := notMem_ownKey host p
  rw [resolveLinkPath_iff hn, hclean, hlower]
  refine ⟨hnil, ?_⟩
  split_ifs with hmem
  · have hname : (keysOf host w).name = ownKey host p := by
      change nameOf (host.lower.apply w) = _
      rw [hlower, nameOf_of_notMem hsep]
    exact hone w hmem (fitsName_iff.2 (.inl hname))
  · have hfound : ∀ q ∈ paths, fits host paths (ownKey host p) q = true → q = p :=
      fun q hq hfit => hone q hq (fitsName_of_fits hsep hfit)
    have hown : fits host paths (ownKey host p) p = true := by
      by_cases hany : paths.any (fitsPath host (ownKey host p)) = true
      · obtain ⟨q, hq, hfit⟩ := List.any_eq_true.1 hany
        rw [fits_of_path hany]
        have hfits := (congrFun (fits_of_path hany) q).trans hfit
        rwa [hfound q hq hfits] at hfit
      · rw [fits_of_name (by simpa using hany) hsep]
        exact fitsName_ownKey p
    refine ⟨hp, hown, fun q hq hfit => ?_⟩
    rw [hfound q hq hfit]
    exact not_before_self hn p

theorem resolve_shown_iff (hnote : isNote host p = true)
    (hw : Plain host (shown host p) (keysOf host p).bare) :
    resolveLinkPath host (shown host p) paths = some p ↔ AloneOnPath host p paths := by
  obtain ⟨hclean, hnil, hlower⟩ := hw
  have hfit : fitsPath host (keysOf host p).bare p = true := fitsPath_iff.2 (.inr rfl)
  have hany : paths.any (fitsPath host (keysOf host p).bare) = true := List.any_eq_true.2 ⟨p, hp, hfit⟩
  rw [resolveLinkPath_iff hn, hclean, hlower, AloneOnPath]
  by_cases hmem : shown host p ∈ paths
  · simp [hmem, shown_ne hnote]
  · simp only [hnil, hmem, ne_eq, not_false_eq_true, true_and, ↓reduceIte, First, hp,
      fits_of_path hany, hfit]
    refine forall₂_congr fun q _ => ?_
    cases hq : isNote host q with
    | false => simp [not_before_note hnote hq]
    | true =>
      have hbare : (keysOf host q).bare = (keysOf host p).bare ↔
          (keysOf host q).full = (keysOf host p).full := by
        rw [full_of_note hq, full_of_note hnote, List.append_cancel_right_eq]
      rw [fitsPath_iff, hbare]
      simp

end Plain

/-- The text of a link to a file of the list leads back to it exactly when `LeadsBack` says so. -/
theorem resolve_linkTargetFor_iff (host : Host) (paths : List Text) (p : Text) (hn : paths.Nodup)
    (hp : p ∈ paths) :
    resolveLinkPath host (linkTargetFor host p paths) paths = some p ↔ LeadsBack host p paths := by
  rw [LeadsBack]
  split_ifs with hplain
  · by_cases hsame : sameName host p paths = []
    · simp only [targetKey, hsame, ↓reduceIte] at hplain
      simp [resolve_ownKey hn hp hsame hplain, hsame]
    · have htarget : linkTargetFor host p paths = shown host p := by simp [linkTargetFor, hp, hsame]
      simp only [targetKey, hsame, ↓reduceIte, htarget] at hplain
      cases hnote : isNote host p with
      | true => simp [htarget, hsame, resolve_shown_iff hn hp hnote hplain]
      | false =>
        have hshown : shown host p = p := by simp [shown, hnote]
        rw [hshown] at hplain htarget
        have hfound : resolveLinkPath host p paths = some p := by
          rw [resolveLinkPath_iff hn, hplain.1]
          simp [hplain.2.1, hp]
        simp [htarget, hfound]
  · rw [resolveLinkPath_iff hn]
    split_ifs with hmem
    · simp [hmem]
    · have hne : cleanTarget (linkTargetFor host p paths) ≠ p := fun he => hmem (by rwa [he])
      simp [hmem, hne]

/-- Letters of ASCII, in the order of their numbers. -/
def asciiHost : Host where
  lower := ⟨List.map Char.toLower, List.map_nil⟩
  localeCompare := List.compareLex (compareOn Char.toNat)
  consistent := inferInstance

def twoPlans : List Text := ["Notes/Plan.md".toList, "Archive/Plan.md".toList, "Plan.png".toList]

theorem resolve_linkTargetFor_twoPlans :
    resolveLinkPath asciiHost (linkTargetFor asciiHost "Notes/Plan.md".toList twoPlans) twoPlans =
      some "Notes/Plan.md".toList :=
  (resolve_linkTargetFor_iff asciiHost twoPlans "Notes/Plan.md".toList (by decide +kernel)
    (by decide +kernel)).2 (by decide +kernel)

/-- The text `Notes/Plan` of the link to the note is the path of another file. -/
theorem linkTargetFor_astray : ∃ (host : Host) (paths : List Text) (p : Text),
    paths.Nodup ∧ p ∈ paths ∧ resolveLinkPath host (linkTargetFor host p paths) paths ≠ some p :=
  ⟨asciiHost, ["Notes/Plan".toList, "Notes/Plan.md".toList], "Notes/Plan.md".toList, by decide +kernel,
    by decide +kernel, by decide +kernel⟩

end Savoire.Links
