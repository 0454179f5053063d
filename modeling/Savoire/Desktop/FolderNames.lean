import Mathlib.Data.Fin.Basic
import Mathlib.Data.List.Basic

/-! The names under which a vault folder keeps documents and maps: every other unit than a letter, a digit, `_` and
`-` is escaped. -/
namespace Savoire.FolderNames

abbrev CodeUnit := Fin 65536

/-- `[A-Za-z0-9_-]` -/
def isPlain (c : CodeUnit) : Bool :=
  65 ≤ c.val && c.val ≤ 90 || 97 ≤ c.val && c.val ≤ 122 || 48 ≤ c.val && c.val ≤ 57 || c.val == 95 || c.val == 45

def tilde : CodeUnit := 126

/-- A digit of `toString(16)`. -/
def hexDigit (d : Fin 16) : CodeUnit := ⟨if d.val < 10 then 48 + d.val else 87 + d.val, by split <;> omega⟩

/-- `[0-9a-f]`, as its value -/
def hexValue (c : CodeUnit) : Option (Fin 16) :=
  if h : 48 ≤ c.val ∧ c.val ≤ 57 then some ⟨c.val - 48, by omega⟩
  else if h : 97 ≤ c.val ∧ c.val ≤ 102 then some ⟨c.val - 87, by omega⟩
  else none

/-- `c.charCodeAt(0).toString(16).padStart(4, '0')`: a unit has four digits at most. -/
def hex (c : CodeUnit) : List CodeUnit :=
  [⟨c.val / 4096, by omega⟩, ⟨c.val / 256 % 16, by omega⟩, ⟨c.val / 16 % 16, by omega⟩, ⟨c.val % 16, by omega⟩].map
    hexDigit

/-- `parseInt(hex, 16)` of four digits. -/
def parseHex (a b c d : Fin 16) : CodeUnit := ⟨a.val * 4096 + b.val * 256 + c.val * 16 + d.val, by omega⟩

def safeName (name : List CodeUnit) : List CodeUnit := name.flatMap fun c => if isPlain c then [c] else tilde :: hex c

/-- The unit that four digits name. -/
def readHex (a b c d : CodeUnit) : Option CodeUnit := do
  let a ← hexValue a
  let b ← hexValue b
  let c ← hexValue c
  let d ← hexValue d
  some (parseHex a b c d)

/-- `name.replace(/~([0-9a-f]{4})/g, …)` -/
def unsafeName : List CodeUnit → List CodeUnit
  | t :: a :: b :: c :: d :: rest =>
    match if t = tilde then readHex a b c d else none with
    | some u => u :: unsafeName rest
    | none => t :: unsafeName (a :: b :: c :: d :: rest)
  | t :: rest => t :: unsafeName rest
  | [] => []

variable {c u : CodeUnit} {rest : List CodeUnit}

@[simp] theorem hexValue_hexDigit (d : Fin 16) : hexValue (hexDigit d) = some d := by
  revert d
  decide

theorem isPlain_hexDigit (d : Fin 16) : isPlain (hexDigit d) = true := by
  revert d
  decide

theorem unsafeName_cons (h : u ≠ tilde) : unsafeName (u :: rest) = u :: unsafeName rest := by
  match rest with
  | [] => rfl
  | [_] => rfl
  | [_, _] => rfl
  | [_, _, _] => rfl
  | _ :: _ :: _ :: _ :: _ => rw [unsafeName, if_neg h]

theorem unsafeName_escaped (c : CodeUnit) (rest : List CodeUnit) :
    unsafeName (tilde :: hex c ++ rest) = c :: unsafeName rest := by
  have hread : parseHex ⟨c.val / 4096, by omega⟩ ⟨c.val / 256 % 16, by omega⟩ ⟨c.val / 16 % 16, by omega⟩
      ⟨c.val % 16, by omega⟩ = c := by
    apply Fin.ext
    simp only [parseHex]
    omega
  simp [hex, unsafeName, readHex, hread]

theorem unsafeName_safeName (name : List CodeUnit) : unsafeName (safeName name) = name := by
  induction name with
  | nil => rfl
  | cons c name ih =>
    rw [safeName, List.flatMap_cons, ← safeName]
    split
    · rename_i hplain
      have hne : c ≠ tilde := by
        rintro rfl
        exact absurd hplain (by decide)
      rw [List.singleton_append, unsafeName_cons hne, ih]
    · rw [unsafeName_escaped, ih]

theorem safeName_plain (name : List CodeUnit) : ∀ u ∈ safeName name, isPlain u = true ∨ u = tilde := by
  intro u hu
  obtain ⟨c, -, hu⟩ := List.mem_flatMap.1 hu
  split at hu
  · rename_i hplain
    rw [List.mem_singleton.1 hu]
    exact .inl hplain
  · obtain rfl | hu := List.mem_cons.1 hu
    · exact .inr rfl
    · obtain ⟨d, -, rfl⟩ := List.mem_map.1 hu
      exact .inl (isPlain_hexDigit d)

/-- Names are read back, so no two are the same; only plain units and tildes are written; and the names that come back
when they are read and written are those that were written. -/
theorem names_reversible :
    (∀ name, unsafeName (safeName name) = name) ∧ Function.Injective safeName ∧
      (∀ name, ∀ u ∈ safeName name, isPlain u = true ∨ u = tilde) ∧
      ∀ n, safeName (unsafeName n) = n ↔ ∃ name, safeName name = n := by
  refine ⟨unsafeName_safeName, Function.LeftInverse.injective unsafeName_safeName, safeName_plain, fun n => ?_⟩
  constructor
  · intro h
    exact ⟨unsafeName n, h⟩
  · rintro ⟨name, rfl⟩
    rw [unsafeName_safeName]

end Savoire.FolderNames
