import Savoire.Query.Value
import Savoire.Library.KeyedMap

/-! The types that the members of a vault declare for properties, and the values brought to them. -/
namespace Savoire.Query
open VaultIndex (jsTrim)

inductive PropertyType
  | text | number | date | checkbox | select | multiselect | link | person
  deriving DecidableEq

structure PropertyDef where
  key : Text
  type : PropertyType
  deriving DecidableEq

/-- The character `c`, and what comes after it. -/
def readChar (c : Char) : Text → Option Text
  | d :: s => if d = c then some s else none
  | [] => none

/-- `n` digits, and what comes after them. -/
def readDigits : Nat → Text → Option Text
  | 0, s => some s
  | n + 1, c :: s => if c.isDigit then readDigits n s else none
  | _ + 1, [] => none

/-- `(Z|[+-]\d{2}:?\d{2})?$` -/
def isZonePart : Text → Bool
  | [] => true
  | ['Z'] => true
  | c :: s => (c == '+' || c == '-') &&
      match readDigits 2 s with
      | some (':' :: rest) => readDigits 2 rest == some []
      | some rest => readDigits 2 rest == some []
      | none => false

/-- `(:\d{2}(\.\d+)?)?` and the zone. -/
def isSecondsPart : Text → Bool
  | ':' :: s =>
      match readDigits 2 s with
      | some ('.' :: c :: rest) => c.isDigit && isZonePart (rest.dropWhile Char.isDigit)
      | some rest => isZonePart rest
      | none => false
  | s => isZonePart s

/-- `([T ]\d{2}:\d{2}…)?$` -/
def isTimePart : Text → Bool
  | [] => true
  | c :: s => (c == 'T' || c == ' ') &&
      match readDigits 2 s >>= readChar ':' >>= readDigits 2 with
      | some rest => isSecondsPart rest
      | none => false

/-- `DATE_RE` -/
def isDate (s : Text) : Bool :=
  match readDigits 4 s >>= readChar '-' >>= readDigits 2 >>= readChar '-' >>= readDigits 2 with
  | some rest => isTimePart rest
  | none => false

/-- `LINK_RE` -/
def isLink : Text → Bool
  | '[' :: '[' :: rest =>
      let name := rest.takeWhile (· != ']')
      !name.isEmpty && rest.drop name.length == [']', ']']
  | _ => false

example : isDate "2026-09-26T08:15:30.5+02:00".toList = true ∧ isDate "2026-9-26".toList = false := by decide
example : isLink "[[A note]]".toList = true ∧ isLink "[[]]".toList = false := by decide

def guessPropertyType : PropertyValue → PropertyType
  | .list _ => .multiselect
  | .scalar (.bool _) => .checkbox
  | .scalar (.num _) => .number
  | .scalar (.text s) => if isDate s then .date else if isLink s then .link else .text
  | .scalar .null => .text

/-- `number` is `Number(text)`, NaN for a text that is not a number. -/
def coercePropertyValue (host : Host) (number : Text → Num) (value : PropertyValue) (type : PropertyType) :
    PropertyValue :=
  if value = .scalar .null then .scalar .null
  else match type, value with
    | .number, .scalar (.text s) =>
        if jsTrim s ≠ [] ∧ (number s).isFinite then .scalar (.num (number s)) else value
    | .number, _ => value
    | .checkbox, .scalar (.text s) =>
        let word := (jsTrim s).map Char.toLower
        if word = "true".toList ∨ word = "false".toList then .scalar (.bool (word == "true".toList)) else value
    | .checkbox, _ => value
    | .multiselect, .list _ => value
    | .multiselect, .scalar x => if x = .text [] then .list [] else .list [.text (x.str host)]
    | _, .scalar (.num n) => .scalar (.text (host.numText n))
    | _, .scalar (.bool b) => .scalar (.text (Scalar.str host (.bool b)))
    | _, _ => value

@[simp] theorem coerce_list (host : Host) (number : Text → Num) (xs : List Scalar) (type : PropertyType) :
    coercePropertyValue host number (.list xs) type = .list xs := by
  cases type <;> rfl

/-! The settings channel of a vault holds a value for a property; what is read of it is its type, when it
is one. -/

abbrev Settings := KeyedMap Text (Option PropertyType)

/-- `readDef` -/
def readDef (key : Text) (value : Option PropertyType) : Option PropertyDef := value.map (⟨key, ·⟩)

/-- `VaultPropertyTypes.defs` -/
def Settings.defs (settings : Settings) : KeyedMap Text PropertyDef :=
  settings.entries.foldl (fun map e => match readDef e.1 e.2 with
    | some d => map.set e.1 d
    | none => map) .empty

/-- `VaultPropertyTypes.get` -/
def Settings.get (settings : Settings) (key : Text) : Option PropertyDef := settings.defs.get key

/-- `readPropertySchema`, the indexer's reading of the same channel: the definitions by key. -/
def Settings.readPropertySchema (settings : Settings) : List PropertyDef :=
  StableSort.sort (fun a b => if textLt a.key b.key then .lt else if textLt b.key a.key then .gt else .eq)
    (settings.entries.filterMap fun e => readDef e.1 e.2)

/-- `new Map(schema.properties.map(d => [d.key, d.type]))` -/
def schemaTypes (schema : List PropertyDef) : KeyedMap Text PropertyType :=
  schema.foldl (fun map d => map.set d.key d.type) .empty

namespace Settings
variable {settings : Settings} {key : Text} {d : PropertyDef}

theorem key_readDef {e : Text × Option PropertyType} (h : readDef e.1 e.2 = some d) : d.key = e.1 := by
  obtain ⟨type, -, rfl⟩ := Option.map_eq_some_iff.mp h
  rfl

theorem nodup_keys (settings : Settings) :
    ((settings.entries.filterMap fun e => readDef e.1 e.2).map PropertyDef.key).Nodup := by
  have hsub : ∀ l : List (Text × Option PropertyType),
      ((l.filterMap fun e => readDef e.1 e.2).map PropertyDef.key).Sublist (l.map Prod.fst) := by
    intro l
    induction l with
    | nil => exact List.Sublist.refl _
    | cons e l ih =>
      cases h : readDef e.1 e.2 with
      | none => simpa [h] using ih.cons e.1
      | some d => simpa [h, key_readDef h] using ih.cons_cons e.1
  exact settings.nodup.sublist (hsub _)

theorem defs_eq (settings : Settings) : settings.defs =
    (settings.entries.filterMap fun e => readDef e.1 e.2).foldl (fun map d => map.set d.key d) .empty := by
  rw [List.foldl_filterMap, defs]
  congr 1
  funext map e
  cases h : readDef e.1 e.2 with
  | none => rfl
  | some d => simp [key_readDef h]

theorem get_eq_some : settings.get key = some d ↔
    d ∈ (settings.entries.filterMap fun e => readDef e.1 e.2) ∧ d.key = key := by
  rw [get, defs_eq, KeyedMap.get_foldl_set PropertyDef.key (fun d => d) settings.nodup_keys]
  simp only [KeyedMap.get_empty, reduceCtorEq, and_false, or_false]
  constructor
  · rintro ⟨c, hc, hkey, rfl⟩
    exact ⟨hc, hkey⟩
  · rintro ⟨hd, hkey⟩
    exact ⟨d, hd, hkey, rfl⟩

theorem get_schemaTypes : (schemaTypes settings.readPropertySchema).get key =
    (settings.get key).map PropertyDef.type := by
  have hperm : settings.readPropertySchema.Perm (settings.entries.filterMap fun e => readDef e.1 e.2) :=
    StableSort.sort_perm _ _
  have hnodup : (settings.readPropertySchema.map PropertyDef.key).Nodup :=
    (hperm.map _).nodup_iff.mpr settings.nodup_keys
  ext type
  rw [schemaTypes, KeyedMap.get_foldl_set PropertyDef.key PropertyDef.type hnodup, Option.map_eq_some_iff]
  simp only [KeyedMap.get_empty, reduceCtorEq, and_false, or_false]
  constructor
  · rintro ⟨d, hd, hkey, rfl⟩
    exact ⟨d, get_eq_some.mpr ⟨hperm.mem_iff.mp hd, hkey⟩, rfl⟩
  · rintro ⟨d, hd, rfl⟩
    obtain ⟨hmem, hkey⟩ := get_eq_some.mp hd
    exact ⟨d, hperm.mem_iff.mpr hmem, hkey, rfl⟩

end Settings
end Savoire.Query
