import Savoire.Library.PagedMerge
import Savoire.Query.Cursor

/-! The cursor of a global search: for each vault or instance that is still active, the cursor of its
page and how many hits of it were given, in JSON and base 64. -/
namespace Savoire.GlobalSearch
open Query (PageHost Payload field)

abbrev Parts := KeyedMap Text (PagedMerge.Part Text)

section
variable (host : PageHost)

def partJson (p : PagedMerge.Part Text) : Payload := .obj [("c".toList, p.c.elim .null .str), ("s".toList, .num p.s)]

def cursorJson (parts : Parts) (isPartial : Bool) : Payload :=
  .obj [("v".toList, .num 1), ("p".toList, .obj (parts.entries.map fun e => (e.1, partJson e.2))),
    ("x".toList, .bool isPartial)]

def writeBase64url (payload : Payload) : Text :=
  Base64.urlEncode ((Json.print host.numerals payload).flatMap Utf.utf8)

/-- A text that is not of this form is refused (the indexer also reads some that are not). -/
def readBase64url (cursor : Text) : Option Payload := do
  let bytes ← Base64.urlDecode cursor
  let json ← Utf.decode8 bytes
  Json.parse host.numerals json

/-- The fields of an object, the last of a name kept. -/
def entriesOf (fields : List (Text × Payload)) : List (Text × Payload) := (KeyedMap.ofList Prod.fst Prod.snd fields).entries

def partsOf (parts : List (Text × PagedMerge.Part Text)) : Parts := KeyedMap.ofList Prod.fst Prod.snd parts

def encodeCursor (parts : Parts) (isPartial : Bool) : Text := writeBase64url host (cursorJson parts isPartial)

def decodePart (raw : Payload) : Option (PagedMerge.Part Text) :=
  match raw with
  | .obj _ | .arr _ =>
    let c := match field "c".toList raw with
      | none | some .null => some none
      | some (.str c) => some (some c)
      | _ => none
    let s := match field "s".toList raw with
      | none => some 0
      | some (.num s) => if s.den = 1 ∧ 0 ≤ s then some s.num.toNat else none
      | _ => none
    match c, s with
    | some c, some s => some ⟨c, s⟩
    | _, _ => none
  | _ => none

def decodeCursor (cursor : Text) : Option (Parts × Bool) :=
  match readBase64url host cursor with
  | none => none
  | some root =>
    match field "v".toList root, field "p".toList root with
    | some (.num v), some (.obj p) =>
      if v ≠ 1 then none
      else
        match (entriesOf p).mapM fun e => (decodePart e.2).map (e.1, ·) with
        | none => none
        | some parts => some (partsOf parts, match field "x".toList root with
          | some (.bool x) => x
          | _ => false)
    | _, _ => none

namespace GlobalSearchCursor

def encode (parts : Parts) (isPartial : Bool) : Text := writeBase64url host (cursorJson parts isPartial)

/-- `GetValue<int>`, where a value is. -/
def intOf : Option Payload → Option (Option ℤ)
  | none | some .null => some none
  | some (.num q) => if q.den = 1 then some (some q.num) else none
  | _ => none

def decodePart (node : Payload) : Option (PagedMerge.Part Text) :=
  match node with
  | .obj _ =>
    let c := match field "c".toList node with
      | some (.str c) => some (some c)
      | some (.num _) | some (.bool _) => none
      | _ => some none
    match c, intOf (field "s".toList node) with
    | some c, some s => if s.getD 0 < 0 then none else some ⟨c, (s.getD 0).toNat⟩
    | _, _ => none
  | _ => none

def decode (cursor : Text) : Option (Parts × Bool) :=
  match readBase64url host cursor with
  | none => none
  | some root =>
    match intOf (field "v".toList root), field "p".toList root with
    | some v, some (.obj p) =>
      if v ≠ some 1 then none
      else
        match (entriesOf p).mapM fun e => (decodePart e.2).map (e.1, ·) with
        | none => none
        | some parts =>
          match field "x".toList root with
          | none | some .null => some (partsOf parts, false)
          | some (.bool x) => some (partsOf parts, x)
          | _ => none
    | _, _ => none

end GlobalSearchCursor

variable {host}

theorem readBase64url_write (payload : Payload) : readBase64url host (writeBase64url host payload) = some payload := by
  have hbytes : Base64.urlDecode (writeBase64url host payload) =
      some ((Json.print host.numerals payload).flatMap Utf.utf8) :=
    Base64.urlDecode_urlEncode fun _ => Utf.utf8_lt_256
  simp only [readBase64url, hbytes, Option.bind_eq_bind, Option.bind_some, Utf.decode8_utf8, Json.parse_print]

variable (parts : Parts)

theorem entriesOf_parts :
    entriesOf (parts.entries.map fun e => (e.1, partJson e.2)) = parts.entries.map fun e => (e.1, partJson e.2) := by
  have hnames : ((parts.entries.map fun e => (e.1, partJson e.2)).map Prod.fst).Nodup := by
    rw [List.map_map]
    exact parts.nodup
  rw [entriesOf, KeyedMap.entries_ofList hnames, List.map_id']

theorem partsOf_entries : partsOf parts.entries = parts := by
  obtain ⟨entries, hnodup⟩ := parts
  have hentries : (partsOf entries).entries = entries := by
    rw [partsOf, KeyedMap.entries_ofList hnodup, List.map_id']
  cases hmap : partsOf entries with
  | mk entries' _ =>
    rw [hmap] at hentries
    subst hentries
    rfl

theorem mapM_parts {read : Payload → Option (PagedMerge.Part Text)} (h : ∀ p, read (partJson p) = some p) (parts : Parts) :
    (entriesOf (parts.entries.map fun e => (e.1, partJson e.2))).mapM (fun e => (read e.2).map (e.1, ·)) =
      some parts.entries := by
  have hall : ∀ l : List (Text × PagedMerge.Part Text),
      (l.map fun e => (e.1, partJson e.2)).mapM (fun e => (read e.2).map (e.1, ·)) = some l := by
    intro l
    induction l with
    | nil => rfl
    | cons e l ih =>
      rw [List.map_cons, List.mapM_cons, ih, h]
      rfl
  rw [entriesOf_parts, hall]

variable (p : PagedMerge.Part Text)

theorem field_partJson : ∃ fields, partJson p = .obj fields ∧
    field "c".toList (.obj fields) = some (p.c.elim .null .str) ∧ field "s".toList (.obj fields) = some (.num p.s) :=
  ⟨_, rfl, rfl, rfl⟩

theorem decodePart_partJson : decodePart (partJson p) = some p := by
  obtain ⟨fields, hfields, hc, hs⟩ := field_partJson p
  rw [hfields]
  obtain ⟨c, s⟩ := p
  simp only [decodePart, hc, hs]
  cases c <;> simp

theorem GlobalSearchCursor.decodePart_partJson : GlobalSearchCursor.decodePart (partJson p) = some p := by
  obtain ⟨fields, hfields, hc, hs⟩ := field_partJson p
  rw [hfields]
  obtain ⟨c, s⟩ := p
  simp only [GlobalSearchCursor.decodePart, GlobalSearchCursor.intOf, hc, hs]
  cases c <;> simp

theorem field_cursorJson (isPartial : Bool) : field "v".toList (cursorJson parts isPartial) = some (.num 1) ∧
    field "p".toList (cursorJson parts isPartial) = some (.obj (parts.entries.map fun e => (e.1, partJson e.2))) ∧
    field "x".toList (cursorJson parts isPartial) = some (.bool isPartial) := ⟨rfl, rfl, rfl⟩

theorem decodeCursor_encode (isPartial : Bool) :
    decodeCursor host (encodeCursor host parts isPartial) = some (parts, isPartial) := by
  obtain ⟨hv, hp, hx⟩ := field_cursorJson parts isPartial
  simp only [decodeCursor, encodeCursor, readBase64url_write, hv, hp, hx, mapM_parts decodePart_partJson,
    partsOf_entries, ne_eq, not_true_eq_false, if_false]

theorem GlobalSearchCursor.decode_encode (isPartial : Bool) :
    GlobalSearchCursor.decode host (GlobalSearchCursor.encode host parts isPartial) = some (parts, isPartial) := by
  obtain ⟨hv, hp, hx⟩ := field_cursorJson parts isPartial
  have hone : GlobalSearchCursor.intOf (some (.num 1)) = some (some 1) := rfl
  simp only [GlobalSearchCursor.decode, GlobalSearchCursor.encode, readBase64url_write, hv, hp, hx, hone,
    mapM_parts GlobalSearchCursor.decodePart_partJson, partsOf_entries, ne_eq, not_true_eq_false, if_false]

end
end Savoire.GlobalSearch
