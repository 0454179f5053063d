import Savoire.Query.PropertyTypes

/-! The light rows of a base, as a client reads them from the shared tree of a lot and as the indexer reads
them from the same document. -/
namespace Savoire.Query

/-- What a key of a row, or a place of a list, holds. Only the kind of a map or of an element is looked at;
`foreign` is a value that no client writes: a plain object, or bytes. -/
inductive Shared
  | scalar (x : Scalar)
  | foreign
  | text (s : Text)
  | list (items : List Shared)
  | map
  | element

abbrev RowMap := KeyedMap Text Shared

/-- What a key of the root of a lot holds. -/
inductive RootValue
  | row (fields : RowMap)
  | other

abbrev Lot := KeyedMap Text RootValue

def baseRowPrefix : Text := "row:".toList

def baseRowTitle : Text := "title".toList

/-- What sets the prototype of an object, and not a property of it. -/
def protoKey : Text := "__proto__".toList

def Lot.rows (lot : Lot) : List (Text × RowMap) :=
  lot.entries.filterMap fun e => match e.2 with
    | .row fields => if baseRowPrefix.isPrefixOf e.1 then some (e.1.drop baseRowPrefix.length, fields) else none
    | .other => none

/-- A row as an index takes it. -/
structure LocalIndexedDoc where
  id : Text
  base : Text
  title : Text
  props : List (Text × PropertyValue)
  deriving DecidableEq

/-- The values that an object has of its own once every key but the title is set. -/
def RowMap.values {β : Type*} (read : Shared → β) (fields : RowMap) : List (Text × β) :=
  (fields.entries.filter fun e => e.1 != baseRowTitle && e.1 != protoKey).map fun e => (e.1, read e.2)

/-- Neither a line feed, a carriage return nor another separator of lines: `.` -/
def isDot (c : Char) : Bool := c != '\n' && c != '\r' && c.toNat != 0x2028 && c.toNat != 0x2029

/-- What `/^(["'])(.*)\1$/` captures second. -/
def quoted : Text → Option Text
  | c :: rest =>
      if (c == '"' || c == '\'') && rest.getLast? == some c && rest.dropLast.all isDot then some rest.dropLast
      else none
  | [] => none

variable (host : Host) (number : Text → Num)

/-- What `toJSON` gives. -/
inductive TreeJson
  | scalar (x : Scalar)
  | array (items : List TreeJson)
  | object

mutual

def Shared.toJSON : Shared → TreeJson
  | .scalar x => .scalar x
  | .foreign => .scalar .null
  | .text s => .scalar (.text s)
  | .list items => .array (toJSONs items)
  | .map | .element => .object

def toJSONs : List Shared → List TreeJson
  | [] => []
  | item :: items => item.toJSON :: toJSONs items

end

def objectText : Text := "[object Object]".toList

mutual

/-- `String(value)`. -/
def TreeJson.str : TreeJson → Text
  | .scalar x => x.str host
  | .array items => [','].intercalate (joinedTexts items)
  | .object => objectText

/-- The texts that `join` puts together: that of null is empty. -/
def joinedTexts : List TreeJson → List Text
  | [] => []
  | .scalar .null :: items => [] :: joinedTexts items
  | item :: items => item.str :: joinedTexts items

end

mutual

/-- `normalizeValue`. -/
def normalizeValue : TreeJson → PropertyValue
  | .scalar (.text s) => .scalar (.text ((quoted s).getD s))
  | .scalar x => .scalar x
  | .array items => .list (normalizeItems items)
  | .object => .scalar .null

def normalizeItems : List TreeJson → List Scalar
  | [] => []
  | .scalar .null :: items => normalizeItems items
  | item :: items => .text ((normalizeValue item).str host) :: normalizeItems items

end

/-- The plain value that a client takes from a key of a row. -/
def clientPlain : Shared → TreeJson
  | .list items => (Shared.list items).toJSON
  | .text s => .scalar (.text s)
  | .scalar x => .scalar x
  | .foreign | .map | .element => .scalar .null

/-- `typeProps`, for one property. -/
def typeProp (types : Settings) (key : Text) (raw : TreeJson) : PropertyValue :=
  let v := normalizeValue host raw
  coercePropertyValue host number v (((types.get key).map PropertyDef.type).getD (guessPropertyType v))

def typeProps (types : Settings) (values : List (Text × TreeJson)) : List (Text × PropertyValue) :=
  values.map fun e => (e.1, typeProp host number types e.1 e.2)

def rowDoc (types : Settings) (baseId rowId : Text) (row : RowMap) : LocalIndexedDoc where
  id := rowId
  base := baseId
  title := match (row.get baseRowTitle).map clientPlain with
    | none | some (.scalar .null) => []
    | some plain => plain.str host
  props := typeProps host number types (row.values clientPlain)

def clientRows (types : Settings) (baseId : Text) (lot : Lot) : List LocalIndexedDoc :=
  lot.rows.map fun r => rowDoc host number types baseId r.1 r.2

def plainItem : Shared → Option Scalar
  | .scalar .null => none
  | .scalar x => some (.text (x.str host))
  | _ => none

/-- `plain`. -/
def plain : Shared → PropertyValue
  | .scalar x => .scalar x
  | .list items => .list (items.filterMap (plainItem host))
  | .text s => .scalar (.text s)
  | .foreign | .map | .element => .scalar .null

structure LightRow where
  id : Text
  title : Text
  values : List (Text × PropertyValue)

def readLotRows (lot : Lot) : List LightRow :=
  lot.rows.map fun r => {
    id := r.1
    title := match (r.2.get baseRowTitle).map (plain host) with
      | none | some (.scalar .null) => []
      | some p => p.str host
    values := r.2.values (plain host) }

/-- `normalize`. -/
def normalize : PropertyValue → PropertyValue
  | .scalar (.text s) => .scalar (.text ((quoted s).getD s))
  | v => v

def lightRowRecord (schema : List PropertyDef) (baseId : Text) (row : LightRow) : LocalIndexedDoc :=
  let types := schemaTypes schema
  { id := row.id
    base := baseId
    title := row.title
    props := row.values.map fun e =>
      let v := normalize e.2
      (e.1, coercePropertyValue host number v ((types.get e.1).getD (guessPropertyType v))) }

def indexerRows (types : Settings) (baseId : Text) (lot : Lot) : List LocalIndexedDoc :=
  (readLotRows host lot).map (lightRowRecord host number types.readPropertySchema baseId)

def Shared.sameItem : Shared → Prop
  | .scalar (.text s) => quoted s = none
  | .scalar _ | .foreign => True
  | .text _ | .list _ | .map | .element => False

/-- A value of a property that both read alike: no item of a list has quotes around it or is itself
shared. -/
def Shared.sameValue : Shared → Prop
  | .list items => ∀ item ∈ items, item.sameItem
  | _ => True

def Shared.blank : Shared → Bool
  | .scalar x => x == .null || x == .text []
  | .foreign => true
  | .text s => s.isEmpty
  | .list [] => true
  | .list [item] => item.blank
  | .list (_ :: _ :: _) => false
  | .map | .element => false

/-- A title that both read alike: a list holds texts, numbers and truth values, or one blank item. -/
def Shared.sameTitle : Shared → Prop
  | .list items =>
      (∀ item ∈ items, ∃ x, item = .scalar x ∧ x ≠ .null) ∨ ∃ item, items = [item] ∧ item.blank
  | _ => True

def RowMap.sameReading (fields : RowMap) : Prop := ∀ key v, fields.get key = some v →
  if key = baseRowTitle then v.sameTitle else key = protoKey ∨ v.sameValue

variable {host number}

def clientItem (host : Host) (item : Shared) : Option Scalar :=
  match item.toJSON with
  | .scalar .null => none
  | json => some (.text ((normalizeValue host json).str host))

variable (items : List Shared)

theorem normalizeItems_toJSONs :
    normalizeItems host (toJSONs items) = items.filterMap (clientItem host) := by
  induction items with
  | nil => rfl
  | cons item items ih =>
    rw [toJSONs, List.filterMap_cons, ← ih, clientItem]
    cases item with
    | scalar x => cases x <;> rfl
    | _ => rfl

theorem quoted_ne_self (s : Text) : quoted s ≠ some s := by
  cases s with
  | nil => simp [quoted]
  | cons c rest =>
    intro h
    rw [quoted] at h
    split at h
    · have hlength := congrArg List.length (Option.some.inj h)
      rw [List.length_dropLast, List.length_cons] at hlength
      omega
    · cases h

theorem getD_quoted_eq (s : Text) : (quoted s).getD s = s ↔ quoted s = none := by
  cases h : quoted s with
  | none => simp
  | some t =>
    have hne : t ≠ s := fun heq => quoted_ne_self s (heq ▸ h)
    simpa using hne

theorem sameItem_iff (item : Shared) : clientItem host item = plainItem host item ↔ item.sameItem := by
  cases item with
  | scalar x =>
    cases x with
    | text s =>
      have htext : clientItem host (.scalar (.text s)) = some (.text ((quoted s).getD s)) := rfl
      have hplain : plainItem host (.scalar (.text s)) = some (.text s) := rfl
      rw [htext, hplain, Shared.sameItem, ← getD_quoted_eq]
      simp
    | null | num n | bool b => exact iff_of_true rfl trivial
  | foreign => exact iff_of_true rfl trivial
  | text s | list items | map | element => exact iff_of_false (Option.some_ne_none _) id

theorem filterMap_eq_iff {α β : Type*} {f g : α → Option β} {l : List α}
    (hkeep : ∀ a ∈ l, f a = none → g a = none) : l.filterMap f = l.filterMap g ↔ ∀ a ∈ l, f a = g a := by
  refine ⟨fun h => ?_, List.filterMap_congr⟩
  have hlength : ∀ l : List α, (∀ a ∈ l, f a = none → g a = none) →
      (l.filterMap g).length ≤ (l.filterMap f).length := by
    intro l hl
    induction l with
    | nil => exact le_refl _
    | cons a l ih =>
      have hrest := ih fun b hb => hl b (List.mem_cons_of_mem _ hb)
      have ha := hl a List.mem_cons_self
      cases hf : f a <;> cases hg : g a <;> simp [hf, hg] at ha ⊢ <;> omega
  induction l with
  | nil => simp
  | cons a l ih =>
    have hl := fun b hb => hkeep b (List.mem_cons_of_mem a hb)
    have ha := hkeep a List.mem_cons_self
    have hle := hlength l hl
    rw [List.forall_mem_cons]
    cases hf : f a with
    | none =>
      rw [List.filterMap_cons_none hf, List.filterMap_cons_none (ha hf)] at h
      exact ⟨(ha hf).symm, ih hl h⟩
    | some b =>
      cases hg : g a with
      | none =>
        rw [List.filterMap_cons_some hf, List.filterMap_cons_none hg] at h
        have := congrArg List.length h
        rw [List.length_cons] at this
        omega
      | some c =>
        rw [List.filterMap_cons_some hf, List.filterMap_cons_some hg, List.cons.injEq] at h
        exact ⟨congrArg some h.1, ih hl h.2⟩

theorem plainItem_none {item : Shared} (h : clientItem host item = none) : plainItem host item = none := by
  cases item with
  | scalar x => cases x <;> first | rfl | cases h
  | foreign => rfl
  | text s | list items | map | element => cases h

theorem sameValue_iff (types : Settings) (key : Text) (v : Shared) :
    typeProp host number types key (clientPlain v) =
      coercePropertyValue host number (normalize (plain host v))
        (((schemaTypes types.readPropertySchema).get key).getD (guessPropertyType (normalize (plain host v)))) ↔
      v.sameValue := by
  rw [typeProp, Settings.get_schemaTypes]
  cases v with
  | list items =>
    have hclient : normalizeValue host (clientPlain (.list items)) =
        .list (items.filterMap (clientItem host)) := by
      rw [clientPlain, Shared.toJSON, normalizeValue, normalizeItems_toJSONs]
    have hplain : normalize (plain host (.list items)) = .list (items.filterMap (plainItem host)) := rfl
    rw [hclient, hplain, coerce_list, coerce_list, PropertyValue.list.injEq,
      filterMap_eq_iff fun item _ => plainItem_none, Shared.sameValue]
    exact forall₂_congr fun item _ => sameItem_iff item
  | scalar x => cases x <;> exact iff_of_true rfl trivial
  | text s | foreign | map | element => exact iff_of_true rfl trivial

theorem length_intercalate (sep : Char) (l : List Text) :
    ([sep].intercalate l).length = (l.map fun t => t.length + 1).sum - 1 := by
  induction l with
  | nil => rfl
  | cons t l ih =>
    cases l with
    | nil => simp
    | cons u l =>
      rw [List.intercalate_cons_cons, List.length_append, List.length_append, ih]
      simp only [List.map_cons, List.sum_cons, List.length_singleton]
      omega

def shown (host : Host) (item : Shared) : Text :=
  match item.toJSON with
  | .scalar .null => []
  | json => json.str host

theorem joinedTexts_toJSONs :
    joinedTexts host (toJSONs items) = items.map (shown host) := by
  induction items with
  | nil => rfl
  | cons item items ih =>
    rw [toJSONs, List.map_cons, ← ih, shown]
    cases item with
    | scalar x => cases x <;> rfl
    | _ => rfl

theorem numText_ne_nil (n : Num) : host.numText n ≠ [] := by
  cases n with
  | nan => simp [host.numText_nan]
  | negInf => simp [host.numText_negInf]
  | posInf => simp [host.numText_posInf]
  | fin q =>
    obtain ⟨c, rest, h, -⟩ := host.numText_fin q
    simp [h]

theorem shown_list :
    shown host (.list items) = [','].intercalate (items.map (shown host)) := by
  rw [← joinedTexts_toJSONs]
  rfl

theorem objectText_ne_nil : objectText ≠ [] := by decide

theorem scalar_blank_iff (x : Scalar) : shown host (.scalar x) = [] ↔ x = .null ∨ x = .text [] := by
  cases x with
  | null => exact iff_of_true rfl (.inl rfl)
  | text s => simp [shown, Shared.toJSON, TreeJson.str, Scalar.str]
  | num n => simp [shown, Shared.toJSON, TreeJson.str, Scalar.str, numText_ne_nil]
  | bool b => cases b <;> simp [shown, Shared.toJSON, TreeJson.str, Scalar.str]

theorem blank_iff (host : Host) : (item : Shared) → (shown host item = [] ↔ item.blank = true)
  | .scalar x => by rw [scalar_blank_iff, Shared.blank, Bool.or_eq_true, beq_iff_eq, beq_iff_eq]
  | .foreign => by simp [shown, Shared.toJSON, Shared.blank]
  | .text s => by simp [shown, Shared.toJSON, TreeJson.str, Scalar.str, Shared.blank]
  | .list [] => by simp [shown_list, Shared.blank]
  | .list [item] => by
      rw [shown_list, List.map_singleton, List.intercalate_singleton, blank_iff host item, Shared.blank]
  | .list (a :: b :: rest) => by
      rw [shown_list, ← List.length_eq_zero_iff, length_intercalate, Shared.blank]
      simp only [List.map_cons, List.sum_cons, Bool.false_eq_true, iff_false]
      omega
  | .map => by simp [shown, Shared.toJSON, TreeJson.str, objectText_ne_nil, Shared.blank]
  | .element => by simp [shown, Shared.toJSON, TreeJson.str, objectText_ne_nil, Shared.blank]

def keptText (host : Host) (item : Shared) : Option Text := (plainItem host item).map fun x => x.str host

theorem keptText_eq (host : Host) (item : Shared) :
    keptText host item = none ∨ keptText host item = some (shown host item) := by
  cases item with
  | scalar x => cases x <;> simp [keptText, plainItem, shown, Shared.toJSON, TreeJson.str, Scalar.str]
  | _ => exact .inl rfl

theorem keptText_isSome (item : Shared) :
    (keptText host item).isSome = true ↔ ∃ x, item = .scalar x ∧ x ≠ .null := by
  cases item with
  | scalar x => cases x <;> simp [keptText, plainItem]
  | _ => simp [keptText, plainItem]

theorem str_plain_list : (plain host (.list items)).str host =
    [','].intercalate (items.filterMap (keptText host)) := by
  have hmap : items.filterMap (keptText host) =
      (items.filterMap (plainItem host)).map fun x => if x = .null then [] else x.str host := by
    rw [List.map_filterMap]
    refine List.filterMap_congr fun item _ => ?_
    cases item with
    | scalar x => cases x <;> simp [keptText, plainItem]
    | _ => rfl
  rw [hmap]
  rfl

theorem sum_keptText :
    ((items.filterMap (keptText host)).map fun t => t.length + 1).sum ≤
      ((items.map (shown host)).map fun t => t.length + 1).sum ∧
    ((∃ item ∈ items, keptText host item = none) →
      ((items.filterMap (keptText host)).map fun t => t.length + 1).sum <
        ((items.map (shown host)).map fun t => t.length + 1).sum) := by
  induction items with
  | nil => simp
  | cons item items ih =>
    obtain ⟨hle, hlt⟩ := ih
    rw [List.map_cons, List.map_cons, List.sum_cons]
    obtain h | h := keptText_eq host item
    · rw [List.filterMap_cons_none h]
      exact ⟨by omega, fun _ => by omega⟩
    · rw [List.filterMap_cons_some h, List.map_cons, List.sum_cons]
      refine ⟨by omega, fun hmissing => ?_⟩
      have := hlt (by simpa [h] using hmissing)
      omega

theorem filterMap_keptText {items : List Shared} (h : ∀ item ∈ items, (keptText host item).isSome = true) :
    items.filterMap (keptText host) = items.map (shown host) := by
  rw [← List.filterMap_eq_map]
  refine List.filterMap_congr fun item hitem => ?_
  obtain hnone | hsome := keptText_eq host item
  · exact absurd (h item hitem) (by simp [hnone])
  · exact hsome

theorem sameTitle_list_iff (host : Host) (items : List Shared) : [','].intercalate (items.map (shown host)) =
    [','].intercalate (items.filterMap (keptText host)) ↔ (Shared.list items).sameTitle := by
  by_cases hall : ∀ item ∈ items, (keptText host item).isSome = true
  · exact iff_of_true (by rw [filterMap_keptText hall]) (.inl fun item h => (keptText_isSome item).mp (hall item h))
  · have hmissing : ∃ item ∈ items, keptText host item = none := by simpa using hall
    have hlt := (sum_keptText items).2 hmissing
    constructor
    · intro h
      have hlength := congrArg List.length h
      rw [length_intercalate, length_intercalate] at hlength
      cases items with
      | nil => simp at hmissing
      | cons item rest =>
        cases rest with
        | nil =>
          refine .inr ⟨item, rfl, (blank_iff host item).mp ?_⟩
          rw [← List.length_eq_zero_iff]
          simp only [List.map_cons, List.map_nil, List.sum_cons, List.sum_nil] at hlt hlength
          omega
        | cons next rest =>
          simp only [List.map_cons, List.sum_cons] at hlt hlength
          omega
    · rintro (hscalar | ⟨item, rfl, hblank⟩)
      · exact absurd (fun item h => (keptText_isSome item).mpr (hscalar item h)) hall
      · obtain ⟨i, hi, hnone⟩ := hmissing
        obtain rfl := List.mem_singleton.mp hi
        rw [List.map_singleton, (blank_iff host i).mpr hblank, List.filterMap_cons_none hnone]
        rfl

theorem sameTitle_iff (v : Shared) :
    (match some (clientPlain v) with
      | none | some (.scalar .null) => []
      | some json => json.str host) =
    (match some (plain host v) with
      | none | some (.scalar .null) => []
      | some p => p.str host) ↔ v.sameTitle := by
  cases v with
  | list items =>
    rw [← sameTitle_list_iff host, ← joinedTexts_toJSONs, ← str_plain_list]
    rfl
  | scalar x => cases x <;> exact iff_of_true (by simp [clientPlain, plain, TreeJson.str, PropertyValue.str]) trivial
  | text s => exact iff_of_true (by simp [clientPlain, plain, TreeJson.str, PropertyValue.str]) trivial
  | foreign | map | element => exact iff_of_true rfl trivial

theorem map_values_eq_iff {β : Type*} (fields : RowMap) (f g : Text → Shared → β) :
    (fields.values id).map (fun e => (e.1, f e.1 e.2)) = (fields.values id).map (fun e => (e.1, g e.1 e.2)) ↔
    ∀ key v, fields.get key = some v → key = baseRowTitle ∨ key = protoKey ∨ f key v = g key v := by
  rw [List.map_inj_left, RowMap.values, List.forall_mem_map]
  constructor
  · intro h key v hv
    by_cases htitle : key = baseRowTitle
    · exact .inl htitle
    · by_cases hproto : key = protoKey
      · exact .inr (.inl hproto)
      · have := h (key, v) (List.mem_filter.mpr ⟨KeyedMap.mem_iff.mpr hv, by simp [htitle, hproto]⟩)
        exact .inr (.inr (Prod.ext_iff.mp this).2)
  · rintro h ⟨key, v⟩ hmem
    obtain ⟨hentry, hkey⟩ := List.mem_filter.mp hmem
    simp only [Bool.and_eq_true, bne_iff_ne, ne_eq] at hkey
    have := (h key v (KeyedMap.mem_iff.mp hentry)).resolve_left hkey.1
    rw [id, this.resolve_left hkey.2]

theorem rowDoc_eq_iff (types : Settings) (baseId rowId : Text) (fields : RowMap) :
    rowDoc host number types baseId rowId fields =
      lightRowRecord host number types.readPropertySchema baseId
        ⟨rowId, match (fields.get baseRowTitle).map (plain host) with
          | none | some (.scalar .null) => []
          | some p => p.str host, fields.values (plain host)⟩ ↔
    fields.sameReading := by
  have hprops := map_values_eq_iff fields (fun key v => typeProp host number types key (clientPlain v))
    fun key v => coercePropertyValue host number (normalize (plain host v))
      (((schemaTypes types.readPropertySchema).get key).getD (guessPropertyType (normalize (plain host v))))
  simp only [sameValue_iff] at hprops
  have htitle : (match (fields.get baseRowTitle).map clientPlain with
      | none | some (.scalar .null) => []
      | some json => json.str host) = (match (fields.get baseRowTitle).map (plain host) with
      | none | some (.scalar .null) => []
      | some p => p.str host) ↔ ∀ v, fields.get baseRowTitle = some v → v.sameTitle := by
    cases h : fields.get baseRowTitle with
    | none => simp
    | some v => simpa using sameTitle_iff v
  rw [rowDoc, lightRowRecord, LocalIndexedDoc.mk.injEq, htitle, typeProps]
  simp only [true_and, RowMap.values, List.map_map, Function.comp_def, id] at hprops ⊢
  rw [hprops]
  constructor
  · rintro ⟨ht, hp⟩ key v hv
    split
    · rename_i hkey
      exact ht v (hkey ▸ hv)
    · rename_i hkey
      exact (hp key v hv).resolve_left hkey
  · intro h
    refine ⟨fun v hv => by simpa using h baseRowTitle v hv, fun key v hv => ?_⟩
    have hkey := h key v hv
    split at hkey
    · rename_i heq
      exact .inl heq
    · exact .inr hkey

/-- A client and the indexer take the same rows from a lot just where each row is read alike. -/
theorem lot_rows_eq_iff (host : Host) (number : Text → Num) (types : Settings) (baseId : Text) (lot : Lot) :
    clientRows host number types baseId lot = indexerRows host number types baseId lot ↔
      ∀ r ∈ lot.rows, RowMap.sameReading r.2 := by
  rw [clientRows, indexerRows, readLotRows, List.map_map, List.map_inj_left]
  exact forall₂_congr fun r _ => rowDoc_eq_iff types baseId r.1 r.2

def quotedTagLot : Lot :=
  KeyedMap.empty.set "row:1".toList (.row (KeyedMap.empty.set "tags".toList (.list [.scalar (.text "\"a\"".toList)])))

/-- The client takes the quotes off the tag, the indexer keeps them. -/
theorem quoted_tag_read_apart : ¬ ∀ (host : Host) (number : Text → Num) (types : Settings) (baseId : Text)
    (lot : Lot), clientRows host number types baseId lot = indexerRows host number types baseId lot := by
  intro h
  exact absurd (h plainHost (fun _ => .nan) .empty [] quotedTagLot) (by decide +kernel)

end Savoire.Query
