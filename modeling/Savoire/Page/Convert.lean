import Savoire.Library.KeyedMap
import Savoire.SharedTree.Model

/-! A page as a tree of nodes with marks on its texts, and as the description of an element of the shared tree,
where a run of texts is one rich text and a mark an attribute of it. -/
namespace Savoire.Page
open SharedTree

abbrev Attributes := List (Text × JsonValue)

structure Mark where
  type : Text
  attrs : Option JsonValue

inductive PmJson
  | node (type : Text) (attrs : Option Attributes) (content : Option (List PmJson)) (marks : Option (List Mark))
      (text : Option (List Nat))

def textType : Text := "text".toList

def PmJson.type : PmJson → Text
  | .node type _ _ _ _ => type

def PmJson.marks : PmJson → Option (List Mark)
  | .node _ _ _ marks _ => marks

def PmJson.text : PmJson → Option (List Nat)
  | .node _ _ _ _ text => text

structure TreeElementInit where
  name : Text
  attributes : Attributes
  children : List TreeElementChildInit

def TreeElementInit.child (e : TreeElementInit) : TreeElementChildInit := .element () e.name e.attributes e.children

def isNull : JsonValue → Bool
  | .null => true
  | _ => false

def withoutNull (attrs : Attributes) : Attributes := attrs.filter fun e => !isNull e.2

/-- The attributes of a mark that are not null, or `true` if there is none. -/
def markValue : Option JsonValue → JsonValue
  | some (.obj fields) => if withoutNull fields = [] then .bool true else .obj (withoutNull fields)
  | _ => .bool true

def marksToAttributes : Option (List Mark) → Option TextAttributes
  | none => none
  | some [] => none
  | some marks => some (KeyedMap.ofList Mark.type (fun m => markValue m.attrs) marks).entries

/-- No attribute is the same as none. -/
def cleanAttrs (attrs : Option Attributes) : Attributes := withoutNull (attrs.getD [])

def flush (run : RichTextDelta) : List TreeElementChildInit := if run = [] then [] else [.text () run]

mutual
def pmToInit : PmJson → TreeElementInit
  | .node type attrs content _ _ => ⟨type, cleanAttrs attrs, pmContentToInit content⟩

def pmContentToInit : Option (List PmJson) → List TreeElementChildInit
  | none => []
  | some content => pmChildrenToInit [] content

/-- The texts since the last element are in `run`. -/
def pmChildrenToInit (run : RichTextDelta) : List PmJson → List TreeElementChildInit
  | [] => flush run
  | child :: rest =>
    if child.type = textType then
      match child.text with
      | none | some [] => pmChildrenToInit run rest
      | some text => pmChildrenToInit (run ++ [.insert text (marksToAttributes child.marks)]) rest
    else flush run ++ (pmToInit child).child :: pmChildrenToInit [] rest
end

def isEmptyObject : JsonValue → Bool
  | .obj fields => fields.isEmpty
  | _ => false

def isTrue : JsonValue → Bool
  | .bool b => b
  | _ => false

def isFalse : JsonValue → Bool
  | .bool b => !b
  | _ => false

def toMark (e : Text × JsonValue) : Mark :=
  if isTrue e.2 || isEmptyObject e.2 then ⟨e.1, none⟩ else ⟨e.1, some e.2⟩

def nonEmpty {α : Type} : List α → Option (List α)
  | [] => none
  | l => some l

def attributesToMarks (attributes : Option TextAttributes) : Option (List Mark) :=
  nonEmpty (((attributes.getD []).filter fun e => !isNull e.2 && !isFalse e.2).map toMark)

def opToPm : RichTextDeltaOp → Option PmJson
  | .insert [] _ => none
  | .insert text attributes => some (.node textType none none (attributesToMarks attributes) (some text))
  | _ => none

def elementToPm (name : Text) (attributes : Attributes) (content : List PmJson) : PmJson :=
  .node name (nonEmpty attributes) (nonEmpty content) none none

mutual
def childToPm : TreeElementChildInit → List PmJson
  | .text _ delta => delta.filterMap opToPm
  | .element _ name attributes children => [elementToPm name attributes (childrenToPm children)]

def childrenToPm : List TreeElementChildInit → List PmJson
  | [] => []
  | child :: rest => childToPm child ++ childrenToPm rest
end

def initToPm (init : TreeElementInit) : PmJson :=
  elementToPm init.name init.attributes (childrenToPm init.children)

def dropNull : Option JsonValue → Option JsonValue
  | some (.obj fields) => if withoutNull fields = [] then none else some (.obj (withoutNull fields))
  | _ => none

def strippedMarks (marks : Option (List Mark)) : List Mark :=
  (KeyedMap.ofList Mark.type (fun m => dropNull m.attrs) (marks.getD [])).entries.map fun e => ⟨e.1, e.2⟩

def strippedText (child : PmJson) : List PmJson :=
  match child.text with
  | none | some [] => []
  | some text => [.node textType none none (nonEmpty (strippedMarks child.marks)) (some text)]

mutual
/-- Without attributes that are null, empty texts and the marks of nodes that are no texts. -/
def stripped : PmJson → PmJson
  | .node type attrs content _ _ => elementToPm type (withoutNull (attrs.getD [])) (strippedContent content)

def strippedContent : Option (List PmJson) → List PmJson
  | none => []
  | some content => strippedChildren content

def strippedChildren : List PmJson → List PmJson
  | [] => []
  | child :: rest =>
    if child.type = textType then strippedText child ++ strippedChildren rest
    else stripped child :: strippedChildren rest
end

theorem withoutNull_withoutNull (attrs : Attributes) : withoutNull (withoutNull attrs) = withoutNull attrs := by
  rw [withoutNull, withoutNull, List.filter_filter]
  simp

theorem nonEmpty_getD {α : Type} (l : List α) : (nonEmpty l).getD [] = l := by
  cases l <;> rfl

theorem toMark_markValue (type : Text) (attrs : Option JsonValue) :
    toMark (type, markValue attrs) = ⟨type, dropNull attrs⟩ := by
  match attrs with
  | some (.obj fields) =>
    by_cases hnil : withoutNull fields = []
    · simp [markValue, dropNull, hnil, toMark, isTrue]
    · simp [markValue, dropNull, hnil, toMark, isTrue, isEmptyObject]
  | none | some .null | some (.bool _) | some (.num _) | some (.str _) | some (.arr _) => rfl

theorem markValue_shown (attrs : Option JsonValue) :
    (!isNull (markValue attrs) && !isFalse (markValue attrs)) = true := by
  match attrs with
  | some (.obj fields) =>
    by_cases hnil : withoutNull fields = []
    · simp [markValue, hnil, isNull, isFalse]
    · simp [markValue, hnil, isNull, isFalse]
  | none | some .null | some (.bool _) | some (.num _) | some (.str _) | some (.arr _) => rfl

theorem markValue_dropNull (attrs : Option JsonValue) : markValue (dropNull attrs) = markValue attrs := by
  match attrs with
  | some (.obj fields) =>
    by_cases hnil : withoutNull fields = []
    · simp [markValue, dropNull, hnil]
    · simp [markValue, dropNull, hnil, withoutNull_withoutNull]
  | none | some .null | some (.bool _) | some (.num _) | some (.str _) | some (.arr _) => rfl

theorem marksToAttributes_eq (marks : Option (List Mark)) : marksToAttributes marks =
    nonEmpty (KeyedMap.ofList Mark.type (fun m => markValue m.attrs) (marks.getD [])).entries := by
  match marks with
  | none | some [] => rfl
  | some (m :: ms) =>
    obtain ⟨d, -, -, hget⟩ := KeyedMap.exists_get_ofList Mark.type (fun m => markValue m.attrs)
      (List.mem_cons_self (a := m) (l := ms))
    have hmem := KeyedMap.mem_iff.2 hget
    simp only [marksToAttributes, Option.getD_some]
    cases hentries : (KeyedMap.ofList Mark.type (fun m => markValue m.attrs) (m :: ms)).entries with
    | nil =>
      rw [hentries] at hmem
      cases hmem
    | cons e rest => rfl

theorem attributesToMarks_marksToAttributes (marks : Option (List Mark)) :
    attributesToMarks (marksToAttributes marks) = nonEmpty (strippedMarks marks) := by
  have hentries := congrArg KeyedMap.entries
    (KeyedMap.map_ofList Mark.type Mark.attrs markValue (marks.getD []))
  have hstripped := congrArg KeyedMap.entries
    (KeyedMap.map_ofList Mark.type Mark.attrs dropNull (marks.getD []))
  rw [marksToAttributes_eq, attributesToMarks, nonEmpty_getD, strippedMarks, ← hentries, ← hstripped]
  simp only [KeyedMap.map, List.map_map]
  rw [List.filter_eq_self.2]
  · rw [List.map_map]
    exact congrArg nonEmpty (List.map_congr_left fun e _ => toMark_markValue e.1 e.2)
  · rw [List.forall_mem_map]
    exact fun e _ => markValue_shown e.2

theorem marksToAttributes_stripped (marks : Option (List Mark)) :
    marksToAttributes (nonEmpty (strippedMarks marks)) = marksToAttributes marks := by
  have hentries := congrArg KeyedMap.entries
    (KeyedMap.map_ofList Mark.type (fun m => dropNull m.attrs) markValue (marks.getD []))
  have hnodup : ((strippedMarks marks).map Mark.type).Nodup := by
    rw [strippedMarks, List.map_map]
    exact (KeyedMap.ofList Mark.type (fun m => dropNull m.attrs) (marks.getD [])).nodup
  simp only [markValue_dropNull] at hentries
  rw [marksToAttributes_eq, marksToAttributes_eq, nonEmpty_getD, KeyedMap.entries_ofList hnodup, ← hentries,
    strippedMarks, List.map_map]
  rfl

theorem childrenToPm_append (l l' : List TreeElementChildInit) :
    childrenToPm (l ++ l') = childrenToPm l ++ childrenToPm l' := by
  induction l with
  | nil => rfl
  | cons child rest ih => rw [List.cons_append, childrenToPm, childrenToPm, ih, List.append_assoc]

theorem childrenToPm_flush (run : RichTextDelta) : childrenToPm (flush run) = run.filterMap opToPm := by
  rw [flush]
  split
  · rename_i hrun
    rw [hrun]
    rfl
  · rw [childrenToPm, childToPm, childrenToPm, List.append_nil]

theorem opToPm_insert (c : Nat) (text : List Nat) (marks : Option (List Mark)) :
    opToPm (.insert (c :: text) (marksToAttributes marks)) =
      some (.node textType none none (nonEmpty (strippedMarks marks)) (some (c :: text))) := by
  rw [opToPm, attributesToMarks_marksToAttributes]
  simp

mutual
theorem initToPm_pmToInit : ∀ n : PmJson, initToPm (pmToInit n) = stripped n
  | .node type attrs content marks text => by
    rw [pmToInit, initToPm, stripped, childrenToPm_content content]
    rfl

theorem childrenToPm_content : ∀ content : Option (List PmJson),
    childrenToPm (pmContentToInit content) = strippedContent content
  | none => rfl
  | some content => by
    rw [pmContentToInit, strippedContent, childrenToPm_children [] content]
    rfl

theorem childrenToPm_children (run : RichTextDelta) : ∀ content : List PmJson,
    childrenToPm (pmChildrenToInit run content) = run.filterMap opToPm ++ strippedChildren content
  | [] => by rw [pmChildrenToInit, strippedChildren, List.append_nil, childrenToPm_flush]
  | child :: rest => by
    rw [pmChildrenToInit, strippedChildren]
    split
    · rw [strippedText]
      split
      · exact childrenToPm_children run rest
      · exact childrenToPm_children run rest
      · rename_i text hne htext
        obtain _ | ⟨c, text⟩ := text
        · exact absurd rfl hne
        · rw [childrenToPm_children _ rest, List.filterMap_append, List.filterMap_cons, opToPm_insert,
            List.filterMap_nil, List.append_assoc]
    · rw [childrenToPm_append, childrenToPm_flush, childrenToPm, childrenToPm_children [] rest]
      have hchild : childToPm (pmToInit child).child = [initToPm (pmToInit child)] := by
        rw [TreeElementInit.child, childToPm, initToPm]
      rw [hchild, initToPm_pmToInit child]
      rfl
end

theorem stripped_type (n : PmJson) : (stripped n).type = n.type := by
  obtain ⟨type, attrs, content, marks, text⟩ := n
  rfl

mutual
theorem pmToInit_stripped : ∀ n : PmJson, pmToInit (stripped n) = pmToInit n
  | .node type attrs content marks text => by
    rw [stripped, elementToPm, pmToInit, pmToInit, cleanAttrs, cleanAttrs, nonEmpty_getD, withoutNull_withoutNull,
      pmContentToInit_stripped content]

theorem pmContentToInit_stripped : ∀ content : Option (List PmJson),
    pmContentToInit (nonEmpty (strippedContent content)) = pmContentToInit content
  | none => rfl
  | some content => by
    have hchildren := pmChildrenToInit_stripped [] content
    rw [strippedContent, pmContentToInit, ← hchildren]
    cases strippedChildren content with
    | nil => rfl
    | cons child rest => rfl

theorem pmChildrenToInit_stripped (run : RichTextDelta) : ∀ content : List PmJson,
    pmChildrenToInit run (strippedChildren content) = pmChildrenToInit run content
  | [] => rfl
  | child :: rest => by
    rw [strippedChildren, pmChildrenToInit]
    split
    · rw [strippedText]
      split
      · exact pmChildrenToInit_stripped run rest
      · exact pmChildrenToInit_stripped run rest
      · rename_i text hne htext
        obtain _ | ⟨c, text⟩ := text
        · exact absurd rfl hne
        · rw [List.cons_append, List.nil_append, pmChildrenToInit, ← pmChildrenToInit_stripped _ rest]
          simp only [PmJson.type, PmJson.text, PmJson.marks, marksToAttributes_stripped, if_pos]
    · rename_i htype
      rw [pmChildrenToInit, stripped_type, if_neg htype, pmToInit_stripped child, pmChildrenToInit_stripped [] rest]
end

def PlainAttrs (attrs : Option Attributes) : Prop := ∀ a ∈ attrs, a ≠ [] ∧ ∀ e ∈ a, e.2 ≠ .null

def PlainMark (m : Mark) : Prop := ∀ v ∈ m.attrs, ∃ fields, v = .obj fields ∧ PlainAttrs (some fields)

structure PlainText (n : PmJson) : Prop where
  text : ∃ text marks, text ≠ [] ∧ n = .node textType none none marks (some text)
  marks : ∀ marks ∈ n.marks, marks ≠ [] ∧ (marks.map Mark.type).Nodup ∧ ∀ m ∈ marks, PlainMark m

mutual
/-- No attribute is null, no text is empty, only texts have marks, and no two of one type. -/
def Plain : PmJson → Prop
  | .node _ attrs content marks text => PlainAttrs attrs ∧ PlainContent content ∧ marks = none ∧ text = none

def PlainContent : Option (List PmJson) → Prop
  | none => True
  | some content => content ≠ [] ∧ PlainChildren content

def PlainChildren : List PmJson → Prop
  | [] => True
  | child :: rest => (if child.type = textType then PlainText child else Plain child) ∧ PlainChildren rest
end

theorem withoutNull_eq_self {attrs : Attributes} (h : ∀ e ∈ attrs, e.2 ≠ .null) : withoutNull attrs = attrs := by
  rw [withoutNull, List.filter_eq_self]
  intro e he
  have hne := h e he
  cases hv : e.2 with
  | null => exact absurd hv hne
  | bool _ | num _ | str _ | arr _ | obj _ => rfl

theorem nonEmpty_withoutNull {attrs : Option Attributes} (h : PlainAttrs attrs) :
    nonEmpty (withoutNull (attrs.getD [])) = attrs := by
  match attrs with
  | none => rfl
  | some a =>
    obtain ⟨hne, hnull⟩ := h a rfl
    rw [Option.getD_some, withoutNull_eq_self hnull]
    cases a with
    | nil => exact absurd rfl hne
    | cons e a => rfl

theorem dropNull_eq_self {m : Mark} (h : PlainMark m) : dropNull m.attrs = m.attrs := by
  cases hattrs : m.attrs with
  | none => rfl
  | some v =>
    obtain ⟨fields, rfl, hfields⟩ := h v hattrs
    obtain ⟨hne, hnull⟩ := hfields fields rfl
    rw [dropNull, withoutNull_eq_self hnull, if_neg hne]

theorem strippedText_eq_self {n : PmJson} (h : PlainText n) : strippedText n = [n] := by
  obtain ⟨⟨text, marks, hne, rfl⟩, hmarks⟩ := h
  have hstripped : nonEmpty (strippedMarks marks) = marks := by
    match marks with
    | none => rfl
    | some l =>
      obtain ⟨hl, hnodup, hplain⟩ := hmarks l rfl
      have hall : l.map (fun m => (⟨m.type, dropNull m.attrs⟩ : Mark)) = l := by
        rw [List.map_congr_left (g := id) fun m hm => by rw [dropNull_eq_self (hplain m hm)]; rfl, List.map_id]
      rw [strippedMarks, Option.getD_some, KeyedMap.entries_ofList hnodup, List.map_map]
      have heq := congrArg nonEmpty hall
      cases l with
      | nil => exact absurd rfl hl
      | cons m l => exact heq
  obtain _ | ⟨c, text⟩ := text
  · exact absurd rfl hne
  · simp only [strippedText, PmJson.text, PmJson.marks, hstripped]

mutual
theorem stripped_eq_self : ∀ n : PmJson, Plain n → stripped n = n
  | .node type attrs content marks text, h => by
    obtain ⟨hattrs, hcontent, rfl, rfl⟩ := h
    rw [stripped, elementToPm, nonEmpty_withoutNull hattrs, strippedContent_eq_self content hcontent]

theorem strippedContent_eq_self : ∀ content : Option (List PmJson), PlainContent content →
    nonEmpty (strippedContent content) = content
  | none, _ => rfl
  | some content, h => by
    rw [strippedContent, strippedChildren_eq_self content h.2]
    cases content with
    | nil => exact absurd rfl h.1
    | cons child rest => rfl

theorem strippedChildren_eq_self : ∀ content : List PmJson, PlainChildren content →
    strippedChildren content = content
  | [], _ => rfl
  | child :: rest, h => by
    have hrest := strippedChildren_eq_self rest h.2
    have hchild := h.1
    rw [strippedChildren, hrest]
    split
    · rename_i htype
      rw [if_pos htype] at hchild
      rw [strippedText_eq_self hchild]
      rfl
    · rename_i htype
      rw [if_neg htype] at hchild
      rw [stripped_eq_self child hchild]
end

/-- A page comes back from the shared tree as it was, but for attributes that are null, marks of nodes that are no
texts, and all but one of the marks of a type; and what the tree holds of a page comes back to it unchanged. -/
theorem page_round_trip :
    (∀ n : PmJson, initToPm (pmToInit n) = stripped n) ∧
      (∀ n : PmJson, Plain n → initToPm (pmToInit n) = n) ∧
      ∀ init : TreeElementInit, init ∈ Set.range pmToInit → pmToInit (initToPm init) = init := by
  refine ⟨initToPm_pmToInit, fun n h => ?_, ?_⟩
  · rw [initToPm_pmToInit, stripped_eq_self n h]
  · rintro _ ⟨n, rfl⟩
    rw [initToPm_pmToInit, pmToInit_stripped]

/-- A paragraph with an attribute that is null comes back without it. -/
theorem null_attribute_lost :
    let n : PmJson := .node "paragraph".toList (some [("align".toList, .null)]) none none none
    initToPm (pmToInit n) = .node "paragraph".toList none none none none ∧ initToPm (pmToInit n) ≠ n := by
  intro n
  have h : initToPm (pmToInit n) = .node "paragraph".toList none none none none := rfl
  refine ⟨h, ?_⟩
  intro heq
  injection heq with _ hattrs
  cases hattrs

end Savoire.Page
