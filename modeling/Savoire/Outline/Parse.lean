import Savoire.Library.NearestSmaller

/-! An outline as a Markdown list: its lines, its items, and what each item holds. A text is its UTF-16 units. -/
namespace Savoire.Outlines
open NearestSmaller

abbrev Units := List Nat

def indentUnit : Nat := 2

def isBlank (c : Nat) : Bool := c == 32 || c == 9

/-- What `trim` takes off. -/
def isSpace (c : Nat) : Bool :=
  c == 0x20 || (0x9 ≤ c && c ≤ 0xD) || c == 0xA0 || c == 0x1680 || (0x2000 ≤ c && c ≤ 0x200A) || c == 0x2028 ||
    c == 0x2029 || c == 0x202F || c == 0x205F || c == 0x3000 || c == 0xFEFF

def isEmpty (t : Units) : Bool := t.all isSpace

def columns (ws : Units) : Nat := ws.foldl (fun n c => n + if c = 9 then indentUnit else 1) 0

structure ItemMatch where
  indentText : Units
  bullet : Nat
  box : Option Units
  length : Nat

/-- `(\[[ xX]\](?: |$))?` -/
def boxRe : Units → Option Units
  | 91 :: c :: 93 :: rest =>
    if c = 32 ∨ c = 120 ∨ c = 88 then
      match rest with
      | [] => some [91, c, 93]
      | 32 :: _ => some [91, c, 93, 32]
      | _ => none
    else none
  | _ => none

/-- `ITEM_RE` -/
def itemRe (t : Units) : Option ItemMatch :=
  let indentText := t.takeWhile isBlank
  match t.dropWhile isBlank with
  | [] => none
  | bullet :: rest =>
    if bullet = 45 ∨ bullet = 42 ∨ bullet = 43 then
      match rest with
      | [] => some ⟨indentText, bullet, none, indentText.length + 1⟩
      | 32 :: rest =>
        let box := boxRe rest
        some ⟨indentText, bullet, box, indentText.length + 2 + (box.getD []).length⟩
      | _ => none
    else none

/-- `from` and `to` of the source are `start` and `stop`. -/
structure OutlineLine where
  start : Nat
  stop : Nat
  text : Units

/-- `from`, `to` and `end` of the source are `start`, `stop` and `last`; no parent is -1 there. -/
structure OutlineItem where
  index : Nat
  line : Nat
  start : Nat
  stop : Nat
  indent : Nat
  indentText : Units
  bullet : Nat
  checked : Option Bool
  contentFrom : Nat
  endLine : Nat
  last : Nat
  parent : Option Nat
  children : List Nat
  depth : Nat

structure Outline where
  text : Units
  lines : List OutlineLine
  items : List OutlineItem
  owner : List (Option Nat)
  itemAtLine : List (Option Nat)
  roots : List Nat

def outlineLines : Nat → List Units → List OutlineLine
  | _, [] => []
  | start, t :: rest => ⟨start, start + t.length, t⟩ :: outlineLines (start + t.length + 1) rest

structure Parsing where
  items : List OutlineItem
  owner : List (Option Nat)
  itemAtLine : List (Option Nat)
  roots : List Nat
  /-- Its top first. -/
  stack : List Nat

/-- `while (end > it.line && lines[end].text.trim() === '') end--` -/
def lastText (lines : List OutlineLine) (line : Nat) : Nat → Nat
  | 0 => 0
  | e + 1 => if line < e + 1 ∧ lines[e + 1]?.any (fun l => isEmpty l.text) then lastText lines line e else e + 1

def close (lines : List OutlineLine) (lastLine : Nat) (it : OutlineItem) : OutlineItem :=
  let e := lastText lines it.line (max it.line lastLine)
  { it with endLine := e, last := (lines[e]?.map OutlineLine.stop).getD 0 }

def indentOf (items : List OutlineItem) (idx : Nat) : Nat := (items[idx]?.map OutlineItem.indent).getD 0

/-- The items on top of the stack that are not left of the new one are closed. -/
def popWhile (lines : List OutlineLine) (indent lastLine : Nat) :
    List Nat → List OutlineItem → List Nat × List OutlineItem
  | [], items => ([], items)
  | idx :: stack, items =>
    if indent ≤ indentOf items idx then popWhile lines indent lastLine stack (items.modify idx (close lines lastLine))
    else (idx :: stack, items)

def newItem (items : List OutlineItem) (stack : List Nat) (l : OutlineLine) (i : Nat) (m : ItemMatch) :
    OutlineItem where
  index := items.length
  line := i
  start := l.start
  stop := l.stop
  indent := columns m.indentText
  indentText := m.indentText
  bullet := m.bullet
  checked := m.box.map fun box => box[1]? != some 32
  contentFrom := l.start + m.length
  endLine := i
  last := l.stop
  parent := stack.head?
  children := []
  depth := stack.length

def pushItem (items : List OutlineItem) (new : OutlineItem) : List OutlineItem :=
  match new.parent with
  | some p => (items ++ [new]).modify p fun it => { it with children := it.children ++ [items.length] }
  | none => items ++ [new]

def addLine (lines : List OutlineLine) (s : Parsing) (l : OutlineLine) (i : Nat) : Parsing :=
  match itemRe l.text with
  | none =>
    { s with
      owner := s.owner ++ [if s.items.length = 0 then none else some (s.items.length - 1)]
      itemAtLine := s.itemAtLine ++ [none] }
  | some m =>
    let (stack, items) := popWhile lines (columns m.indentText) (i - 1) s.stack s.items
    let new := newItem items stack l i m
    { items := pushItem items new
      roots := match new.parent with
        | some _ => s.roots
        | none => s.roots ++ [items.length]
      stack := items.length :: stack
      owner := s.owner ++ [some items.length]
      itemAtLine := s.itemAtLine ++ [some items.length] }

def closeAll (lines : List OutlineLine) (lastLine : Nat) (stack : List Nat) (items : List OutlineItem) :
    List OutlineItem :=
  stack.foldl (fun items idx => items.modify idx (close lines lastLine)) items

def readLines (lines : List OutlineLine) : Parsing :=
  lines.zipIdx.foldl (fun s l => addLine lines s l.1 l.2) ⟨[], [], [], [], []⟩

/-- The lines of a text, the items found in one pass over them, the open ones closed at the end. -/
def parseLines (texts : List Units) : Outline :=
  let lines := outlineLines 0 texts
  let s := readLines lines
  { text := [10].intercalate texts
    lines := lines
    items := closeAll lines (lines.length - 1) s.stack s.items
    owner := s.owner
    itemAtLine := s.itemAtLine
    roots := s.roots }

def parseOutline (text : Units) : Outline := { parseLines (text.splitOn 10) with text := text }

def ascii (s : String) : Units := s.toList.map Char.toNat

example : (parseOutline (ascii "- a\n    - b\n  - c\n- [x] d")).items.map
    (fun it => (it.indent, it.parent, it.endLine)) = [(0, none, 2), (4, some 0, 1), (2, some 0, 2), (0, none, 3)] := by
  decide

end Savoire.Outlines
