import Mathlib
import Savoire.Outline.Tree

/-! Indenting, outdenting and moving the item at the cursor: line by line, from the parsed outline. -/
namespace Savoire.Outlines
open NearestSmaller

structure OutlineEdit where
  text : Units
  anchor : Nat
  head : Nat
  deriving DecidableEq

/-- What an operation gives: `null` where it does not apply, or the exception of a line that is not there. -/
inductive Outcome
  | null
  | edit (e : OutlineEdit)
  | typeError
  deriving DecidableEq

/-- The loop of `lineOf`, with a turn for every line. -/
def search (lines : List OutlineLine) (pos : Nat) : Nat → Nat → Nat → Nat
  | 0, lo, _ => lo
  | turns + 1, lo, hi =>
    if lo < hi then
      let mid := (lo + hi + 1) / 2
      if lines[mid]?.all (fun l => l.start ≤ pos) then search lines pos turns mid hi
      else search lines pos turns lo (mid - 1)
    else lo

def lineOf (o : Outline) (pos : Nat) : Nat := search o.lines pos o.lines.length 0 (o.lines.length - 1)

def itemOwning (o : Outline) (pos : Nat) : Option OutlineItem := o.owner[lineOf o pos]?.join.bind (o.items[·]?)

def siblingsOf (o : Outline) (it : OutlineItem) : List Nat :=
  match it.parent with
  | some p => (o.items[p]?.map OutlineItem.children).getD []
  | none => o.roots

/-- `sibs[k - 1]` -/
def previousSibling (o : Outline) (it : OutlineItem) : Option OutlineItem :=
  match (siblingsOf o it).idxOf? it.index with
  | some (k + 1) => (siblingsOf o it)[k]?.bind (o.items[·]?)
  | _ => none

/-- `sibs[k + 1]` -/
def nextSibling (o : Outline) (it : OutlineItem) : Option OutlineItem :=
  match (siblingsOf o it).idxOf? it.index with
  | some k => (siblingsOf o it)[k + 1]?.bind (o.items[·]?)
  | none => none

def parentItem (o : Outline) (it : OutlineItem) : Option OutlineItem := it.parent.bind (o.items[·]?)

def joinLines (lines : List Units) : Units := [10].intercalate lines

def offsetOf (lines : List Units) (line : Nat) (col : Int) : Nat :=
  ((lines.take line).map fun l => l.length + 1).sum + (max 0 (min col ((lines[line]?.map List.length).getD 0))).toNat

def caret (lines : List Units) (line : Nat) (col : Int) : Outcome :=
  if line < lines.length then
    let pos := offsetOf lines line col
    .edit ⟨joinLines lines, pos, pos⟩
  else .typeError

def slice (lines : List Units) (i j : Nat) : List Units := (lines.take j).drop i

/-- The line without up to `cols` columns of its indentation, and how many characters were taken off. -/
def stripColumns : Units → Nat → Units × Nat
  | [], _ => ([], 0)
  | c :: line, cols =>
    if 0 < cols ∧ isBlank c = true then
      let (s, removed) := stripColumns line (cols - if c = 9 then indentUnit else 1)
      (s, removed + 1)
    else (c :: line, 0)

def Outline.texts (o : Outline) : List Units := o.lines.map OutlineLine.text

/-- `pos - o.lines[li].from` -/
def column (o : Outline) (pos li : Nat) : Int := pos - ((o.lines[li]?.map OutlineLine.start).getD 0 : Nat)

def childUnit (o : Outline) (prev : OutlineItem) : Nat :=
  let unit := match prev.children.head?.bind (o.items[·]?) with
    | some c => c.indent - prev.indent
    | none => indentUnit
  if 0 < unit then unit else indentUnit

def padLine (unit : Nat) (l : Units) : Units := if isEmpty l then l else List.replicate unit 32 ++ l

def indentItem (text : Units) (pos : Nat) : Outcome :=
  let o := parseOutline text
  let li := lineOf o pos
  match itemOwning o pos with
  | none => .null
  | some it =>
    match previousSibling o it with
    | none => .null
    | some prev =>
      let unit := childUnit o prev
      let lines := o.texts.mapIdx fun i l => if it.line ≤ i ∧ i ≤ it.endLine then padLine unit l else l
      let moved := decide (li ≤ it.endLine) && !(isEmpty ((o.texts[li]?).getD []))
      caret lines li (column o pos li + if moved then (unit : Int) else 0)

def dedentItem (text : Units) (pos : Nat) : Outcome :=
  let o := parseOutline text
  let li := lineOf o pos
  match itemOwning o pos with
  | none => .null
  | some it =>
    match parentItem o it with
    | none => .null
    | some parent =>
      let delta := it.indent - parent.indent
      let block := (slice o.texts it.line (it.endLine + 1)).map fun l => (stripColumns l delta).1
      let removed := if li ≤ it.endLine then (stripColumns ((o.texts[li]?).getD []) delta).2 else 0
      let before := slice o.texts 0 it.line
      let middle := slice o.texts (it.endLine + 1) (parent.endLine + 1)
      let after := o.texts.drop (parent.endLine + 1)
      let cursorLine := if li ≤ it.endLine then before.length + middle.length + (li - it.line) else li
      caret (before ++ middle ++ block ++ after) cursorLine (column o pos li - (removed : Int))

inductive Direction
  | up | down
  deriving DecidableEq

def moveItem (text : Units) (pos : Nat) (dir : Direction) : Outcome :=
  let o := parseOutline text
  let li := lineOf o pos
  match itemOwning o pos with
  | none => .null
  | some it =>
    let other := match dir with
      | .up => previousSibling o it
      | .down => nextSibling o it
    match other with
    | none => .null
    | some other =>
      let first := match dir with
        | .up => other
        | .down => it
      let second := match dir with
        | .up => it
        | .down => other
      let a := slice o.texts first.line (first.endLine + 1)
      let gap := slice o.texts (first.endLine + 1) second.line
      let b := slice o.texts second.line (second.endLine + 1)
      let rel := li - it.line
      let newLine := match dir with
        | .up => first.line + rel
        | .down => first.line + b.length + gap.length + rel
      caret (slice o.texts 0 first.line ++ b ++ gap ++ a ++ o.texts.drop (second.endLine + 1)) newLine (column o pos li)

example : moveItem (ascii "- a\n- b") 2 .down = .edit ⟨ascii "- b\n- a", 6, 6⟩ := by decide

/-- The caret of an empty line below the last item has no line to go to. -/
example : moveItem (ascii "- a\n\n- b") 4 .down = .typeError := by decide

end Savoire.Outlines
