import Mathlib
import Savoire.Frontmatter.Parse

/-! Edits of the frontmatter of a note: the entries that the scanner finds, the values as they are written,
and the new text of the note. -/
namespace Savoire.Frontmatter
open VaultIndex

/-- An entry by its positions in the note. `end` of the source is `stop`. -/
structure Entry where
  key : Text
  keyStart : Nat
  keyEnd : Nat
  lineStart : Nat
  inline : Text
  stop : Nat
  itemPrefix : Option Text
  deriving DecidableEq

structure Scan where
  yamlStart : Nat
  yamlEnd : Nat
  blockEnd : Nat
  eol : Text
  entries : List Entry
  deriving DecidableEq

def lf : Text := ['\n']
def crlf : Text := ['\r', '\n']

def eolOf (text : Text) : Text := if crlf <:+: text then crlf else lf

variable {ν : Type} (numbers : Numbers ν)

def readKey (token : Text) : Text :=
  if startsWithQuote token then ((parseScalar numbers token).toText numbers).getD "null".toList else jsTrim token

/-- `/^-(\s|$)/` -/
def isDash : Text → Bool
  | '-' :: rest => rest.head?.all isJsSpace
  | _ => false

/-- A line that goes on with the current entry. -/
def isContinuation (line : Text) : Bool :=
  jsTrim line != [] && line.head? != some '#' && (line.head?.any isJsSpace || isDash line)

/-- `/^(\s*-\s+)/` -/
def itemMark? (line : Text) : Option Text := match line.dropWhile isJsSpace with
  | '-' :: t => if t.takeWhile isJsSpace = [] then none
    else some (line.takeWhile isJsSpace ++ '-' :: t.takeWhile isJsSpace)
  | _ => none

def Entry.extend (e : Entry) (stop : Nat) (line : Text) : Entry :=
  { e with
    stop := stop
    itemPrefix := if e.itemPrefix = none ∧ e.inline = [] then itemMark? line else e.itemPrefix }

/-- The entries found so far, the last one first, and whether it is the current one. -/
abbrev Found := List Entry × Bool

/-- One round of the loop of `scan`, on a line that starts at `pos`. -/
def scanLine (pos : Nat) (line : Text) (found : Found) : Found := match keyLine line with
  | some (token, inline) =>
    (⟨readKey numbers token, pos, pos + token.length, pos, jsTrim (inline.getD []), pos + line.length, none⟩ :: found.1,
      true)
  | none => match found with
    | (e :: entries, true) =>
      if isContinuation line then (e.extend (pos + line.length) line :: entries, true)
      else (e :: entries, isSkipped line)
    | found => found

/-- The loop of `scan` over the lines between the `\n`s. -/
def scanLines : Nat → List Text → Found → Found
  | _, [], found => found
  | pos, raw :: rest, found => scanLines (pos + raw.length + 1) rest (scanLine numbers pos (stripCr raw) found)

def scan (markdown : Text) : Option Scan :=
  (findFrontmatter markdown).bind fun block => (afterOpen? markdown).map fun inside =>
    let yamlStart := markdown.length - inside.length
    ⟨yamlStart, yamlStart + block.yaml.length, block.stop, eolOf markdown,
      (scanLines numbers yamlStart (block.yaml.splitOn '\n') ([], false)).1.reverse⟩

def findEntry (s : Scan) (key : Text) : Option Entry := s.entries.reverse.find? fun e => e.key = key

/-- The four replacements of `quote`, on one character. -/
def escapeChar (c : Char) : Text :=
  if c = '\\' then ['\\', '\\'] else if c = '"' then ['\\', '"'] else if c = '\n' then ['\\', 'n']
  else if c = '\t' then ['\\', 't'] else [c]

def quote (s : Text) : Text := '"' :: (s.flatMap escapeChar ++ ['"'])

/-- `/:(\s|$)/` is found. -/
def hasColonEnd : Text → Bool
  | [] => false
  | c :: rest => (c == ':' && rest.head?.all isJsSpace) || hasColonEnd rest

/-- `/^(- |-$|[?:,[\]{}#&*!|>'"%@`])/` -/
def hasMark : Text → Bool
  | [] => false
  | c :: rest => (c == '-' && rest.head?.all (· == ' ')) ||
    [0x3F, 0x3A, 0x2C, 0x5B, 0x5D, 0x7B, 0x7D, 0x23, 0x26, 0x2A, 0x21, 0x7C, 0x3E, 0x27, 0x22, 0x25, 0x40,
      0x60].contains c.toNat

def needsQuotes [DecidableEq ν] (s : Text) (inList : Bool) : Bool :=
  s == [] || s != jsTrim s || s.any (fun c => c == '\n' || c == '\r' || c == '\t') || hasMark s || hasColonEnd s ||
    (searchComment s).isSome || (!inList && parseScalar numbers s != .text s)

def formatYamlScalar [DecidableEq ν] : Scalar ν → Text
  | .null => []
  | .bool b => if b then "true".toList else "false".toList
  | .number n => if numbers.isFinite n then numbers.print n else []
  | .text s => if needsQuotes numbers s false then quote s else s

/-- `/[,[\]{}]/` -/
def isListMark (c : Char) : Bool := [0x2C, 0x5B, 0x5D, 0x7B, 0x7D].contains c.toNat

def formatListItem [DecidableEq ν] (value : Text) (inline : Bool) : Text :=
  if needsQuotes numbers value true || (inline && value.any isListMark) then quote value else value

/-- `/^[^\s:#\-"'][^:]*$/` -/
def isBareKey : Text → Bool
  | [] => false
  | c :: rest => !isJsSpace c && !([':', '#', '-', '"', '\''].contains c) && !(rest.contains ':')

def formatYamlKey (key : Text) : Text :=
  if key ≠ [] ∧ key = jsTrim key ∧ isBareKey key ∧ searchComment key = none then key
  else if '"' ∈ key ∧ '\'' ∉ key then '\'' :: (key ++ ['\''])
  else '"' :: (key.filter (· ≠ '"') ++ ['"'])

def trailingComment (inline : Text) : Text :=
  if startsWithQuote inline then []
  else match searchComment inline with
    | none => []
    | some i => ' ' :: jsTrim (inline.drop i)

/-- The style of the list that is replaced. -/
def wasInline (previous : Option Entry) : Bool :=
  previous.any fun e => e.inline.head? == some '[' && e.inline != "[]".toList

def itemPrefixOf (previous : Option Entry) : Text := (previous.bind Entry.itemPrefix).getD "  - ".toList

def commentOf (previous : Option Entry) : Text := match previous with
  | some e => if e.itemPrefix = none then trailingComment e.inline else []
  | none => []

def formatEntry [DecidableEq ν] (keyToken : Text) (value : FrontmatterValue ν) (eol : Text)
    (previous : Option Entry) : Text := match value with
  | .list [] => keyToken ++ ": []".toList
  | .list items =>
    if wasInline previous then
      keyToken ++ ": [".toList ++ ", ".toList.intercalate (items.map (formatListItem numbers · true)) ++ [']']
    else eol.intercalate ((keyToken ++ [':']) ::
      items.map fun v => itemPrefixOf previous ++ formatListItem numbers v false)
  | .scalar v =>
    let scalar := formatYamlScalar numbers v
    (if scalar = [] then keyToken ++ [':'] else keyToken ++ ": ".toList ++ scalar) ++ commentOf previous

variable [DecidableEq ν]

def setFrontmatterValue (markdown key : Text) (value : FrontmatterValue ν) : Text := match scan numbers markdown with
  | none =>
    let eol := eolOf markdown
    "---".toList ++ eol ++ formatEntry numbers (formatYamlKey key) value eol none ++ eol ++ "---".toList ++ eol ++ markdown
  | some s => match findEntry s key with
    | some entry =>
      let keyToken := (markdown.take entry.keyEnd).drop entry.keyStart
      markdown.take entry.lineStart ++ formatEntry numbers keyToken value s.eol (some entry) ++ markdown.drop entry.stop
    | none =>
      let text := formatEntry numbers (formatYamlKey key) value s.eol none
      if s.yamlEnd = s.yamlStart then markdown.take s.yamlStart ++ text ++ s.eol ++ markdown.drop s.yamlStart
      else markdown.take s.yamlEnd ++ s.eol ++ text ++ markdown.drop s.yamlEnd

omit [DecidableEq ν]

/-- `text.indexOf('\n', start) + 1` -/
def afterNewline (text : Text) (start : Nat) : Nat :=
  if '\n' ∈ text.drop start then start + (text.drop start).idxOf '\n' + 1 else 0

/-- The `\n` before a position, with the `\r` before it. -/
def beforeNewline (text : Text) (stop : Nat) : Nat :=
  (text.take stop).length - ((text.take stop).rtakeWhile (· ≠ '\n')).length - 1

def removedRange (markdown : Text) (s : Scan) (entry : Entry) : Nat × Nat :=
  if entry.stop < s.yamlEnd then (entry.lineStart, afterNewline markdown entry.stop)
  else if s.yamlStart < entry.lineStart then
    let nl := beforeNewline markdown entry.lineStart
    (if 0 < nl ∧ (markdown.take nl).getLast? = some '\r' then nl - 1 else nl, entry.stop)
  else (entry.lineStart, entry.stop)

def removeFrontmatterKey (markdown key : Text) : Text := match scan numbers markdown with
  | none => markdown
  | some s => match findEntry s key with
    | none => markdown
    | some entry =>
      let (start, stop) := removedRange markdown s entry
      let next := markdown.take start ++ markdown.drop stop
      match scan numbers next with
      | some rest => if jsTrim ((next.take rest.yamlEnd).drop rest.yamlStart) = [] then next.drop rest.blockEnd else next
      | none => next

/-- `from` and `to` of the source are `old` and `new`. -/
def renameFrontmatterKey (markdown old new : Text) : Text := match scan numbers markdown with
  | none => markdown
  | some s =>
    if old = new ∨ jsTrim new = [] then markdown
    else if (findEntry s new).isSome then markdown
    else match findEntry s old with
      | none => markdown
      | some entry => markdown.take entry.keyStart ++ formatYamlKey (jsTrim new) ++ markdown.drop entry.keyEnd

def frontmatterKeys (markdown : Text) : List Text := match scan numbers markdown with
  | none => []
  | some s => (s.entries.map Entry.key).foldl (fun keys key => if key ∈ keys then keys else keys ++ [key]) []

end Savoire.Frontmatter
