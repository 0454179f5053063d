import Savoire.Index.Paths
import Savoire.Library.KeyedMap

/-! The frontmatter of a note, the YAML block at its top, and the values that are read in it. -/
namespace Savoire.Frontmatter
open VaultIndex

/-- `Number` and `String` of the host on numbers, zero without its sign. -/
structure Numbers (ν : Type) where
  read : Text → ν
  print : ν → Text
  isFinite : ν → Bool

inductive Scalar (ν : Type)
  | text (s : Text)
  | number (n : ν)
  | bool (b : Bool)
  | null
  deriving DecidableEq

inductive FrontmatterValue (ν : Type)
  | scalar (v : Scalar ν)
  | list (items : List Text)
  deriving DecidableEq

/-- Where `^` and `$` see an end of line, and what `.` is not. -/
def isTerminator (c : Char) : Bool := c == '\n' || c == '\r' || c.toNat == 0x2028 || c.toNat == 0x2029

/-- `[ \t]` -/
def isBlank (c : Char) : Bool := c == ' ' || c == '\t'

/-- What follows `\r?\n`. -/
def newline? : Text → Option Text
  | '\n' :: rest => some rest
  | '\r' :: '\n' :: rest => some rest
  | _ => none

/-- What follows `(?:\r?\n|$)`. -/
def lineEnd? (t : Text) : Option Text := match newline? t with
  | some rest => some rest
  | none => if t.head?.all isTerminator then some t else none

/-- What follows `(?:---|\.\.\.)[ \t]*(?:\r?\n|$)`. -/
def fence? (t : Text) : Option Text :=
  if t.take 3 = "---".toList ∨ t.take 3 = "...".toList then lineEnd? ((t.drop 3).dropWhile isBlank) else none

/-- `([\s\S]*?)(?:\r?\n)?^` and the fence, from a place that is at the start of a line or not: what is
before and what follows the fence. -/
def findClose : Bool → Text → Option (Text × Text)
  | _, [] => none
  | lineStart, c :: rest => match (newline? (c :: rest)).bind fence? with
    | some after => some ([], after)
    | none => match if lineStart then fence? (c :: rest) else none with
      | some after => some ([], after)
      | none => (findClose (isTerminator c) rest).map fun b => (c :: b.1, b.2)

/-- What follows `^---[ \t]*\r?\n`. -/
def afterOpen? (t : Text) : Option Text :=
  if t.take 3 = "---".toList then newline? ((t.drop 3).dropWhile isBlank) else none

structure FrontmatterBlock where
  yaml : Text
  stop : Nat
  deriving DecidableEq

/-- `start` is 0; `end` is `stop` here. -/
def findFrontmatter (markdown : Text) : Option FrontmatterBlock :=
  (afterOpen? markdown).bind fun inside => (findClose true inside).map fun b =>
    ⟨b.1, markdown.length - b.2.length⟩

def stripFrontmatter (markdown : Text) : Text := match findFrontmatter markdown with
  | some block => markdown.drop block.stop
  | none => markdown

/-- `replace(/\\(["\\nt])/g, ...)` -/
def unescape : Text → Text
  | '\\' :: 'n' :: rest => '\n' :: unescape rest
  | '\\' :: 't' :: rest => '\t' :: unescape rest
  | '\\' :: '\\' :: rest => '\\' :: unescape rest
  | '\\' :: '"' :: rest => '"' :: unescape rest
  | c :: rest => c :: unescape rest
  | [] => []

/-- `replace(/''/g, "'")` -/
def undouble : Text → Text
  | '\'' :: '\'' :: rest => '\'' :: undouble rest
  | c :: rest => c :: undouble rest
  | [] => []

/-- The text starts and ends with this quote. -/
def isQuotedBy (q : Char) (s : Text) : Bool := 2 ≤ s.length && s.head? == some q && s.getLast? == some q

def unquote (s : Text) : Option Text :=
  if isQuotedBy '"' s then some (unescape s.tail.dropLast)
  else if isQuotedBy '\'' s then some (undouble s.tail.dropLast)
  else none

def startsWithQuote (s : Text) : Bool := s.head? == some '"' || s.head? == some '\''

/-- `s.search(/\s#/)` -/
def searchComment : Text → Option Nat
  | [] => none
  | c :: rest => if isJsSpace c && rest.head? == some '#' then some 0 else (searchComment rest).map (· + 1)

def stripComment (s : Text) : Text :=
  if startsWithQuote s then s
  else match searchComment s with
    | none => s
    | some i => (s.take i).rdropWhile isJsSpace

/-- `[-+]?` taken off. -/
def unsign : Text → Text
  | '-' :: rest => rest
  | '+' :: rest => rest
  | s => s

/-- What follows `\d+\.?\d*|\.\d+`. -/
def mantissa? (s : Text) : Option Text :=
  match s.takeWhile Char.isDigit, s.dropWhile Char.isDigit with
  | _ :: _, '.' :: rest => some (rest.dropWhile Char.isDigit)
  | _ :: _, rest => some rest
  | [], '.' :: rest => if rest.takeWhile Char.isDigit = [] then none else some (rest.dropWhile Char.isDigit)
  | [], _ => none

/-- `([eE][-+]?\d+)?$` -/
def isExponent : Text → Bool
  | [] => true
  | c :: rest => (c == 'e' || c == 'E') && unsign rest ≠ [] && (unsign rest).all Char.isDigit

def isNumeric (s : Text) : Bool := (mantissa? (unsign s)).any isExponent

variable {ν : Type} (numbers : Numbers ν)

def parseScalar (raw : Text) : Scalar ν :=
  let s := stripComment (jsTrim raw)
  match unquote s with
  | some quoted => .text quoted
  | none =>
    if s ∈ ["".toList, "~".toList, "null".toList, "Null".toList, "NULL".toList] then .null
    else if s ∈ ["true".toList, "True".toList, "TRUE".toList] then .bool true
    else if s ∈ ["false".toList, "False".toList, "FALSE".toList] then .bool false
    else if isNumeric s then .number (numbers.read s)
    else .text s

/-- `String(v)`; nothing for null. -/
def Scalar.toText : Scalar ν → Option Text
  | .text s => some s
  | .number n => some (numbers.print n)
  | .bool true => some "true".toList
  | .bool false => some "false".toList
  | .null => none

def listItem (raw : Text) : Option Text := (parseScalar numbers raw).toText numbers

/-- The loop of `splitInlineList`, in a quote or not. -/
def splitFrom : Option Char → Text → Text → List Text
  | _, cur, [] => [cur]
  | some quote, cur, c :: rest => splitFrom (if c = quote then none else some quote) (cur ++ [c]) rest
  | none, cur, c :: rest =>
    if c = '"' ∨ c = '\'' then splitFrom (some c) (cur ++ [c]) rest
    else if c = ',' then cur :: splitFrom none [] rest
    else splitFrom none (cur ++ [c]) rest

def splitInlineList (inner : Text) : List Text := ((splitFrom none [] inner).map jsTrim).filter (· ≠ [])

/-- `(?:\s+(.*)|\s*)$` on the whole text: what `(.*)` is, if it takes part. -/
def afterMark? (t : Text) : Option (Option Text) :=
  match t with
  | [] => some none
  | c :: _ =>
    let v := t.dropWhile isJsSpace
    if isJsSpace c && v.all fun c => !isTerminator c then some (some v) else none

/-- `^([^\s:#-][^:]*?):` and what follows. -/
def bareKey? : Text → Option (Text × Option Text)
  | [] => none
  | c :: rest =>
    if isJsSpace c || c == ':' || c == '#' || c == '-' then none
    else match rest.dropWhile (· ≠ ':') with
      | [] => none
      | _ :: t => (afterMark? t).map fun v => (c :: rest.takeWhile (· ≠ ':'), v)

/-- `^("[^"]+"):` and what follows, for a quote or the other. -/
def quotedKey? (q : Char) : Text → Option (Text × Option Text)
  | [] => none
  | c :: rest =>
    if c = q ∧ rest.takeWhile (· ≠ q) ≠ [] then
      match rest.dropWhile (· ≠ q) with
      | _ :: ':' :: t => (afterMark? t).map fun v => (q :: (rest.takeWhile (· ≠ q) ++ [q]), v)
      | _ => none
    else none

/-- `KEY_LINE`: the key as it stands, quotes included, and the text after the colon. -/
def keyLine (line : Text) : Option (Text × Option Text) :=
  (bareKey? line).or ((quotedKey? '"' line).or (quotedKey? '\'' line))

/-- `/^\s*-\s+(.*)$/.exec(line) ?? /^\s*-$/.exec(line)`: the item, empty in the second case. -/
def item? (line : Text) : Option Text := match line.dropWhile isJsSpace with
  | '-' :: t => (afterMark? t).map fun v => v.getD []
  | _ => none

/-- A line without its `\r`. -/
def stripCr (line : Text) : Text := if line.getLast? = some '\r' then line.dropLast else line

/-- Between `\n`s: the `\r` before each goes. -/
def cutLines : List Text → List Text
  | [] => []
  | [last] => [last]
  | line :: rest => stripCr line :: cutLines rest

/-- `yaml.split(/\r?\n/)` -/
def splitLines (yaml : Text) : List Text := cutLines (yaml.splitOn '\n')

/-- An empty line or a comment. -/
def isSkipped (line : Text) : Bool := jsTrim line == [] || (line.dropWhile isJsSpace).head? == some '#'

/-- The key that the reader takes for a token of `KEY_LINE`. -/
def parseKey (token : Text) : Text := (unquote token).getD (jsTrim token)

/-- The own properties of the result; an assignment to `__proto__` makes none. -/
abbrev Props (ν : Type) := KeyedMap Text (FrontmatterValue ν)

def assign (props : Props ν) (key : Text) (value : FrontmatterValue ν) : Props ν :=
  if key = "__proto__".toList then props else props.set key value

structure Reading (ν : Type) where
  props : Props ν
  listKey : Option Text

def addItem (props : Props ν) (key raw : Text) : Props ν :=
  let items := match props.get key with
    | some (.list items) => items
    | _ => []
  assign props key (.list (items ++ (listItem numbers raw).toList))

/-- What a line of a key gives: none for the blocks that are not read. -/
def readValue (value : Text) : Option (FrontmatterValue ν) :=
  if value = [] then some (.scalar .null)
  else if value = "[]".toList then some (.list [])
  else if value.head? = some '[' ∧ value.getLast? = some ']' then
    some (.list ((splitInlineList value.tail.dropLast).filterMap (listItem numbers)))
  else if value.head? = some '|' ∨ value.head? = some '>' then none
  else some (.scalar (parseScalar numbers value))

/-- A line at the left margin: the list under way is over. -/
def readKeyLine (props : Props ν) (line : Text) : Reading ν := match keyLine line with
  | none => ⟨props, none⟩
  | some (token, inline) =>
    let key := parseKey token
    let value := jsTrim (inline.getD [])
    match readValue numbers value with
    | none => ⟨props, none⟩
    | some v => ⟨assign props key v, if value = [] then some key else none⟩

def readLine (r : Reading ν) (line : Text) : Reading ν :=
  if isSkipped line then r
  else match r.listKey.filter (· ≠ []), item? line with
    | some key, some raw => { r with props := addItem numbers r.props key raw }
    | _, _ => if line.head?.any isJsSpace then r else readKeyLine numbers r.props line

def parseFrontmatterYaml (yaml : Text) : Props ν :=
  ((splitLines yaml).foldl (readLine numbers) ⟨.empty, none⟩).props

def parseFrontmatter (markdown : Text) : Props ν := match findFrontmatter markdown with
  | some block => parseFrontmatterYaml numbers block.yaml
  | none => .empty

end Savoire.Frontmatter
