import Diagram.Yaml
import Diagram.Yaml.Scalar

/-!
# Reading YAML

Reads the first document of a text.  In block style the column of an entry says what it
belongs to; in flow style brackets do.  A node is a key if a colon follows on its line.
-/

namespace Diagram.Yaml

/-- A reader at a place, with the trees that have been given a name so far. -/
structure Reader.State where
  place : Place
  anchors : List (String × Yaml)

abbrev Reader := StateT Reader.State Option

namespace Reader

def place : Reader Place :=
  return (← get).place

def move (p : Place) : Reader Unit :=
  modify fun s => { s with place := p }

def skip (n : Nat) : Reader Unit := do
  move ((← place).skip n)

def peek : Reader (Option Char) :=
  return (← place).rest.head?

def atEnd : Reader Bool :=
  return (← place).rest.isEmpty

def atDocumentEnd : Reader Bool := do
  let p ← place
  return p.rest.isEmpty || p.atMarker

/-- Whether a mark comes next that must be followed by a blank. -/
def atMark (c : Char) : Reader Bool := do
  match (← place).rest with
  | d :: rest => return d = c && startsBlank rest
  | [] => return false

def expect (c : Char) : Reader Unit := do
  if (← peek) = some c then skip 1 else failure

/-- The place after blanks, comments and line breaks.  Tabs count as blanks in flow style, and
elsewhere if `tabs` allows it on the first line. -/
def afterLayout (inFlow : Bool) :
    (cs : List Char) → (line column : Nat) → (tabs comment : Bool) → Place
  | [], line, column, _, _ => ⟨[], line, column⟩
  | c :: cs, line, column, tabs, comment =>
    if c = '\n' then afterLayout inFlow cs (line + 1) 0 inFlow false
    else if comment then afterLayout inFlow cs line (column + 1) tabs true
    else if c = ' ' || (tabs && c = '\t') then afterLayout inFlow cs line (column + 1) tabs false
    else if c = '#' then afterLayout inFlow cs line (column + 1) tabs true
    else ⟨c :: cs, line, column⟩

/-- Skips blanks, comments and line breaks. -/
def layout (inFlow tabs : Bool) : Reader Unit := do
  let p ← place
  move (afterLayout inFlow p.rest p.line p.column (inFlow || tabs) false)

def scalar (plain : Bool) (read : Place → Option (String × Place)) : Reader Yaml := do
  let (text, p) ← read (← place)
  move p
  return .scalar text plain ""

/-- The characters that cannot start a plain scalar by themselves. -/
def indicators : List Char :=
  ['-', '?', ':', ',', '[', ']', '\x7b', '\x7d', '#', '&', '*', '!', '|', '>', '\'', '"', '%',
   '@', '\x60']

def startsPlain (inFlow : Bool) : List Char → Bool
  | [] => false
  | c :: rest =>
    (!isBlank c && c ≠ '\n' && !indicators.contains c) ||
    (c = '-' && !startsBlank rest) ||
    (!inFlow && (c = '?' || c = ':') && !startsBlank rest)

def isNameChar (c : Char) : Bool :=
  c.isAlphanum || c = '_' || c = '-'

def anchorName : Reader String := do
  let p ← place
  let name := p.rest.takeWhile isNameChar
  let rest := p.rest.drop name.length
  let ends := startsBlank rest || (rest.head?.any fun c =>
    ['?', ':', ',', ']', '\x7d', '%', '@', '\x60'].contains c)
  if name.isEmpty || !ends then failure
  skip name.length
  return String.ofList name

def namedTree : Reader Yaml := do
  skip 1
  let name ← anchorName
  match (← get).anchors.find? (·.1 == name) with
  | some (_, y) => return y
  | none => failure

/-- What may stand in front of a node. -/
structure Properties where
  anchor : Option String
  tag : String

/-- Reads an optional name and an optional tag in front of a node. -/
def properties (inFlow : Bool) : (count : Nat) → Reader Properties
  | 0 => return ⟨none, ""⟩
  | count + 1 => do
    match ← peek with
    | some '&' =>
      skip 1
      let name ← anchorName
      skip (((← place).rest.takeWhile isBlank).length)
      let more ← properties inFlow count
      if more.anchor.isSome then failure
      return { more with anchor := some name }
    | some '!' =>
      let tag := (← place).rest.takeWhile fun c =>
        !isBlank c && c ≠ '\n' && !(inFlow && [',', ']', '\x7d'].contains c)
      skip tag.length
      skip (((← place).rest.takeWhile isBlank).length)
      let more ← properties inFlow count
      if !more.tag.isEmpty then failure
      return { more with tag := String.ofList tag }
    | _ => return ⟨none, ""⟩

def Properties.isEmpty (ps : Properties) : Bool :=
  ps.anchor.isNone && ps.tag.isEmpty

def Properties.apply (ps : Properties) (y : Yaml) : Reader Yaml := do
  let y := y.tagged ps.tag
  if let some name := ps.anchor then
    modify fun s => { s with anchors := (name, y) :: s.anchors }
  return y

/-- Whether a colon comes next on the line where a node began. -/
def atColon (inFlow : Bool) (line : Nat) : Reader Bool := do
  let p ← place
  let rest := p.rest.dropWhile isBlank
  match rest with
  | ':' :: after => return p.line = line && (inFlow || startsBlank after)
  | _ => return false

/-- Refuses a colon after a node that is no key, unless it stands no deeper than an indentation
and so belongs to something else. -/
def refuseColon (indent : Int) : Reader Unit := do
  let p ← place
  if (← atColon false p.line) && indent < p.column then failure

/-- Skips blanks and the colon after a key. -/
def colon : Reader Unit := do
  skip (((← place).rest.takeWhile isBlank).length)
  expect ':'

mutual

/-- Reads a scalar, a named tree or a flow collection, inside of a block of an indentation. -/
def content (inFlow : Bool) (indent : Int) : (depth : Nat) → Reader Yaml
  | 0 => failure
  | depth + 1 => do
    match (← place).rest with
    | '[' :: _ => do
      skip 1
      return .list (← flowItems depth)
    | '\x7b' :: _ => do
      skip 1
      return .mapping (← flowPairs depth)
    | '\'' :: _ =>
      scalar false fun p => readSingle (p.rest.drop 1) p.line (p.column + 1) .none []
    | '"' :: _ =>
      scalar false fun p => readDouble (p.rest.drop 1) p.line (p.column + 1) 0 0 .none []
    | '*' :: _ => namedTree
    | cs =>
      if !inFlow && cs.head? = some '|' then scalar false fun p => readBlock true indent (p.skip 1)
      else if !inFlow && cs.head? = some '>' then
        scalar false fun p => readBlock false indent (p.skip 1)
      else if startsPlain inFlow cs then
        scalar true fun p => readPlain inFlow (indent + 1) p.rest p.line p.column .none []
      else failure

/-- Reads a node in flow style; one that is not written is null. -/
def flowNode : (depth : Nat) → Reader Yaml
  | 0 => failure
  | depth + 1 => do
    let ps ← properties true 2
    layout true true
    match ← peek with
    | some c =>
      if [',', ']', '\x7d', ':'].contains c then
        if ps.isEmpty then failure else ps.apply .null
      else ps.apply (← content true 0 depth)
    | none => failure

def flowValue : (depth : Nat) → Reader Yaml
  | 0 => failure
  | depth + 1 => do
    layout true true
    match ← peek with
    | some c => if [',', ']', '\x7d'].contains c then return .null else flowNode depth
    | none => failure

/-- Reads the items of a list in brackets; a pair among them is a mapping of its own. -/
def flowItems : (depth : Nat) → Reader (List Yaml)
  | 0 => failure
  | depth + 1 => do
    layout true true
    if (← peek) = some ']' then
      skip 1
      return []
    let line := (← place).line
    let item ← flowNode depth
    let item ← do
      if ← atColon true line then
        colon
        pure (.mapping [(item, ← flowValue depth)])
      else pure item
    layout true true
    if (← peek) = some ',' then
      skip 1
      return item :: (← flowItems depth)
    expect ']'
    return [item]

/-- Reads the pairs of a mapping in braces; a key without a value has a null one. -/
def flowPairs : (depth : Nat) → Reader (List (Yaml × Yaml))
  | 0 => failure
  | depth + 1 => do
    layout true true
    if (← peek) = some '\x7d' then
      skip 1
      return []
    let line := (← place).line
    let key ← flowNode depth
    let value ← do
      if ← atColon true line then
        colon
        flowValue depth
      else pure .null
    layout true true
    if (← peek) = some ',' then
      skip 1
      return (key, value) :: (← flowPairs depth)
    expect '\x7d'
    return [(key, value)]

/-- Reads a node in block style that stands deeper than an indentation. -/
def blockNode (indent : Int) : (depth : Nat) → Reader Yaml
  | 0 => failure
  | depth + 1 => do
    let p ← place
    if ← atMark '-' then return .list (← blockItems p.column false depth)
    if ← atMark '?' then return .mapping (← blockPairs p.column depth)
    let ps ← properties false 2
    if !ps.isEmpty && startsBlank (← place).rest then
      layout false true
      ps.apply (← lineNode indent depth)
    else
      let node ← content false indent depth
      if ← atColon false p.line then
        let key ← ps.apply node
        colon
        let value ← blockValue p.column depth
        layout false true
        return .mapping ((key, value) :: (← blockPairs p.column depth))
      refuseColon indent
      ps.apply node

/-- Reads a node at the start of a line, which belongs to a key at a column if it stands deeper
or is a list at the same column, and is null otherwise. -/
def lineNode (column : Int) : (depth : Nat) → Reader Yaml
  | 0 => failure
  | depth + 1 => do
    if ← atDocumentEnd then return .null
    let p ← place
    if column < p.column then blockNode column depth
    else if column = p.column && (← atMark '-') then
      return .list (← blockItems p.column true depth)
    else return .null

/-- Reads the value of a key at a column: the rest of the line, or the lines below. -/
def blockValue (column : Int) : (depth : Nat) → Reader Yaml
  | 0 => failure
  | depth + 1 => do
    let line := (← place).line
    layout false true
    if (← place).line ≠ line || (← atEnd) then lineNode column depth
    else
      if (← atMark '-') || (← atMark '?') || (← atMark ':') then failure
      let ps ← properties false 2
      if !ps.isEmpty && startsBlank (← place).rest then
        layout false true
        ps.apply (← lineNode column depth)
      else
        let node ← content false column depth
        refuseColon column
        ps.apply node

def blockItem (column : Nat) : (depth : Nat) → Reader Yaml
  | 0 => failure
  | depth + 1 => do
    skip 1
    let line := (← place).line
    layout false false
    let p ← place
    if (← atDocumentEnd) || (p.line ≠ line && p.column ≤ column) then return .null
    blockNode column depth

/-- Reads the items of a list at a column, which in a mapping at the same column ends at the next
key. -/
def blockItems (column : Nat) (inMapping : Bool) : (depth : Nat) → Reader (List Yaml)
  | 0 => failure
  | depth + 1 => do
    let p ← place
    if (← atDocumentEnd) || p.column < column then return []
    if p.column = column && (← atMark '-') then
      let item ← blockItem column depth
      layout false true
      return item :: (← blockItems column inMapping depth)
    if p.column = column && inMapping then return []
    failure

def blockPairs (column : Nat) : (depth : Nat) → Reader (List (Yaml × Yaml))
  | 0 => failure
  | depth + 1 => do
    let p ← place
    if (← atDocumentEnd) || p.column < column then return []
    if p.column ≠ column || (← atMark '-') then failure
    if ← atMark '?' then
      let key ← blockItem column depth
      layout false true
      let value ← do
        if (← place).column = column && (← atMark ':') then blockItem column depth
        else pure .null
      layout false true
      return (key, value) :: (← blockPairs column depth)
    let ps ← properties false 2
    let key ← ps.apply (← content false column depth)
    if !(← atColon false p.line) then failure
    colon
    let value ← blockValue column depth
    layout false true
    return (key, value) :: (← blockPairs column depth)

end

/-- Skips the directives in front of a document, and says whether there were some. -/
def directives : (count : Nat) → Reader Bool
  | 0 => return false
  | count + 1 => do
    let p ← place
    if p.column = 0 && p.rest.head? = some '%' then
      skip (p.rest.takeWhile (· ≠ '\n')).length
      layout false true
      let _ ← directives count
      return true
    return false

/-- Reads the first document, if there is one. -/
def document (depth : Nat) : Reader (Option Yaml) := do
  layout false false
  let hasDirectives ← directives depth
  let p ← place
  if p.atMarker && p.rest.head? = some '-' then
    skip 3
    let line := p.line
    layout false true
    if ← atDocumentEnd then return some .null
    if (← place).line = line then
      if (← atMark '-') || (← atMark '?') || (← atMark ':') then failure
      let ps ← properties false 2
      if !ps.isEmpty && startsBlank (← place).rest then
        layout false true
        return some (← ps.apply (← lineNode (-1) depth))
      let node ← content false (-1) depth
      refuseColon (-1)
      return some (← ps.apply node)
    return some (← blockNode (-1) depth)
  if hasDirectives then failure
  if ← atEnd then return none
  if ← atDocumentEnd then failure
  return some (← blockNode (-1) depth)

end Reader

def isAllowed (c : Char) : Bool :=
  let n := c.toNat
  n = 0x09 || n = 0x0A || n = 0x0D || (0x20 ≤ n && n ≤ 0x7E) || n = 0x85 ||
  (0xA0 ≤ n && n ≤ 0xFFFD && n ≠ 0xFEFF) || 0x10000 ≤ n

def unifyBreaks : List Char → List Char
  | '\x0d' :: '\n' :: cs => '\n' :: unifyBreaks cs
  | c :: cs => (if c = '\x0d' || c = '\u0085' then '\n' else c) :: unifyBreaks cs
  | [] => []

/-- Reads the first document of a text: nothing if the text is no YAML, and null if it has no
document. -/
def parse? (text : List Char) : Option Yaml :=
  let text := if text.head? = some '\ufeff' then text.drop 1 else text
  if text.all isAllowed then
    let cs := unifyBreaks text
    match (Reader.document (4 * cs.length + 16)).run ⟨⟨cs, 0, 0⟩, []⟩ with
    | some (y, _) => some (y.getD .null)
    | none => none
  else none

end Diagram.Yaml
