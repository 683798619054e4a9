/-!
# The texts of YAML scalars

How plain, quoted and block scalars are read from characters.  A line break inside a plain or
a quoted scalar counts as a blank, and further empty lines as line breaks.
-/

namespace Diagram.Yaml

/-- A place in a text: what follows it, the number of its line and its column, both from zero. -/
structure Place where
  rest : List Char
  line : Nat
  column : Nat
deriving Repr, Inhabited

def Place.next (p : Place) : Place :=
  match p.rest with
  | [] => p
  | '\n' :: cs => ⟨cs, p.line + 1, 0⟩
  | _ :: cs => ⟨cs, p.line, p.column + 1⟩

def Place.skip (p : Place) (n : Nat) : Place :=
  ⟨p.rest.drop n, p.line, p.column + n⟩

def isBlank (c : Char) : Bool :=
  c = ' ' || c = '\t'

/-- Whether characters start with a blank, a line break or nothing at all. -/
def startsBlank : List Char → Bool
  | [] => true
  | c :: _ => isBlank c || c = '\n'

/-- Whether a line that starts with these characters begins or ends a document. -/
def isMarker (cs : List Char) : Bool :=
  (cs.take 3 = ['-', '-', '-'] || cs.take 3 = ['.', '.', '.']) && startsBlank (cs.drop 3)

/-- Whether a place is at the mark between two documents. -/
def Place.atMarker (p : Place) : Bool :=
  p.column = 0 && isMarker p.rest

/-- Puts characters in front of others in reverse. -/
def pushAll (cs acc : List Char) : List Char :=
  cs.reverse ++ acc

/-- What stands between two words of a scalar: blanks of a line, or line breaks. -/
structure Gap where
  /-- The blanks, the last first. -/
  blanks : List Char
  breaks : Nat
  /-- Whether the first line break was escaped. -/
  escaped : Bool

namespace Gap

def none : Gap := ⟨[], 0, false⟩

def spansLines (g : Gap) : Bool :=
  0 < g.breaks || g.escaped

/-- The gap with one more blank; blanks around line breaks do not count. -/
def blank (g : Gap) (c : Char) : Gap :=
  if g.spansLines then g else { g with blanks := c :: g.blanks }

def lineBreak (g : Gap) : Gap :=
  { g with blanks := [], breaks := g.breaks + 1 }

def folded (g : Gap) : List Char :=
  if g.escaped then List.replicate g.breaks '\n'
  else if g.breaks = 0 then g.blanks
  else if g.breaks = 1 then [' ']
  else List.replicate (g.breaks - 1) '\n'

end Gap

def endsPlain (inFlow : Bool) (cs : List Char) : Bool :=
  match cs with
  | [] => true
  | ':' :: rest => startsBlank rest
  | c :: _ => inFlow && [',', '?', '[', ']', '\x7b', '\x7d'].contains c

/-- Reads a plain scalar; the characters that were read are kept in reverse.  Outside of flow
collections its further lines must be indented to `indent`. -/
def readPlain (inFlow : Bool) (indent : Int) :
    (cs : List Char) → (line column : Nat) → Gap → (acc : List Char) → Option (String × Place)
  | [], line, column, _, acc => some (String.ofList acc.reverse, ⟨[], line, column⟩)
  | c :: cs, line, column, gap, acc =>
    if c = '\n' then readPlain inFlow indent cs (line + 1) 0 gap.lineBreak acc
    else if isBlank c then
      if gap.spansLines && c = '\t' && column < indent then none
      else readPlain inFlow indent cs line (column + 1) (gap.blank c) acc
    else if endsPlain inFlow (c :: cs) ||
        (c = '#' && (gap.spansLines || !gap.blanks.isEmpty)) ||
        (gap.spansLines && column = 0 && isMarker (c :: cs)) ||
        (gap.spansLines && !inFlow && column < indent) then
      some (String.ofList acc.reverse, ⟨c :: cs, line, column⟩)
    else readPlain inFlow indent cs line (column + 1) .none (c :: gap.folded ++ acc)

/-- Reads a scalar in single quotation marks, after the first of them.  Two of them are one. -/
def readSingle : (cs : List Char) → (line column : Nat) → Gap → (acc : List Char) →
    Option (String × Place)
  | [], _, _, _, _ => none
  | '\'' :: '\'' :: cs, line, column, gap, acc =>
    readSingle cs line (column + 2) .none ('\'' :: gap.folded ++ acc)
  | c :: cs, line, column, gap, acc =>
    if c = '\'' then
      some (String.ofList (gap.folded ++ acc).reverse, ⟨cs, line, column + 1⟩)
    else if c = '\n' then readSingle cs (line + 1) 0 gap.lineBreak acc
    else if isBlank c then readSingle cs line (column + 1) (gap.blank c) acc
    else if column = 0 && isMarker (c :: cs) then none
    else readSingle cs line (column + 1) .none (c :: gap.folded ++ acc)

def hexValue? (c : Char) : Option Nat :=
  if c.isDigit then some (c.toNat - '0'.toNat)
  else if 'a' ≤ c && c ≤ 'f' then some (c.toNat - 'a'.toNat + 10)
  else if 'A' ≤ c && c ≤ 'F' then some (c.toNat - 'A'.toNat + 10)
  else none

/-- The character with a code point, if there is one. -/
def char? (n : Nat) : Option Char :=
  if n.isValidChar then some (Char.ofNat n) else none

/-- The character of an escape that is a single letter. -/
def letterEscape? (c : Char) : Option Char :=
  match c with
  | '0' => some '\x00' | 'a' => some '\x07' | 'b' => some '\x08' | 't' => some '\t'
  | '\t' => some '\t' | 'n' => some '\n' | 'v' => some '\x0b' | 'f' => some '\x0c'
  | 'r' => some '\x0d' | 'e' => some '\x1b' | ' ' => some ' ' | '"' => some '"'
  | '\'' => some '\'' | '\\' => some '\\' | 'N' => some '\u0085' | '_' => some '\u00a0'
  | 'L' => some '\u2028' | 'P' => some '\u2029'
  | _ => none

/-- How many hexadecimal digits follow the letter of an escape. -/
def hexEscape? (c : Char) : Option Nat :=
  match c with
  | 'x' => some 2
  | 'u' => some 4
  | 'U' => some 8
  | _ => none

/-- Reads a scalar in double quotation marks, after the first of them.  While `digits` is not
zero, that many hexadecimal digits of a character are still to come, and `code` is the number
that the earlier ones make. -/
def readDouble : (cs : List Char) → (line column : Nat) → (digits code : Nat) → Gap →
    (acc : List Char) → Option (String × Place)
  | [], _, _, _, _, _, _ => none
  | c :: cs, line, column, digits + 1, code, gap, acc => do
    let code := code * 16 + (← hexValue? c)
    if digits = 0 then
      readDouble cs line (column + 1) 0 0 .none ((← char? code) :: acc)
    else readDouble cs line (column + 1) digits code gap acc
  | '\\' :: '\n' :: cs, line, _, 0, _, gap, acc =>
    readDouble cs (line + 1) 0 0 0 ⟨[], 0, true⟩ (gap.folded ++ acc)
  | '\\' :: c :: cs, line, column, 0, _, gap, acc =>
    match letterEscape? c with
    | some e => readDouble cs line (column + 2) 0 0 .none (e :: gap.folded ++ acc)
    | none => do
      let digits ← hexEscape? c
      readDouble cs line (column + 2) digits 0 .none (gap.folded ++ acc)
  | c :: cs, line, column, 0, _, gap, acc =>
    if c = '"' then
      some (String.ofList (gap.folded ++ acc).reverse, ⟨cs, line, column + 1⟩)
    else if c = '\n' then readDouble cs (line + 1) 0 0 0 gap.lineBreak acc
    else if isBlank c then readDouble cs line (column + 1) 0 0 (gap.blank c) acc
    else if column = 0 && isMarker (c :: cs) then none
    else readDouble cs line (column + 1) 0 0 .none (c :: gap.folded ++ acc)

/-- What a block scalar keeps of the line breaks at its end. -/
inductive Chomping where
  | strip | clip | keep
deriving DecidableEq, Repr

/-- The characters behind the mark of a block scalar: what it keeps of its last line breaks, and
how far it is indented.  Gives the rest of the line too. -/
def blockHeader (cs : List Char) : Option (Chomping × Option Nat × List Char) :=
  let chomping? (c : Char) : Option Chomping :=
    if c = '+' then some .keep else if c = '-' then some .strip else none
  let indent? (c : Char) : Option Nat :=
    if c.isDigit then some (c.toNat - '0'.toNat) else none
  match cs with
  | [] => some (.clip, none, [])
  | c :: rest =>
    match chomping? c, indent? c with
    | some k, _ =>
      match rest with
      | d :: rest' =>
        match indent? d with
        | some 0 => none
        | some n => some (k, some n, rest')
        | none => some (k, none, rest)
      | [] => some (k, none, [])
    | none, some 0 => none
    | none, some n =>
      match rest with
      | d :: rest' =>
        match chomping? d with
        | some k => some (k, some n, rest')
        | none => some (.clip, some n, rest)
      | [] => some (.clip, some n, [])
    | none, none => some (.clip, none, cs)

/-- Skips empty lines before a line of a block scalar, and the indentation of that line up to
`indent`, or all of it without one.  Gives the number of line breaks and the largest
indentation that was seen.  Tabs cannot indent. -/
def skipEmptyLines (indent : Option Nat) :
    (cs : List Char) → (line column breaks widest : Nat) → Option (Place × Nat × Nat)
  | [], line, column, breaks, widest => some (⟨[], line, column⟩, breaks, max widest column)
  | c :: cs, line, column, breaks, widest =>
    let indenting := (indent.map fun n => decide (column < n)).getD true
    if c = ' ' && indenting then skipEmptyLines indent cs line (column + 1) breaks widest
    else if c = '\n' then skipEmptyLines indent cs (line + 1) 0 (breaks + 1) (max widest column)
    else if c = '\t' && indenting then none
    else some (⟨c :: cs, line, column⟩, breaks, max widest column)

/-- Reads the lines of a block scalar from the first that is not empty.  `pending` says whether a
line break is still to be written, `breaks` counts the empty lines after it, and `indented`
says whether the line before started with a blank. -/
def readBlockLines (literal : Bool) (chomping : Chomping) (indent : Nat) (p : Place)
    (pending indented : Bool) (breaks : Nat) (acc : List Char) :
    (lines : Nat) → Option (String × Place)
  | 0 => none
  | lines + 1 =>
    match p.rest with
    | [] => finish
    | c :: _ =>
      if p.column ≠ indent then finish
      else
        let blank := isBlank c
        let joint : List Char :=
          if !pending then []
          else if !literal && !indented && !blank then (if breaks = 0 then [' '] else [])
          else ['\n']
        let text := p.rest.takeWhile (· ≠ '\n')
        let acc := pushAll text (List.replicate breaks '\n' ++ joint ++ acc)
        let after := p.skip text.length
        match after.rest with
        | [] => readBlockLines literal chomping indent after false blank 0 acc lines
        | _ :: _ => do
          let after := after.next
          let (q, breaks, _) ← skipEmptyLines (some indent) after.rest after.line 0 0 0
          readBlockLines literal chomping indent q true blank breaks acc lines
where
  /-- The text with as many of the last line breaks as are kept. -/
  finish : Option (String × Place) :=
    let acc := if pending && chomping ≠ .strip then '\n' :: acc else acc
    let acc := if chomping = .keep then List.replicate breaks '\n' ++ acc else acc
    some (String.ofList acc.reverse, p)

/-- Reads a block scalar after its mark, inside of a block of an indentation. -/
def readBlock (literal : Bool) (outer : Int) (p : Place) : Option (String × Place) := do
  let (chomping, increment, header) ← blockHeader p.rest
  let remainder := header.dropWhile isBlank
  let comment := remainder.head? = some '#'
  let ending := if comment then remainder.dropWhile (· ≠ '\n') else remainder
  if !(ending.isEmpty || ending.head? = some '\n') then none
  else
    let start : Place := ⟨ending.drop 1, p.line + 1, 0⟩
    let fixed := increment.map fun n => (max outer 0).toNat + n
    let (q, breaks, widest) ← skipEmptyLines fixed start.rest start.line 0 0 0
    let indent := fixed.getD (max widest (max (outer + 1) 1).toNat)
    readBlockLines literal chomping indent q false false breaks [] (p.rest.length + 1)

end Diagram.Yaml
