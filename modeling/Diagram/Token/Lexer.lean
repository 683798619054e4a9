import Diagram.Decimal.Read
import Diagram.Source.Highlight
import Diagram.Text.Blank
import Diagram.Token.Basic

/-!
# From glyphs to tokens

A source is cut into segments, each the text of one lexeme or of a gap between lexemes:
blanks, comments, and the digit separators behind a number.  What may stand at a place is
decided by its first glyph (`segmentsAt`), and every segment is as long as it can be.
`Token.scan` puts the lexemes at their locations and drops the gaps.
-/

namespace Diagram.Token

open Text

/-- Why a source is no sequence of tokens. -/
inductive Cause where
  | invalidInteger
  | invalidReal
  | unterminatedString
  | invalidSymbol (seen : String)
  | unexpectedChar (c : Char)
deriving DecidableEq, Repr

def Cause.message : Cause → String
  | invalidInteger => "invalid integer literal"
  | invalidReal => "invalid floating-point literal"
  | unterminatedString => "string has no closing quote"
  | invalidSymbol seen => s!"invalid symbol: {seen}"
  | unexpectedChar c => s!"unexpected character: {c}"

/-- A stretch of source: the text of a lexeme, or a gap. -/
structure Segment where
  lexeme? : Option Lexeme
  text : List Glyph
deriving Repr

/-- A place where no segment can be cut: the cause, and the text to underline if it ends. -/
structure Snag where
  cause : Cause
  text? : Option (List Glyph)
deriving Repr

/-- A word starts with a letter or an underscore. -/
def isWordStart (c : Char) : Bool :=
  c == '_' || c.isAlpha

/-- A word goes on with letters, underscores and digits. -/
def isWord (c : Char) : Bool :=
  isWordStart c || c.isDigit

/-- Digits may be grouped by underscores and apostrophes. -/
def isSeparator (c : Char) : Bool :=
  c == '_' || c == '\''

def isRealMark (c : Char) : Bool :=
  c == '.' || c == 'e' || c == 'E'

/-- A visible ASCII character. -/
def isGraphic (c : Char) : Bool :=
  ' ' < c && c < '\x7f'

/-- What a word says: a keyword, a truth value or a name. -/
def lexemeOfWord (s : String) : Lexeme :=
  match Keyword.ofSpelling? s with
  | some k => .keyword k
  | none => if s = "true" then .bool true else if s = "false" then .bool false else .name s

def wordSegment (gs : List Glyph) : Segment :=
  let text := gs.takeWhile fun g => isWord g.char
  ⟨some (lexemeOfWord (Glyph.textOf text)), text⟩

/-- The glyphs of a number.  It stops before two points in a row, which are a range symbol. -/
def numberRun : List Glyph → List Glyph
  | [] => []
  | g :: rest =>
    if g.char = '.' ∧ (rest.head?.map Glyph.char) = some '.' then []
    else if g.char.isDigit || isSeparator g.char || isRealMark g.char then g :: numberRun rest
    else []

def rangeRun : List Glyph → Option (Symbol × List Glyph)
  | a :: b :: c :: _ =>
    if a.char = '.' ∧ b.char = '.' then
      if c.char = '=' then some (.inclusiveRange, [a, b, c]) else some (.exclusiveRange, [a, b])
    else none
  | [a, b] => if a.char = '.' ∧ b.char = '.' then some (.exclusiveRange, [a, b]) else none
  | _ => none

def significant (run : List Glyph) : List Char :=
  (run.map Glyph.char).filter fun c => !isSeparator c

/-- What a number without a range behind it says. -/
def lexemeOfNumber (cs : List Char) : Except Cause Lexeme :=
  if cs.any isRealMark then
    match Decimal.readUnsigned? cs with
    | some d => .ok (.real d.toFloat)
    | none => .error .invalidReal
  else
    match Decimal.readInteger? cs with
    | some i => .ok (.int i)
    | none => .error .invalidInteger

/-- Cuts a number.  A range symbol directly behind it is cut with it and makes it an integer;
separators at its end are a gap. -/
def numberSegments (gs : List Glyph) : Except Snag (List Segment) :=
  let run := numberRun gs
  match rangeRun (gs.drop run.length) with
  | some (symbol, dots) =>
    match Decimal.readInteger? (significant run) with
    | some i => .ok [⟨some (.int i), run⟩, ⟨some (.symbol symbol), dots⟩]
    | none => .error ⟨.invalidInteger, some run⟩
  | none =>
    let trail := (run.reverse.takeWhile fun g => isSeparator g.char).reverse
    let body := run.take (run.length - trail.length)
    match lexemeOfNumber (significant run) with
    | .ok lexeme => .ok [⟨some lexeme, body⟩, ⟨none, trail⟩]
    | .error cause => .error ⟨cause, some body⟩

/-- A line comment up to and with the line feed that ends it.  A backslash lets the comment go
on behind the next line feed, if only blanks stand between. -/
def lineComment : (continued : Bool) → List Glyph → List Glyph
  | _, [] => []
  | true, g :: rest => g :: lineComment (g.char != '\n' && isBlank g.char) rest
  | false, g :: rest =>
    if g.char = '\n' then [g] else g :: lineComment (g.char == '\\') rest

/-- A block comment behind its opening; it may lack its end. -/
def blockComment : (afterStar : Bool) → List Glyph → List Glyph
  | _, [] => []
  | afterStar, g :: rest =>
    if afterStar ∧ g.char = '/' then [g] else g :: blockComment (g.char == '*') rest

/-- The comment that starts with the slash `g`, if one does. -/
def commentRun (g : Glyph) (rest : List Glyph) : Option (List Glyph) :=
  match rest with
  | [] => none
  | h :: more =>
    if h.char = '/' then some (g :: h :: lineComment false more)
    else if h.char = '*' then some (g :: h :: blockComment false more)
    else none

/-- What a character says behind a backslash in a string. -/
def unescape (c : Char) : Char :=
  if c = 'n' then '\n' else if c = 'r' then '\r' else if c = 't' then '\t'
  else if c = '0' then '\x00' else c

/-- The characters of a string and its glyphs behind the opening quote, up to and with the
closing one; nothing if there is none. -/
def stringBody : (escaped : Bool) → List Glyph → Option (List Char × List Glyph)
  | _, [] => none
  | true, g :: rest =>
    (stringBody false rest).map fun (cs, gs) => (unescape g.char :: cs, g :: gs)
  | false, g :: rest =>
    if g.char = '"' then some ([], [g])
    else if g.char = '\\' then (stringBody true rest).map fun (cs, gs) => (cs, g :: gs)
    else (stringBody false rest).map fun (cs, gs) => (g.char :: cs, g :: gs)

/-- Cuts the string that starts with the quote `g`. -/
def stringSegment (g : Glyph) (rest : List Glyph) : Except Snag Segment :=
  match stringBody false rest with
  | some (cs, gs) => .ok ⟨some (.str (String.ofList cs)), g :: gs⟩
  | none => .error ⟨.unterminatedString, none⟩

/-- The glyphs that lengthen a symbol, as long as every step spells a symbol. -/
def symbolTail (raw : String) : List Glyph → List Glyph
  | [] => []
  | g :: rest =>
    if (Symbol.ofSpelling? (raw.push g.char)).isSome then g :: symbolTail (raw.push g.char) rest
    else []

def symbolSegment (g : Glyph) (rest : List Glyph) : Except Snag Segment :=
  let text := g :: symbolTail (String.singleton g.char) rest
  match Symbol.ofSpelling? (Glyph.textOf text) with
  | some s => .ok ⟨some (.symbol s), text⟩
  | none => .error ⟨.invalidSymbol (Glyph.textOf (text ++ (rest.drop (text.length - 1)).take 1)), some text⟩

def segmentsAt (g : Glyph) (rest : List Glyph) : Except Snag (List Segment) :=
  if isBlank g.char then .ok [⟨none, [g]⟩]
  else if isWordStart g.char then .ok [wordSegment (g :: rest)]
  else if g.char.isDigit then numberSegments (g :: rest)
  else match (if g.char = '/' then commentRun g rest else none) with
    | some text => .ok [⟨none, text⟩]
    | none =>
      if g.char = '"' then (stringSegment g rest).map ([·])
      else if isGraphic g.char then (symbolSegment g rest).map ([·])
      else .error ⟨.unexpectedChar g.char, some [g]⟩

def glyphCount (segments : List Segment) : Nat :=
  (segments.flatMap Segment.text).length

def place (l : Location) : List Segment → List Token
  | [] => []
  | s :: rest =>
    match s.lexeme? with
    | some lexeme => ⟨lexeme, l, l.past s.text⟩ :: place (l.past s.text) rest
    | none => place (l.past s.text) rest

def Snag.located (s : Snag) (l : Location) : Located Cause :=
  ⟨s.cause, ⟨some l, s.text?.map l.past⟩⟩

/-- Scans glyphs that start at `l`, of which the next `skip` were cut before. -/
def scanFrom : (skip : Nat) → (l : Location) → List Glyph → Except (Located Cause) (List Token)
  | _, _, [] => .ok []
  | skip + 1, l, g :: rest => scanFrom skip (l.after g) rest
  | 0, l, g :: rest =>
    match segmentsAt g rest with
    | .error snag => .error (snag.located l)
    | .ok segments =>
      match scanFrom (glyphCount segments - 1) (l.after g) rest with
      | .error e => .error e
      | .ok tokens => .ok (place l segments ++ tokens)

/-- The tokens of a source, in order. -/
def scan (source : List Glyph) : Except (Located Cause) (List Token) :=
  scanFrom 0 Location.start source

end Diagram.Token
