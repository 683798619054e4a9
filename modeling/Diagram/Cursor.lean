import Diagram.Source.Highlight
import Diagram.Token.Basic

/-!
# A cursor over tokens

A parser reads tokens from a cursor and leaves it on the first token that it did not take,
also when it fails.  Loops stop at a closing symbol; each of their turns takes a token, so
that the number of tokens left bounds them.
-/

namespace Diagram

/-- A place in a list of tokens. -/
structure Cursor where
  /-- The token under the cursor and all that follow. -/
  rest : List Token
  /-- Where the last token of the whole list ends. -/
  last : Option Location
deriving Repr, Inhabited

namespace Cursor

def ofTokens (tokens : List Token) : Cursor :=
  ⟨tokens, tokens.getLast?.map Token.stop⟩

def isDone (c : Cursor) : Bool :=
  c.rest.isEmpty

/-- More than the turns that a loop can make, each of which takes a token. -/
def budget (c : Cursor) : Nat :=
  c.rest.length + 1

end Cursor

/-- Symbols and keywords that may end something. -/
structure Ends where
  symbols : List Symbol
  keywords : List Keyword
deriving DecidableEq, Repr, Inhabited

namespace Ends

def ofSymbols (symbols : List Symbol) : Ends := ⟨symbols, []⟩

def contains (ends : Ends) : Lexeme → Bool
  | .symbol s => ends.symbols.contains s
  | .keyword k => ends.keywords.contains k
  | _ => false

def spellings (ends : Ends) : List String :=
  ends.symbols.map Symbol.spelling ++ ends.keywords.map Keyword.spelling

end Ends

namespace Parser

/-- Quoted choices, the last of which follows an `or`.  Commas stand between three or more. -/
def choices : List String → String
  | [] => ""
  | [a] => s!"'{a}'"
  | [a, b] => s!"'{a}' or '{b}'"
  | as =>
    let last := as.getLastD ""
    String.join (as.dropLast.map fun a => s!"'{a}', ") ++ s!"or '{last}'"

/-- Why tokens are not what they should be. -/
inductive Cause where
  | endOfFile
  | expectedOperand
  | expectedName
  | expectedString
  | expectedAction
  | unexpectedFill
  | comprehensionOfMany
  | expectedSymbol (s : Symbol)
  | expectedOneOf (ends : Ends)
  | expectedChoice (texts : List String)
  | tooFewOperands (expected got : Nat)
  | leftOperands (count : Nat)
  | nameConflict (previous : String)
  | repeatedBlock (k : Keyword)
  | unknownAttribute (name : String)
  | repeatedAttribute (name : String)
  | attributeArity (name : String) (low high : Nat)
  /-- A loop made more turns than there were tokens. -/
  | exhausted
  /-- There is no token where a parser relies on one. -/
  | absent
deriving DecidableEq, Repr

def Cause.message : Cause → String
  | endOfFile => "unexpected end of file"
  | expectedOperand => "expected an operand"
  | expectedName => "expected a name"
  | expectedString => "expected a string"
  | expectedAction => "expected action call or variable update"
  | unexpectedFill => "unexpected ';'"
  | comprehensionOfMany => "list comprehension following multiple elements"
  | expectedSymbol s => s!"expected '{s.spelling}'"
  | expectedOneOf ends => "expected " ++ choices ends.spellings
  | expectedChoice texts => "expected string " ++ choices texts
  | tooFewOperands expected got =>
    s!"too few operands for operation (expected {expected}, got {got})"
  | leftOperands count => s!"expression resolved to {count} operands instead of 1 as expected"
  | nameConflict previous => s!"name conflicts with previous '{previous}'"
  | repeatedBlock k => s!"only one '{k.spelling}' block can be declared"
  | unknownAttribute name => s!"unknown display attribute '{name}'"
  | repeatedAttribute name => s!"only one '{name}' attribute can be defined per element"
  | attributeArity name low high =>
    if low = high then s!"expected {low} argument for '{name}' attribute"
    else s!"expected {low}-{high} arguments for '{name}' attribute"
  | exhausted => "too many steps"
  | absent => "no token"

end Parser

/-- A parser takes tokens from a cursor and gives a result or a located cause of failure. -/
abbrev Parser := EStateM (Located Parser.Cause) Cursor

namespace Parser

variable {α : Type}

def failAt (area : Area) (cause : Cause) : Parser α :=
  throw ⟨cause, area⟩

/-- The token under the cursor, if there is one. -/
def token? : Parser (Option Token) := do
  return (← get).rest.head?

/-- The token under the cursor.  There has to be one; where a parser relies on it without a check,
the cause is `absent`. -/
def token (missing : Cause := .endOfFile) : Parser Token := do
  let c ← get
  match c.rest with
  | t :: _ => return t
  | [] => failAt (Area.at? c.last) missing

/-- Moves the cursor over one token. -/
def advance : Parser Unit :=
  modify fun c => { c with rest := c.rest.tail }

/-- Whether the cursor is on a symbol.  There has to be a token. -/
def atSymbol (s : Symbol) : Parser Bool := do
  return (← token).lexeme = .symbol s

/-- Whether the cursor is on a keyword.  There has to be a token. -/
def atKeyword (k : Keyword) : Parser Bool := do
  return (← token).lexeme = .keyword k

def seesSymbol (s : Symbol) : Parser Bool := do
  return (← token?).any fun t => t.lexeme = .symbol s

def seesKeyword (k : Keyword) : Parser Bool := do
  return (← token?).any fun t => t.lexeme = .keyword k

def skipSymbol (s : Symbol) : Parser Unit := do
  if ← seesSymbol s then advance

/-- Fails unless the cursor is on a symbol. -/
def expectSymbol (s : Symbol) : Parser Unit := do
  let t ← token
  if t.lexeme = .symbol s then return () else failAt t.area (.expectedSymbol s)

/-- Fails unless the cursor is on one of some ends. -/
def expectOneOf (ends : Ends) : Parser Unit := do
  let t ← token
  if ends.contains t.lexeme then return () else failAt t.area (.expectedOneOf ends)

def expectName : Parser String := do
  let t ← token
  match t.lexeme with
  | .name n => return n
  | _ => failAt t.area .expectedName

/-- Items up to a closing symbol, which is left under the cursor; at most `fuel` turns. -/
def untilSymbolIn (close : Symbol) (item : Parser α) : (fuel : Nat) → Parser (List α)
  | 0 => failAt .nowhere .exhausted
  | fuel + 1 => do
    if ← atSymbol close then return []
    else
      let a ← item
      return a :: (← untilSymbolIn close item fuel)

/-- Items up to a closing symbol, which is left under the cursor. -/
def untilSymbol (close : Symbol) (item : Parser α) : Parser (List α) := do
  untilSymbolIn close item (← get).budget

/-- Moves over all repetitions of a symbol, at most `fuel` of them. -/
def skipAllIn (s : Symbol) : (fuel : Nat) → Parser Unit
  | 0 => failAt .nowhere .exhausted
  | fuel + 1 => do
    if ← seesSymbol s then
      advance
      skipAllIn s fuel

def skipAll (s : Symbol) : Parser Unit := do
  skipAllIn s (← get).budget

end Parser

end Diagram
