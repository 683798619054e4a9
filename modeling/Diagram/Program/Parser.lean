import Diagram.Element.Parser
import Diagram.Program

/-!
# Parsing programs

A program is a sequence of declarations and of at most one public, ticker and display
block.  Each starts with its own keyword; semicolons between them are skipped.
-/

namespace Diagram.Parser

def itemStarts : Ends :=
  ⟨[.semicolon], [.publicBlock, .tickerBlock, .displayBlock, .actionDecl, .constDecl, .letDecl,
    .varDecl, .enumDecl]⟩

/-- Declares a name where the token `t` stands, unless it is taken. -/
def declare (p : Program) (s : Signature) (t : Token) : Parser Program :=
  match p.signatures.add { s with area := t.area } with
  | (_, previous, false) => failAt t.area (.nameConflict previous.text)
  | (table, _, true) => return { p with signatures := table }

/-- Moves over a block's keyword and its opening brace. -/
def blockOpen : Parser Unit := do
  advance
  expectSymbol .curlyLeft
  advance

/-- The items of a block up to its closing brace, which is taken.  Semicolons separate them. -/
def blockItems {α : Type} (item : Parser α) : Parser (List α) := do
  let items ← untilSymbol .curlyRight do
    let a ← item
    skipAll .semicolon
    return a
  advance
  return items

def publicBlock (p : Program) (t : Token) : Parser Program := do
  if p.entries.isSome then failAt t.area (.repeatedBlock .publicBlock)
  else
    blockOpen
    let entries ← blockItems (expr (.ofSymbols [.semicolon, .curlyRight]))
    return { p with entries := some entries }

/-- The ticker, with an interval that may be left out. -/
def tickerBlock (p : Program) (t : Token) : Parser Program := do
  if p.ticker.isSome then failAt t.area (.repeatedBlock .tickerBlock)
  else
    advance
    if ← atSymbol .parenLeft then
      advance
      let interval ← expr (.ofSymbols [.parenRight])
      advance
      return { p with ticker := some ⟨some interval, ← action false⟩ }
    else
      return { p with ticker := some ⟨none, ← action false⟩ }

def displayBlock (p : Program) (t : Token) : Parser Program := do
  if p.display.isSome then failAt t.area (.repeatedBlock .displayBlock)
  else
    blockOpen
    let elements ← blockItems element
    return { p with display := some elements }

def nameToken : Parser (Token × String) := do
  let t ← token
  return (t, ← expectName)

def param : Parser Param := do
  let name ← expectName
  advance
  expectOneOf (.ofSymbols [.colon, .comma, .parenRight])
  if ← seesSymbol .colon then
    advance
    let t ← ty (.ofSymbols [.comma, .parenRight])
    skipSymbol .comma
    return ⟨name, t⟩
  else
    skipSymbol .comma
    return ⟨name, .unknown⟩

/-- The parameters behind the name under the cursor, if there is a list of them. -/
def params : Parser (Option (List Param)) := do
  advance
  if ← atSymbol .parenLeft then
    advance
    let ps ← untilSymbol .parenRight param
    advance
    return some ps
  else return none

def actionDecl (p : Program) : Parser Program := do
  advance
  let (t, name) ← nameToken
  let ps ← params
  let body ← action false
  let p ← declare p { Signature.plain .action name ps with ty := .action name } t
  return { p with actions := p.actions.insert name body }

/-- The type of a declaration, if one is given, and the equals sign behind it. -/
def declaredTy : Parser Ty := do
  if ← atSymbol .colon then
    advance
    let t ← ty (.ofSymbols [.equal])
    advance
    return t
  else
    expectSymbol .equal
    advance
    return .unknown

/-- The definition of a name and the semicolon behind it. -/
def definition : Parser Expr := do
  let value ← expr (.ofSymbols [.semicolon])
  advance
  return value

def valueDecl (p : Program) (declares : Declares) : Parser Program := do
  advance
  let (t, name) ← nameToken
  let ps ← params
  let declared ← declaredTy
  let value ← definition
  let p ← declare p { Signature.plain declares name ps with ty := declared } t
  return { p with identifiers := p.identifiers.insert name value }

def varDecl (p : Program) : Parser Program := do
  advance
  let timer ← atKeyword .timer
  if timer then advance
  let (t, name) ← nameToken
  advance
  let declared ← declaredTy
  let value ← definition
  let p ← declare p { Signature.plain .var name none with ty := declared, timer := timer } t
  return { p with identifiers := p.identifiers.insert name value }

/-- One variant of an enumeration and the comma that may follow it. -/
def variant : Parser String := do
  let name ← expectName
  advance
  expectOneOf (.ofSymbols [.comma, .curlyRight])
  skipSymbol .comma
  return name

def enumDecl (p : Program) : Parser Program := do
  advance
  let (t, name) ← nameToken
  blockOpen
  let variants ← untilSymbol .curlyRight variant
  advance
  let p ← declare p
    { Signature.plain .enum name none with ty := .user name, variants := variants } t
  return { p with enums := p.enums.insert name variants }

def item (p : Program) : Parser Program := do
  expectOneOf itemStarts
  let t ← token .absent
  match t.lexeme with
  | .keyword .publicBlock => publicBlock p t
  | .keyword .tickerBlock => tickerBlock p t
  | .keyword .displayBlock => displayBlock p t
  | .keyword .actionDecl => actionDecl p
  | .keyword .constDecl => valueDecl p .const
  | .keyword .letDecl => valueDecl p .letValue
  | .keyword .varDecl => varDecl p
  | .keyword .enumDecl => enumDecl p
  | _ => do
    advance
    return p

/-- The items of a program up to the last token, at most `fuel` of them. -/
def items : (fuel : Nat) → Program → Parser Program
  | 0, _ => failAt .nowhere .exhausted
  | fuel + 1, p => do
    if (← get).isDone then return p
    else items fuel (← item p)

def program : Parser Program := do
  items (← get).budget .empty

end Diagram.Parser

namespace Diagram.Program

def parse (tokens : List Token) : Except (Located Parser.Cause) Program :=
  match Parser.program.run (.ofTokens tokens) with
  | .ok p _ => .ok p
  | .error e _ => .error e

end Diagram.Program
