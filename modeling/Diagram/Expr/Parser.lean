import Diagram.Cursor
import Diagram.Expr

/-!
# Parsing expressions

Operators and operands are kept on two stacks.  Before an operator is put on its stack, the
operators that precede it take their operands.  Points, lists, conditionals, calls and
indices hold expressions of their own; these are read by the parser that is passed in as
`nested`, so that each form is described by itself.  `Parser.exprWithin` ties the knot: an
expression nested `depth` levels deep is read by the same rules with one level less.
-/

namespace Diagram.Parser

/-- An operator that waits for its operands. -/
structure Pending where
  op : Operation
  count : Nat
deriving DecidableEq, Repr

/-- The state of an expression that is being read, with the tops of both stacks first. -/
structure Stacks where
  operators : List Pending
  operands : List Expr
deriving Repr

namespace Stacks

def empty : Stacks := ⟨[], []⟩

def push (s : Stacks) (e : Expr) : Stacks :=
  { s with operands := e :: s.operands }

end Stacks

/-- Where the token under the cursor starts, if there is one. -/
def startHere : Parser Area := do
  return Area.at? ((← token?).map Token.start)

def reduce (p : Pending) (operands : List Expr) : Parser (List Expr) := do
  if operands.length < p.count then
    failAt (← startHere) (.tooFewOperands p.count operands.length)
  else
    return Expr.apply p.op (operands.take p.count).reverse :: operands.drop p.count

/-- Lets all operators take their operands that precede an operation. -/
def reduceBefore (op : Operation) : List Pending → List Expr → Parser Stacks
  | [], operands => return ⟨[], operands⟩
  | p :: ps, operands => do
    if p.op.precedes op then
      reduceBefore op ps (← reduce p operands)
    else
      return ⟨p :: ps, operands⟩

/-- Lets all operators take their operands. -/
def reduceAll : List Pending → List Expr → Parser (List Expr)
  | [], operands => return operands
  | p :: ps, operands => do reduceAll ps (← reduce p operands)

/-- The expression of a token that is neither a symbol nor a keyword. -/
def operand? (t : Token) : Option Expr :=
  match t.lexeme with
  | .name n => some (Expr.reference n t.area)
  | .int i => some (Expr.constant (.int i) t.area)
  | .real x => some (Expr.constant (.real x) t.area)
  | .bool b => some (Expr.constant (.bool b) t.area)
  | .str s => some (Expr.constant (.str s) t.area)
  | .symbol _ | .keyword _ => none

/-- The number of operands of an operator that is written before or between them. -/
def operandCount : Operation → Nat
  | .builtIn | .posate | .negate | .not => 1
  | _ => 2

section Forms

variable (nested : Ends → Parser Expr)

/-- Takes the closing bracket of a form that starts with a token, and lets the form cover both. -/
def close (first : Token) (e : Expr) : Parser Expr := do
  let closer ← token .absent
  advance
  return e.withArea (Area.between first.start closer.stop)

def paren : Parser Expr := do
  let opener ← token .absent
  advance
  let first ← nested (.ofSymbols [.comma, .parenRight])
  if ← seesSymbol .comma then
    advance
    let second ← nested (.ofSymbols [.parenRight])
    close opener (Expr.apply .pointLiteral [first, second])
  else
    let _ ← token .absent
    advance
    return first

def itemEnds : Ends :=
  ⟨[.comma, .squareRight, .semicolon, .exclusiveRange, .inclusiveRange], [.forEach, .whereCond]⟩

def listEnd : Ends := .ofSymbols [.squareRight]

/-- The `for` clauses of a comprehension of `e`, at most `fuel` of them. -/
def forClauses : (fuel : Nat) → (e : Expr) → Parser Expr
  | 0, _ => failAt .nowhere .exhausted
  | fuel + 1, e => do
    if ← atKeyword .forEach then
      advance
      let bound ← nested ⟨[], [.inList]⟩
      advance
      let source ← nested ⟨[.squareRight], [.forEach, .whereCond]⟩
      forClauses fuel (Expr.apply .listMap [e, bound, source])
    else return e

/-- The last part of a list: an expression behind the token under the cursor, up to the end. -/
def listTail : Parser Expr := do
  advance
  nested listEnd

/-- What stands behind an item that follows some others: a comma and more items, which are read by
`more`, a word that makes the item a part of another form, or the end. -/
def afterItem (opener : Token) (more : List Expr → Parser Expr) (items : List Expr)
    (item : Expr) : Parser Expr := do
  let t ← token .absent
  match t.lexeme with
  | .symbol .comma =>
    advance
    more (items ++ [item])
  | .symbol .semicolon =>
    if items.isEmpty then
      let count ← listTail nested
      close opener (Expr.apply .listFill [item, count])
    else failAt t.area .unexpectedFill
  | .keyword .whereCond =>
    if items.isEmpty then
      let cond ← listTail nested
      close opener (Expr.apply .listFilter [item, cond])
    else failAt t.area .comprehensionOfMany
  | .keyword .forEach =>
    if items.isEmpty then
      let mapped ← forClauses nested (← get).budget item
      if ← seesKeyword .whereCond then
        let cond ← listTail nested
        close opener (Expr.apply .listFilter [mapped, cond])
      else close opener mapped
    else failAt t.area .comprehensionOfMany
  | .symbol .exclusiveRange =>
    let last ← listTail nested
    close opener (Expr.apply .exclusiveRange (items ++ [item, last]))
  | .symbol .inclusiveRange =>
    let last ← listTail nested
    close opener (Expr.apply .inclusiveRange (items ++ [item, last]))
  | _ => more (items ++ [item])

/-- The items of a list after some that were read, and its other forms, up to its end. -/
def listItems (opener : Token) : (fuel : Nat) → (items : List Expr) → Parser Expr
  | 0, _ => failAt .nowhere .exhausted
  | fuel + 1, items => do
    if ← atSymbol .squareRight then
      close opener (Expr.apply .listLiteral items)
    else
      let item ← nested itemEnds
      afterItem nested opener (listItems opener fuel) items item

def list : Parser Expr := do
  let opener ← token .absent
  advance
  listItems nested opener (← get).budget []

/-- What stands behind a value that follows some operands: the end, or the next condition or
the default, behind which `more` reads on. -/
def afterValue (more : List Expr → Parser (List Expr)) (operands : List Expr) (value : Expr) :
    Parser (List Expr) := do
  skipSymbol .comma
  if ← atSymbol .curlyRight then return operands ++ [value]
  else
    let next ← nested (.ofSymbols [.colon, .comma, .curlyRight])
    more (operands ++ [value, next])

/-- The arms of a conditional after some operands, at most `fuel` of them. -/
def arms : (fuel : Nat) → (operands : List Expr) → Parser (List Expr)
  | 0, _ => failAt .nowhere .exhausted
  | fuel + 1, operands => do
    if ← atSymbol .colon then
      advance
      let value ← nested (.ofSymbols [.comma, .curlyRight])
      afterValue nested (arms fuel) operands value
    else return operands

/-- A conditional: conditions with their values, and a default that may be left out. -/
def conditional : Parser Expr := do
  let opener ← token .absent
  advance
  let cond ← nested (.ofSymbols [.colon])
  let operands ← arms nested (← get).budget [cond]
  unless ← seesSymbol .curlyRight do
    advance
    expectSymbol .curlyRight
  close opener (Expr.apply .conditional operands)

/-- The arguments of a call, up to the closing parenthesis, which is left under the cursor. -/
def callWith : Parser (List Expr) := do
  expectSymbol .parenLeft
  advance
  untilSymbol .parenRight do
    let arg ← nested (.ofSymbols [.comma, .parenRight])
    skipSymbol .comma
    return arg

/-- The form with brackets of its own that a lexeme opens where an operand is expected. -/
def container? : Lexeme → Option (Parser Expr)
  | .symbol .parenLeft => some (paren nested)
  | .symbol .squareLeft => some (list nested)
  | .symbol .curlyLeft => some (conditional nested)
  | _ => none

/-- Puts an operator on its stack, or lets a call or an index take its operands at once.  Gives
the stacks and whether an operand is expected next. -/
def pushOperator (op : Operation) (s : Stacks) : Parser (Stacks × Bool) := do
  match op with
  | .call =>
    let args ← callWith nested
    let operands ← reduce ⟨op, 1 + args.length⟩ (args.reverse ++ s.operands)
    return (⟨s.operators, operands⟩, false)
  | .actionCall =>
    advance
    let name ← token
    let n ← expectName
    advance
    let args ← callWith nested
    let operands ← reduce ⟨op, 1 + args.length⟩
      (args.reverse ++ Expr.reference n name.area :: s.operands)
    return (⟨s.operators, operands⟩, false)
  | .index =>
    advance
    let i ← nested (.ofSymbols [.squareRight])
    let operands ← reduce ⟨op, 2⟩ (i :: s.operands)
    return (⟨s.operators, operands⟩, false)
  | op => return (⟨⟨op, operandCount op⟩ :: s.operators, s.operands⟩, true)

/-- Reads one operand or operator.  Gives the stacks and whether an operand is expected next. -/
def step (ends : Ends) (s : Stacks) (expectOperand : Bool) (t : Token) :
    Parser (Stacks × Bool) := do
  match operand? t with
  | some e =>
    if expectOperand then
      advance
      return (s.push e, false)
    else failAt t.area (.expectedOneOf ends)
  | none =>
    match (if expectOperand then container? nested t.lexeme else none) with
    | some form => return (s.push (← form), false)
    | none =>
      match Operation.ofLexeme? t.lexeme expectOperand with
      | none =>
        failAt t.area (if expectOperand then .expectedOperand else .expectedOneOf ends)
      | some op =>
        let s ← reduceBefore op s.operators s.operands
        let result ← pushOperator nested op s
        advance
        return result

/-- What is left on the stacks when the token `t` ends the expression. -/
def finish (s : Stacks) (expectOperand : Bool) (t : Token) : Parser Expr := do
  let here := Area.between t.start t.start
  if expectOperand then failAt here .expectedOperand
  else
    match ← reduceAll s.operators s.operands with
    | [e] => return e
    | operands => failAt here (.leftOperands operands.length)

/-- Reads operands and operators up to one of the ends, in at most `fuel` turns. -/
def loop (ends : Ends) : (fuel : Nat) → Stacks → (expectOperand : Bool) → Parser Expr
  | 0, _, _ => failAt .nowhere .exhausted
  | fuel + 1, s, expectOperand => do
    let t ← token
    if (!expectOperand || s.operands.isEmpty) && ends.contains t.lexeme then
      finish s expectOperand t
    else
      let (s, expectOperand) ← step nested ends s expectOperand t
      loop ends fuel s expectOperand

/-- An expression up to one of the ends, which is left under the cursor. -/
def exprWith (ends : Ends) : Parser Expr := do
  loop nested ends (← get).budget .empty true

end Forms

/-- An expression that is nested at most `depth` levels deep. -/
def exprWithin : (depth : Nat) → Ends → Parser Expr
  | 0, _ => failAt .nowhere .exhausted
  | depth + 1, ends => exprWith (exprWithin depth) ends

/-- An expression up to one of the ends, which is left under the cursor. -/
def expr (ends : Ends) : Parser Expr := do
  exprWithin (← get).budget ends

/-- The arguments of a call, up to the closing parenthesis, which is left under the cursor. -/
def call : Parser (List Expr) :=
  callWith expr

/-- A type that one of the ends follows: a name, a question mark for an unknown one, or either
in brackets for a list. -/
def ty (ends : Ends) : Parser Ty := do
  let isList ← atSymbol .squareLeft
  if isList then advance
  let item ← if ← atSymbol .question then pure Ty.unknown else Ty.ofName <$> expectName
  advance
  if isList then
    expectSymbol .squareRight
    advance
  expectOneOf ends
  return if isList then .list item else item

end Diagram.Parser
