import Diagram.Token.Basic

/-!
# Operations

What an operator does to its operands, how tightly it binds, and how it is written.  The
operations are numbered in the order of their table; a number outside the table is an
operation without a meaning, which every later stage refuses.
-/

namespace Diagram

/-- How tightly an operation binds, from the loosest to the tightest. -/
inductive Precedence where
  | binding | assignment | logical | equality | comparison | additive | multiplicative
  | exponent | unary | suffix | access | container
deriving DecidableEq, Repr, Inhabited

namespace Precedence

def level : Precedence → Nat
  | binding => 0 | assignment => 1 | logical => 2 | equality => 3 | comparison => 4
  | additive => 5 | multiplicative => 6 | exponent => 7 | unary => 8 | suffix => 9
  | access => 10 | container => 11

/-- Whether a chain of operators of one precedence groups from the left. -/
def isLeftAssociative : Precedence → Bool
  | unary | assignment | binding | exponent => false
  | _ => true

/-- Whether an operator that waits for its right operand takes it before a following operator
of precedence `q` does. -/
def precedes (p q : Precedence) : Bool :=
  q.level < p.level || (p == q && p.isLeftAssociative)

end Precedence

/-- The kinds of operator expressions. -/
inductive Operation where
  | pointLiteral | listLiteral | listFill | listMap | listFilter | memberAccess | builtIn | call
  | actionCall | index | posate | negate | not | exponent | multiply | divide | modulus | add
  | subtract | lessThan | greaterThan | lessEqual | greaterEqual | equal | notEqual | and | or
  | exclusiveRange | inclusiveRange | conditional | assignment | update | withBinding
  /-- A number outside the table. -/
  | other (number : Int)
deriving DecidableEq, Repr, Inhabited

namespace Operation

/-- All operations of the table, in order. -/
def all : List Operation :=
  [pointLiteral, listLiteral, listFill, listMap, listFilter, memberAccess, builtIn, call,
   actionCall, index, posate, negate, not, exponent, multiply, divide, modulus, add, subtract,
   lessThan, greaterThan, lessEqual, greaterEqual, equal, notEqual, and, or, exclusiveRange,
   inclusiveRange, conditional, assignment, update, withBinding]

def ofNumber (n : Int) : Operation :=
  if n < 0 then other n else all[n.toNat]?.getD (other n)

def text : Operation → String
  | pointLiteral => "PointLiteral" | listLiteral => "ListLiteral" | listFill => "ListFill"
  | listMap => "ListMap" | listFilter => "ListFilter" | memberAccess => "MemberAccess"
  | builtIn => "BuiltIn" | call => "Call" | actionCall => "ActionCall" | index => "Index"
  | posate => "Posate" | negate => "Negate" | not => "Not" | exponent => "Exponent"
  | multiply => "Multiply" | divide => "Divide" | modulus => "Modulus" | add => "Add"
  | subtract => "Subtract" | lessThan => "LessThan" | greaterThan => "GreaterThan"
  | lessEqual => "LessEqual" | greaterEqual => "GreaterEqual" | equal => "Equal"
  | notEqual => "NotEqual" | and => "And" | or => "Or" | exclusiveRange => "ExclusiveRange"
  | inclusiveRange => "InclusiveRange" | conditional => "Conditional"
  | assignment => "Assignment" | update => "Update" | withBinding => "With"
  | other n => s!"<operation {n}>"

def precedence : Operation → Precedence
  | pointLiteral | listLiteral | listFill | listMap | listFilter | conditional | exclusiveRange
  | inclusiveRange => .container
  | memberAccess | builtIn => .access
  | call | actionCall | index => .suffix
  | posate | negate | not => .unary
  | exponent => .exponent
  | multiply | divide | modulus => .multiplicative
  | add | subtract => .additive
  | lessThan | greaterThan | lessEqual | greaterEqual => .comparison
  | equal | notEqual => .equality
  | and | or => .logical
  | assignment | update => .assignment
  | withBinding | other _ => .binding

/-- Whether an operator that waits for its right operand takes it before a following operator. -/
def precedes (a b : Operation) : Bool :=
  a.precedence.precedes b.precedence

/-- The operation that a symbol writes, and whether it may stand where an operand is expected
(or where an operator is).  Symbols without an operation give the first one of the table. -/
def ofSymbol (s : Symbol) (expectOperand : Bool) : Operation × Bool :=
  match s with
  | .plus => (if expectOperand then posate else add, true)
  | .minus => (if expectOperand then negate else subtract, true)
  | .bang => (not, expectOperand)
  | .atSign => (builtIn, expectOperand)
  | s =>
    if expectOperand then (pointLiteral, false)
    else match s with
      | .star => (multiply, true)
      | .slash => (divide, true)
      | .percent => (modulus, true)
      | .caret | .star2 => (exponent, true)
      | .ampersand2 => (and, true)
      | .pipe2 => (or, true)
      | .equal2 => (equal, true)
      | .notEqual => (notEqual, true)
      | .lessThan => (lessThan, true)
      | .greaterThan => (greaterThan, true)
      | .lessEqual => (lessEqual, true)
      | .greaterEqual => (greaterEqual, true)
      | .equal => (assignment, true)
      | .colonEqual => (update, true)
      | .dot => (memberAccess, true)
      | .parenLeft => (call, true)
      | .squareLeft => (index, true)
      | _ => (pointLiteral, false)

/-- The operation that a keyword writes, and whether it may stand there. -/
def ofKeyword (k : Keyword) (expectOperand : Bool) : Operation × Bool :=
  match k with
  | .actionDecl => (actionCall, expectOperand)
  | .withBinding => (withBinding, !expectOperand)
  | _ => (pointLiteral, false)

/-- The operation that a lexeme writes, if it writes one that may stand there. -/
def ofLexeme? (l : Lexeme) (expectOperand : Bool) : Option Operation :=
  match l with
  | .symbol s => let (op, ok) := ofSymbol s expectOperand; if ok then some op else none
  | .keyword k => let (op, ok) := ofKeyword k expectOperand; if ok then some op else none
  | _ => none

end Operation

/-- What a numbered symbol writes; a number outside the table writes nothing. -/
def Symbol.reading (n : Int) (expectOperand : Bool) : Operation × Bool :=
  match Symbol.ofNumber? n with
  | some s => Operation.ofSymbol s expectOperand
  | none => (.pointLiteral, false)

/-- What a numbered keyword writes; a number outside the table writes nothing. -/
def Keyword.reading (n : Int) (expectOperand : Bool) : Operation × Bool :=
  match Keyword.ofNumber? n with
  | some k => Operation.ofKeyword k expectOperand
  | none => (.pointLiteral, false)

end Diagram
