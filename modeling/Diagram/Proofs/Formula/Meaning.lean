import Diagram.Formula.OfExpr

/-!
# The values of expressions and of formulas

`Expr.meaning` evaluates an expression of the language: truth values are kept apart from
numbers, a logical operator looks at its second operand only if it has to, and a conditional
is worth the value behind its first true condition.  `Formula.value` evaluates a formula of the
calculator, where everything is a number.  In both, nothing is worth something that has a part
without a value, unless the part does not count.
-/

namespace Diagram

/-- The exact value of a floating-point number. -/
def Decimal.Binary.rational? : Decimal.Binary → Option Rat
  | finite negative m q =>
    let n : Rat := if 0 ≤ q then m * 2 ^ q.toNat else m / 2 ^ (-q).toNat
    some (if negative then -n else n)
  | _ => none

/-- The exact value of a floating-point number. -/
def rationalOf (x : Float) : Option Rat :=
  (Decimal.Binary.ofFloat x).rational?

/-- The value of an expression. -/
inductive Meaning where
  | number (q : Rat)
  | truth (b : Bool)
deriving DecidableEq, Repr

namespace Meaning

/-- A value as a number: true is one, false is zero. -/
def rational : Meaning → Rat
  | number q => q
  | truth b => if b then 1 else 0

def truth? : Meaning → Option Bool
  | truth b => some b
  | number _ => none

/-- The value of an operation on numbers; truth values count as numbers here. -/
def arithmetic (f : Rat → Rat → Rat) (a b : Option Meaning) : Option Meaning := do
  let x ← a
  let y ← b
  return number (f x.rational y.rational)

def comparison (p : Rat → Rat → Bool) (a b : Option Meaning) : Option Meaning := do
  let x ← a
  let y ← b
  return truth (p x.rational y.rational)

/-- The value behind the first true condition, or the last value if it has none. -/
def chosen : List (Option Meaning) → Option Meaning
  | condition :: value :: rest => do
    let x ← condition
    let holds ← x.truth?
    if holds then value else chosen rest
  | [default] => default
  | [] => none

def operation (op : Operation) (ms : List (Option Meaning)) : Option Meaning :=
  match op, ms with
  | .negate, [a] => a.map fun x => number (-x.rational)
  | .add, [a, b] => arithmetic (· + ·) a b
  | .subtract, [a, b] => arithmetic (· - ·) a b
  | .multiply, [a, b] => arithmetic (· * ·) a b
  | .lessThan, [a, b] => comparison (· < ·) a b
  | .greaterThan, [a, b] => comparison (· > ·) a b
  | .lessEqual, [a, b] => comparison (· ≤ ·) a b
  | .greaterEqual, [a, b] => comparison (· ≥ ·) a b
  | .equal, [a, b] => comparison (· == ·) a b
  | .notEqual, [a, b] => comparison (· != ·) a b
  | .not, [a] => do
    let x ← a
    let holds ← x.truth?
    return truth !holds
  | .and, [a, b] => do
    let x ← a
    let holds ← x.truth?
    if holds then b else some (truth false)
  | .or, [a, b] => do
    let x ← a
    let holds ← x.truth?
    if holds then some (truth true) else b
  | .conditional, ms => chosen ms
  | _, _ => none

def ofValue : Value → Option Meaning
  | .int i => some (number i.toInt)
  | .real x => (rationalOf x).map number
  | .bool b => some (truth b)
  | _ => none

/-- The value of a name of a type, from the number that it is assigned. -/
def ofNumber (t : Ty) (q : Rat) : Meaning :=
  if t = .bool then truth (q == 1) else number q

end Meaning

namespace Expr

variable (ρ : String → Rat)

mutual

/-- The value of an expression, from the numbers that are assigned to its names. -/
def meaning : Expr → Option Meaning
  | literal _ v => Meaning.ofValue v
  | name info n => some (Meaning.ofNumber info.ty (ρ n))
  | timeStep _ => none
  | operator _ op operands => Meaning.operation op (meanings operands)

def meanings : List Expr → List (Option Meaning)
  | [] => []
  | e :: es => meaning e :: meanings es

end

end Expr

def Relation.holds : Relation → Rat → Rat → Bool
  | less, x, y => x < y
  | greater, x, y => x > y
  | lessEqual, x, y => x ≤ y
  | greaterEqual, x, y => x ≥ y

namespace Formula

/-- The name of a program as it stands in formulas. -/
def mangled (name : String) : String :=
  String.ofList (name.toList.filter (· != '_'))

/-- The outcome of a condition, which is `undecided` if a side has no value. -/
def outcome (undecided : Option Bool) (p : Rat → Rat → Bool) : Option Rat → Option Rat → Option Bool
  | some x, some y => some (p x y)
  | _, _ => undecided

/-- What a case distinction is worth, from the outcome of its first condition. -/
def choose (condition : Option Bool) (value rest : Option Rat) : Option Rat :=
  condition.bind fun holds => if holds then value else rest

variable (undecided : Option Bool) (σ : String → Rat)

mutual

/-- The value of a formula, from the numbers that are assigned to the names of the program.  The
outcome of a condition on something without a value is `undecided`: a case distinction may then
have no value, or go on as if the condition did not hold. -/
def value : Formula → Option Rat
  | decimal x => rationalOf x
  | subscript (letter c) (word w) => if c = baseLetter then some (σ w) else none
  | negative f => (value f).map (- ·)
  | joined .plus f g => do return (← value f) + (← value g)
  | joined .minus f g => do return (← value f) - (← value g)
  | joined .times f g => do return (← value f) * (← value g)
  | bracketed .paren f => value f
  | bracketed .curly (sequence fs) => distinction fs
  | _ => none

def condition : Formula → Option Bool
  | joined .equals f g => outcome undecided (· == ·) (value f) (value g)
  | ordered f r g [] => outcome undecided r.holds (value f) (value g)
  | _ => none

/-- The value of a case distinction: that of the first branch whose condition holds, where a bare
condition is worth one, or that of a last formula without a condition. -/
def distinction : List Formula → Option Rat
  | joined .colon c f :: rest => choose (condition c) (value f) (distinction rest)
  | joined .equals f g :: rest =>
    choose (outcome undecided (· == ·) (value f) (value g)) (some 1) (distinction rest)
  | ordered f r g [] :: rest =>
    choose (outcome undecided r.holds (value f) (value g)) (some 1) (distinction rest)
  | [f] => value f
  | _ => none

end

end Formula

end Diagram
