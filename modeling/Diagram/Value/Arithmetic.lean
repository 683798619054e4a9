import Diagram.Decimal.Read
import Diagram.Operation
import Diagram.Value
import Diagram.Value.Integer

/-!
# Operations on constants

What operations give on constants whose result type is already known.  Each of them declines
where the result is left to the target, such as an integer sum that overflows.
-/

namespace Diagram.Value

/-- A floating-point number without its fraction; the least integer if that has more than 64
bits. -/
def integerOfFloat (x : Float) : Int64 :=
  ((Decimal.Binary.ofFloat x).whole?.bind Decimal.integer?).getD Int64.minValue

/-- A point of one of the two point types. -/
def ofVertex (t : Ty) (v : Vertex) : Value :=
  if t = .ipoint then .ipoint (integerOfFloat v.x) (integerOfFloat v.y) else .point v

mutual

/-- A constant in the representation of a type that it coerces to.  A constant that needs no
conversion is unchanged. -/
def convert (t : Ty) : Value → Value
  | real x => real x
  | int i => if t = .real then real (floatOfInteger i) else int i
  | bool b => convertNumber t (bool b)
  | enum name variant ordinal => convertNumber t (enum name variant ordinal)
  | ipoint x y =>
    if t = .point then point ⟨floatOfInteger x, floatOfInteger y⟩ else ipoint x y
  | list item items =>
    match t with
    | .list item' => if item'.isUnknown then list item items else list item' (convertAll item' items)
    | _ => list item items
  | v => v
where
  /-- A truth value or a variant as a number. -/
  convertNumber (t : Ty) (v : Value) : Value :=
    match t, v.number? with
    | .real, some x => real x
    | .int, some x => int (integerOfFloat x)
    | _, _ => v

def convertAll (t : Ty) : List Value → List Value
  | [] => []
  | v :: vs => convert t v :: convertAll t vs

end

def signed? (op : Operation) (v : Value) : Option Value :=
  let sign : Float := if op = .negate then -1 else 1
  match v.vertex? with
  | some p => some (ofVertex v.ty ⟨sign * p.x, sign * p.y⟩)
  | none =>
    match v.number?, v.integer? with
    | none, _ => none
    | some x, none => some (real (sign * x))
    | some _, some i =>
      if op ≠ .negate then some (int i)
      else if i = Int64.minValue then none
      else some (int (-i))

def integerArithmetic? (op : Operation) (a b : Int64) : Option Int64 :=
  match op with
  | .add => Integer.add? a b
  | .subtract => Integer.subtract? a b
  | .multiply => Integer.multiply? a b
  | .modulus => Integer.modulus? a b
  | .exponent => Integer.power? a b
  | _ => none

/-- Arithmetic on reals.  A remainder has the sign of the divisor. -/
def realArithmetic? (op : Operation) (a b : Float) : Option Float :=
  match op with
  | .add => some (a + b)
  | .subtract => some (a - b)
  | .multiply => some (a * b)
  | .divide => some (a / b)
  | .modulus => some (a - b * (a / b).floor)
  | .exponent => some (a.pow b)
  | _ => none

def pointArithmetic? (op : Operation) (a b : Value) : Option Vertex :=
  match a.vertex?, b.vertex? with
  | some p, some q =>
    match op with
    | .add => some ⟨p.x + q.x, p.y + q.y⟩
    | .subtract => some ⟨p.x - q.x, p.y - q.y⟩
    | _ => none
  | some p, none =>
    b.number?.map fun n =>
      if op = .divide then ⟨p.x / n, p.y / n⟩ else ⟨p.x * n, p.y * n⟩
  | none, some q => a.number?.map fun n => ⟨n * q.x, n * q.y⟩
  | none, none => none

/-- Arithmetic on two constants with a result of a known type. -/
def arithmetic? (op : Operation) (a b : Value) (t : Ty) : Option Value :=
  if t.isPoint then (pointArithmetic? op a b).map (ofVertex t)
  else if t = .int then do
    let r ← integerArithmetic? op (← a.integer?) (← b.integer?)
    return int r
  else do
    let r ← realArithmetic? op (← a.number?) (← b.number?)
    return real r

def compareNumbers (op : Operation) (x y : Float) : Bool :=
  match op with
  | .lessThan => x < y
  | .greaterThan => y < x
  | .lessEqual => x ≤ y
  | .greaterEqual => y ≤ x
  | .equal => x == y
  | .notEqual => x != y
  | _ => false

/-- Whether two constants that are not both numbers are equal, unless only the first is a
point. -/
def same? (a b : Value) : Option Bool :=
  match a.vertex? with
  | some p => b.vertex?.map p.same
  | none => some (a.difference? b).isNone

def compare? (op : Operation) (a b : Value) : Option Bool :=
  match a.number?, b.number? with
  | some x, some y => some (compareNumbers op x y)
  | _, _ =>
    match op with
    | .equal => same? a b
    | .notEqual => (same? a b).map (!·)
    | _ => none

end Diagram.Value
