import Diagram.Operation
import Diagram.Value

/-!
# Expressions

An expression is a constant, a name, the time step of the ticker, or an operation on
operands.  Every node carries its type, unknown until it is inferred, and the stretch of
source that it was read from.
-/

namespace Diagram

/-- What every node of an expression carries. -/
structure Info where
  ty : Ty
  area : Area
deriving DecidableEq, Repr, Inhabited

inductive Expr where
  | literal (info : Info) (v : Value)
  | name (info : Info) (n : String)
  /-- The time since the previous tick. -/
  | timeStep (info : Info)
  | operator (info : Info) (op : Operation) (operands : List Expr)
deriving Repr, Inhabited

namespace Expr

def timeStepName : String := "dt"

def info : Expr → Info
  | literal info _ | name info _ | timeStep info | operator info _ _ => info

def ty (e : Expr) : Ty := e.info.ty

def area (e : Expr) : Area := e.info.area

def withInfo (info : Info) : Expr → Expr
  | literal _ v => literal info v
  | name _ n => name info n
  | timeStep _ => timeStep info
  | operator _ op operands => operator info op operands

def withTy (e : Expr) (t : Ty) : Expr :=
  e.withInfo ⟨t, e.area⟩

def withArea (e : Expr) (a : Area) : Expr :=
  e.withInfo ⟨e.ty, a⟩

def constant (v : Value) (area : Area) : Expr :=
  literal ⟨v.ty, area⟩ v

/-- A name at a place, of a type that is still to be inferred. -/
def reference (n : String) (area : Area) : Expr :=
  name ⟨.unknown, area⟩ n

/-- An operation on operands, which covers the source from the first to the last of them. -/
def apply (op : Operation) (operands : List Expr) : Expr :=
  operator ⟨.unknown, operands.head?.bind (·.area.start), operands.getLast?.bind (·.area.stop)⟩
    op operands

def value? : Expr → Option Value
  | literal _ v => some v
  | _ => none

def isLiteral (e : Expr) : Bool :=
  e.value?.isSome

def name? : Expr → Option String
  | name _ n => some n
  | _ => none

def isOp (e : Expr) (op : Operation) : Bool :=
  match e with
  | operator _ o _ => o == op
  | _ => false

def operands : Expr → List Expr
  | operator _ _ operands => operands
  | _ => []

def str? : Expr → Option String
  | literal _ (.str s) => some s
  | _ => none

mutual

/-- The text of an expression: an operation in parentheses before its operands. -/
def text : Expr → String
  | literal _ v => v.text
  | name _ n => n
  | timeStep _ => timeStepName
  | operator _ op operands => "(" ++ " ".intercalate (op.text :: texts operands) ++ ")"

def texts : List Expr → List String
  | [] => []
  | e :: es => e.text :: texts es

end

mutual

/-- All nodes of an expression, operands before their operator. -/
def nodes : Expr → List Expr
  | operator info op operands => nodesOf operands ++ [operator info op operands]
  | e => [e]

def nodesOf : List Expr → List Expr
  | [] => []
  | e :: es => e.nodes ++ nodesOf es

end

mutual

def unplaced : Expr → Expr
  | literal info v => literal ⟨info.ty, .nowhere⟩ v
  | name info n => name ⟨info.ty, .nowhere⟩ n
  | timeStep info => timeStep ⟨info.ty, .nowhere⟩
  | operator info op operands => operator ⟨info.ty, .nowhere⟩ op (unplacedOf operands)

def unplacedOf : List Expr → List Expr
  | [] => []
  | e :: es => e.unplaced :: unplacedOf es

end

end Expr

end Diagram
