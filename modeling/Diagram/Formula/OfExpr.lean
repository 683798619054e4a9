import Diagram.Formula
import Diagram.Program

/-!
# Formulas of expressions and actions

The target calculator has no truth values, so a condition is a case distinction that is worth
one or zero.  Calls without arguments become bare names.  A chain of comprehensions becomes a
single one, and a chain of bindings a single list of equations.
-/

namespace Diagram

namespace Formula

/-- Why a tree has no formula.  A tree that was read from a source and analyzed has one. -/
inductive Defect where
  | operation (op : Operation)
  | missingAction
  | operands (op : Operation)
  | memberName
deriving DecidableEq, Repr

def Defect.message : Defect → String
  | operation op => s!"no translation for operation {op.text}"
  | missingAction => "no translation for action <nil>"
  | operands op => s!"wrong number of operands: {op.text}"
  | memberName => "missing member name"

def ofVertex (v : Vertex) : Formula :=
  tuple [decimal v.x, decimal v.y]

mutual

def ofValue : Value → Formula
  | .real x => decimal x
  | .int i => decimal (Value.floatOfInteger i)
  | .bool b => decimal (if b then 1 else 0)
  | .point v => ofVertex v
  | .ipoint x y => ofVertex ⟨Value.floatOfInteger x, Value.floatOfInteger y⟩
  | .color model a b c => commandCall model.text [decimal a, decimal b, decimal c]
  | .polygon vertices => commandCall "polygon" (vertices.map ofVertex)
  | .segment a b => commandCall "segment" [ofVertex a, ofVertex b]
  | .str s => word s
  | .list _ items => list (ofValues items)
  | .enum _ _ ordinal => decimal (Value.floatOfInteger ordinal)

def ofValues : List Value → List Formula
  | [] => []
  | v :: vs => ofValue v :: ofValues vs

end

def writtenName : Expr → String
  | .name _ n => n
  | .timeStep _ => Expr.timeStepName
  | _ => ""

/-- The formula of an expression, as long as its outermost clause may become a part of the same
clause around it. -/
inductive Clause where
  | plain (f : Formula)
  /-- A comprehension: its item and the equations of its variables, the outermost first. -/
  | comprehension (item : Formula) (bindings : List Formula)
  | bound (body : Formula) (bindings : List Formula)

namespace Clause

def formula : Clause → Formula
  | plain f => f
  | comprehension item bindings => .comprehension item (.sequence bindings)
  | bound body bindings => .joined .withBinding body (.sequence bindings)

/-- The item of a comprehension; any other formula stands for itself. -/
def item : Clause → Formula
  | comprehension item _ => item
  | c => c.formula

def equations : Clause → List Formula
  | comprehension _ bindings => bindings
  | _ => []

def bindings : Clause → List Formula
  | bound body bindings => body :: bindings
  | c => [c.formula]

end Clause

def comparison (r : Relation) (lhs rhs : Formula) : Formula :=
  piecewise [ordered lhs r rhs [], decimal 0]

/-- The branches of a case distinction from conditions and values in turn, and the default that
may be left over. -/
def branches : List Formula → List Formula
  | condition :: value :: rest => branch (equality condition (decimal 1)) value :: branches rest
  | rest => rest

/-- The end of a range, one less if it is exclusive. -/
def rangeEnd (op : Operation) (last : Expr) (f : Formula) : Formula :=
  if op = .exclusiveRange then
    match last.value?.bind Value.number? with
    | some x => decimal (x - 1)
    | none => bracketed .paren (joined .minus f (decimal 1))
  else f

/-- The items of a range: the starting values, the last of which begins the progression. -/
def rangeItems : List Formula → Formula → Option (List Formula)
  | [], _ => none
  | [a], stop => some [ellipsis a (some stop)]
  | a :: rest, stop => (rangeItems rest stop).map (a :: ·)

def range (op : Operation) (operands : List Expr) (fs : List Formula) :
    Except Defect Formula :=
  match operands.getLast?, fs.getLast? with
  | some last, some f =>
    match rangeItems fs.dropLast (rangeEnd op last f) with
    | some items => .ok (list items)
    | none => .error (.operands op)
  | _, _ => .error (.operands op)

/-- Whether a call of a name without arguments is written as the bare name. -/
def isBareCall (sigs : Signatures) (name : String) : Bool :=
  (sigs.get? name).any (·.paramList.isEmpty)

/-- A call of a definition.  One without parameters is written as the bare name. -/
def definitionCall (sigs : Signatures) (callee : Expr) (calleeFormula : Formula)
    (args : List Formula) : Formula :=
  match callee.name? with
  | some name =>
    if args.isEmpty && isBareCall sigs name then calleeFormula
    else call calleeFormula (sequence args)
  | none => call calleeFormula (sequence args)

def operation (op : Operation) (fs : List Formula) : Except Defect Formula :=
  match op, fs with
  | .pointLiteral, fs => .ok (tuple fs)
  | .listLiteral, fs => .ok (list fs)
  | .index, [a, b] => .ok (index a b)
  | .posate, [a] => .ok (bracketed .paren (positive a))
  | .negate, [a] => .ok (bracketed .paren (negative a))
  | .not, [a] => .ok (piecewise [equality a (decimal 0), decimal 0])
  | .exponent, [a, b] => .ok (superscript a b)
  | .multiply, [a, b] => .ok (bracketed .paren (joined .times a b))
  | .divide, [a, b] => .ok (fraction a b)
  | .modulus, [a, b] => .ok (commandCall "mod" [a, b])
  | .add, [a, b] => .ok (bracketed .paren (joined .plus a b))
  | .subtract, [a, b] => .ok (bracketed .paren (joined .minus a b))
  | .lessThan, [a, b] => .ok (comparison .less a b)
  | .greaterThan, [a, b] => .ok (comparison .greater a b)
  | .lessEqual, [a, b] => .ok (comparison .lessEqual a b)
  | .greaterEqual, [a, b] => .ok (comparison .greaterEqual a b)
  | .equal, [a, b] => .ok (piecewise [equality a b, decimal 0])
  | .notEqual, [a, b] => .ok (piecewise [branch (equality a b) (decimal 0), decimal 1])
  | .and, [a, b] => .ok (piecewise [branch (equality a (decimal 0)) (decimal 0), b])
  | .or, [a, b] => .ok (piecewise [branch (equality a (decimal 1)) (decimal 1), b])
  | .conditional, fs => .ok (piecewise (branches fs))
  | .assignment, [a, b] => .ok (equality a b)
  | .update, [a, b] => .ok (joined .arrow a b)
  | .other n, _ => .error (.operation (.other n))
  | op, _ => .error (.operands op)

/-- The variable that counts the items of a list of equal items.  No name of a program starts
with a digit. -/
def fillName : String := "0"

/-- A list of equal items, as a comprehension over a progression. -/
def fill (item count : Formula) : Formula :=
  comprehension item
    (equality (ofName fillName) (bracketed .square (ellipsis (decimal 1) (some count))))

mutual

def clause (sigs : Signatures) : Expr → Except Defect Clause
  | .literal _ v => .ok (.plain (ofValue v))
  | .name _ n => .ok (.plain (ofName n))
  | .timeStep _ => .ok (.plain (word Expr.timeStepName))
  | .operator _ op operands =>
    match op with
    | .listFill =>
      match operands with
      | [item, count] => do
        let item ← clause sigs item
        let count ← clause sigs count
        return .plain (fill item.formula count.formula)
      | _ => .error (.operands op)
    | .listMap =>
      match operands with
      | [body, bound, source] => do
        let source ← clause sigs source
        let body ← clause sigs body
        return .comprehension body.item
          (equality (ofName (writtenName bound)) source.formula :: body.equations)
      | _ => .error (.operands op)
    | .listFilter =>
      match operands with
      | [list, condition] => do
        let list ← clause sigs list
        let condition ← clause sigs condition
        let condition :=
          match list with
          | .comprehension _ bindings =>
            Formula.comprehension condition.formula (sequence bindings)
          | _ => condition.formula
        return .plain (index list.formula (equality condition (decimal 1)))
      | _ => .error (.operands op)
    | .exclusiveRange | .inclusiveRange => do
      let fs ← ofExprs sigs operands
      let f ← range op operands fs
      return .plain f
    | .memberAccess =>
      match operands with
      | [subject, member] => do
        let subject ← clause sigs subject
        match (writtenName member).toList with
        | c :: _ => return .plain (joined .member subject.formula (letter c))
        | [] => .error .memberName
      | _ => .error (.operands op)
    | .builtIn =>
      match operands with
      | name :: _ => .ok (.plain (command (writtenName name)))
      | [] => .error (.operands op)
    | .actionCall =>
      match operands with
      | callee :: args => do
        let args ← ofExprs sigs args
        let name := writtenName callee
        if args.isEmpty && isBareCall sigs name then return .plain (ofName name)
        return .plain (call (ofName name) (sequence args))
      | [] => .error (.operands op)
    | .withBinding =>
      match operands with
      | [body, bindings] => do
        let body ← clause sigs body
        let bindings ← clause sigs bindings
        return .bound body.formula bindings.bindings
      | _ => .error (.operands op)
    | .call =>
      match operands with
      | callee :: args => do
        let calleeClause ← clause sigs callee
        let args ← ofExprs sigs args
        return .plain (definitionCall sigs callee calleeClause.formula args)
      | [] => .error (.operands op)
    | _ => do
      let fs ← ofExprs sigs operands
      let f ← operation op fs
      return .plain f

def ofExprs (sigs : Signatures) : List Expr → Except Defect (List Formula)
  | [] => .ok []
  | e :: es => do
    let c ← clause sigs e
    let fs ← ofExprs sigs es
    return c.formula :: fs

end

def ofExpr (sigs : Signatures) (e : Expr) : Except Defect Formula :=
  (clause sigs e).map Clause.formula

mutual

def ofAction (sigs : Signatures) : Action → Except Defect Formula
  | .hole => .error .missingAction
  | .block actions => (ofActions sigs actions).map tuple
  | .update target value => do
    let target ← ofExpr sigs target
    let value ← ofExpr sigs value
    return joined .arrow target value
  | .call callee args => do
    let args ← ofExprs sigs args
    let name := writtenName callee
    if args.isEmpty && isBareCall sigs name then return ofName name
    return call (ofName name) (sequence args)
  | .conditional arms default => do
    let arms ← ofArms sigs arms
    match default with
    | .hole => return piecewise arms
    | d => return piecewise (arms ++ [← ofAction sigs d])

def ofActions (sigs : Signatures) : List Action → Except Defect (List Formula)
  | [] => .ok []
  | a :: as => do
    let f ← ofAction sigs a
    let fs ← ofActions sigs as
    return f :: fs

def ofArms (sigs : Signatures) : List (Expr × Action) → Except Defect (List Formula)
  | [] => .ok []
  | (condition, body) :: rest => do
    let condition ← ofExpr sigs condition
    let body ← ofAction sigs body
    let rest ← ofArms sigs rest
    return branch (equality condition (decimal 1)) body :: rest

end

end Formula

end Diagram
