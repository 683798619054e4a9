import Diagram.Scope
import Diagram.Typing.Rules

/-!
# Inference of types

Gives every node of an expression its type and replaces operations on constants by their
values.  A top-level definition is analyzed the first time that its type or its value is
needed, so the order of declarations does not matter.  A reference back into a definition
that is still being analyzed sees the declared type, which may be unknown.
-/

namespace Diagram.Typing

/-- Names that were visited, the latest first. -/
abbrev Visits := List String

def Visits.empty : Visits := []

/-- How far an analysis has come. -/
structure State where
  signatures : Signatures
  identifiers : NameMap Expr
  /-- The definitions whose analysis has begun. -/
  begun : Visits
  /-- The notes so far, the latest first. -/
  notes : List Note

def State.hasBegun (s : State) (name : String) : Bool :=
  s.begun.contains name

abbrev Check := EStateM Failure State

/-- Refuses a program that breaks a rule at a place. -/
def reject {α : Type} (area : Area) (cause : Cause) : Check α :=
  throw (.rejected ⟨cause, area⟩)

/-- Stops at a tree that no source produces. -/
def defect {α : Type} (d : Defect) : Check α :=
  throw (.defective d)

def follow {α : Type} (r : Ruling α) : Check α :=
  match r with
  | .ok a => pure a
  | .error e => throw (.rejected e)

def conclude (area : Area) (op : Operation) (operands : List Expr) : Check Expr :=
  match verdict area op operands with
  | .ok v => pure (v.expr area op operands)
  | .error e => throw e

def tell (n : Note) : Check Unit :=
  modify fun s => { s with notes := n :: s.notes }

def signature? (name : String) : Check (Option Signature) :=
  return (← get).signatures.get? name

/-- The type of a top-level name as far as it is known. -/
def knownTy (name : String) : Check Ty :=
  return ((← signature? name).map (·.ty)).getD .unknown

def definedValue? (name : String) : Check (Option Value) :=
  return ((← get).identifiers.get? name).bind Expr.value?

/-- The type or the value of a name.  Local names hide the time step, which hides the top-level
names.  A reference to a constant becomes its value. -/
def lookup (resolve : String → Check Unit) (scope : Scope) (area : Area) (name : String) :
    Check Expr := do
  let typed (t : Ty) : Expr := .name ⟨t, area⟩ name
  match scope.get? name with
  | some t => return typed t
  | none =>
    if scope.allowTime && name = Expr.timeStepName then
      return .timeStep ⟨.real, area⟩
    let some sig ← signature? name
      | reject area (.unknownName name)
    match sig.declares with
    | .action => return typed (.action name)
    | .enum => return typed (.user name)
    | _ =>
      if sig.hasParams then return typed (.function name)
      if sig.ty.isUnknown || sig.declares = .const then resolve name
      if sig.declares = .const then
        if let some v ← definedValue? name then
          return .constant v area
      return typed (← knownTy name)

def lookupBuiltin (area : Area) (e : Expr) : Check Builtin := do
  let some name := e.name?
    | reject e.area .builtinName
  let some b := Builtin.find? name
    | reject area (.unknownBuiltin name)
  return b

def builtinExpr (area : Area) (name : Expr) (b : Builtin) : Expr :=
  .operator ⟨b.result, area⟩ .builtIn [name.withTy b.result]

def builtinCall (area : Area) (b : Builtin) (args : List Expr) : Check Verdict := do
  match b.fold, args.mapM Expr.value? with
  | some fold, some values =>
    match fold.run values with
    | .error e => reject area (.badCall e)
    | .ok none => defect (.wrongOperands .call)
    | .ok (some v) =>
      tell (.foldedCall b.name v)
      return ⟨b.result, some v⟩
  | _, _ => return .typed b.result

/-- The signature of the action that an action call names, with the right number of arguments. -/
def actionSignature (scope : Scope) (callee : Expr) (count : Nat) : Check Signature := do
  let some name := callee.name?
    | reject callee.area .actionName
  let sig? ← signature? name
  if (scope.get? name).isSome then reject callee.area (.localIsNoAction name)
  let some sig := sig?
    | reject callee.area (.unknownName name)
  if sig.declares ≠ .action then reject callee.area (.otherIsNoAction sig)
  if count ≠ sig.paramList.length then reject callee.area (.actionArgumentCount sig count)
  return sig

def updateTarget (resolve : String → Check Unit) (scope : Scope) (target : Expr) :
    Check Expr := do
  let some name := target.name?
    | reject target.area .updateTarget
  if (scope.get? name).isSome then reject target.area (.updateOfLocal name)
  let some sig ← signature? name
    | reject target.area (.unknownName name)
  if sig.declares ≠ .var then reject target.area (.updateOfOther sig)
  resolve name
  return target.withTy (← knownTy name)

/-- The enumeration that the subject of a member access names. -/
def enumSignature? (scope : Scope) (subject : Expr) : Check (Option Signature) := do
  match subject.name? with
  | none => return none
  | some name =>
    if (scope.get? name).isSome then return none
    return (← signature? name).filter (·.declares = .enum)

def variant? (sig : Signature) (name : String) : Option Value :=
  (sig.variants.findIdx? (· == name)).map fun i => .enum sig.name name (Int64.ofNat i)

/-- The scope inside a chain of comprehensions whose types are known. -/
def scopeInside (scope : Scope) : Expr → Scope
  | .operator _ .listMap [body, bound, _] =>
    match bound.name? with
    | some name => scopeInside (scope.bind name bound.ty) body
    | none => scope
  | _ => scope

def scopeWithBindings (scope : Scope) : Expr → Scope
  | .operator _ .withBinding [left, right] =>
    scopeWithBindings (scopeWithBindings scope left) right
  | .operator _ .assignment [target, _] =>
    match target.name? with
    | some name => scope.bind name target.ty
    | none => scope
  | _ => scope

/-- The list type of a comprehension from its body; a chain of comprehensions makes one flat
list. -/
def comprehensionTy (body : Expr) : Ruling Ty :=
  if body.isOp .listMap then .ok body.ty
  else do
    requireFlat body
    return .list body.ty

/-- A range has at most two starting values. -/
def requireStarts (op : Operation) : List Expr → Check Unit
  | _ :: _ :: third :: _ :: _ =>
    if op = .exclusiveRange || op = .inclusiveRange then reject third.area .rangeStarts
    else pure ()
  | _ => pure ()

mutual

/-- Infers the types of an expression.  The sources of a chain of comprehensions are looked up
in the scope around the chain, `outer`; everywhere else the two scopes are the same. -/
def infer (resolve : String → Check Unit) (outer scope : Scope) : Expr → Check Expr
  | .literal info v => return .constant v info.area
  | .name info n => lookup resolve scope info.area n
  | .timeStep info => return .timeStep ⟨.real, info.area⟩
  | .operator info op operands =>
    match op with
    | .listMap =>
      match operands with
      | [body, bound, source] => do
        let source ← infer resolve outer outer source
        let some name := bound.name?
          | reject bound.area .loopVariable
        follow (requireList source .cannotIterate)
        let item := itemTy source.ty
        let body ← infer resolve outer (scope.bind name item) body
        let t ← follow (comprehensionTy body)
        return .operator ⟨t, info.area⟩ .listMap [body, bound.withTy item, source]
      | _ => defect (.wrongOperands op)
    | .listFilter =>
      match operands with
      | [list, condition] => do
        let list ← infer resolve scope scope list
        unless list.isOp .listMap do
          follow (requireList list .cannotFilter)
        let inner := scopeInside scope list
        let condition ← infer resolve inner inner condition
        follow (requireItemCoercion condition .bool)
        return .operator ⟨list.ty, info.area⟩ .listFilter [list, condition]
      | _ => defect (.wrongOperands op)
    | .memberAccess =>
      match operands with
      | [subject, member] => do
        let some name := member.name?
          | reject member.area .memberName
        match ← enumSignature? scope subject with
        | some sig =>
          match variant? sig name with
          | some v => return .constant v info.area
          | none => reject member.area (.noVariant sig.name name)
        | none =>
          let subject ← infer resolve scope scope subject
          let t ← follow (memberTy info.area subject name)
          let verdict : Verdict :=
            ⟨spread t [subject.ty], subject.value?.bind (coordinate? name)⟩
          return verdict.expr info.area .memberAccess [subject, member.withTy t]
      | _ => defect (.wrongOperands op)
    | .builtIn =>
      match operands with
      | [name] => do
        let b ← lookupBuiltin info.area name
        return builtinExpr info.area name b
      | _ => defect (.wrongOperands op)
    | .call =>
      match operands with
      | .operator calleeInfo .builtIn calleeOperands :: args =>
        match calleeOperands with
        | [name] => do
          let b ← lookupBuiltin calleeInfo.area name
          match b.checkArity args.length with
          | .error e => reject info.area (.badCall e)
          | .ok () =>
            let args ← inferAll resolve scope args
            let verdict ← builtinCall info.area b args
            return verdict.expr info.area .call (builtinExpr calleeInfo.area name b :: args)
        | _ => defect (.wrongOperands .builtIn)
      | callee :: args => do
        let described := callee.text
        let callee ← infer resolve scope scope callee
        let .function name := callee.ty
          | reject callee.area (.notCallable described)
        let some sig ← signature? name
          | defect (.identifierWithoutSignature name)
        if args.length ≠ sig.paramList.length then
          reject info.area (.argumentCount sig args.length)
        let args ← inferArgs resolve scope (Cause.argument · sig) 1 sig.paramList args
        if sig.ty.isUnknown then resolve name
        return .operator ⟨← knownTy name, info.area⟩ .call (callee :: args)
      | [] => defect (.wrongOperands op)
    | .actionCall =>
      match operands with
      | callee :: args => do
        let sig ← actionSignature scope callee args.length
        let args ← inferArgs resolve scope (Cause.actionArgument · sig) 1 sig.paramList args
        let t := Ty.action sig.name
        return .operator ⟨t, info.area⟩ .actionCall (callee.withTy t :: args)
      | [] => defect (.wrongOperands op)
    | .not =>
      match operands with
      | [x] => do
        let x ← infer resolve scope scope x
        follow (requireCoercion x .bool)
        return (negation x).expr info.area op [x]
      | _ => defect (.wrongOperands op)
    | .and | .or =>
      match operands with
      | [x, y] => do
        let x ← infer resolve scope scope x
        follow (requireCoercion x .bool)
        let y ← infer resolve scope scope y
        follow (requireCoercion y .bool)
        return (connective op x y).expr info.area op [x, y]
      | _ => defect (.wrongOperands op)
    | .conditional => do
      let (branches, t) ← inferBranches resolve scope none operands
      return .operator ⟨t, info.area⟩ .conditional branches
    | .assignment => reject info.area .strayAssignment
    | .update =>
      match operands with
      | [target, value] => do
        let target ← updateTarget resolve scope target
        let value ← infer resolve scope scope value
        follow (requireCoercion value target.ty)
        return .operator ⟨.void, info.area⟩ .update [target, value]
      | _ => defect (.wrongOperands op)
    | .withBinding =>
      match operands with
      | [body, bindings] => do
        let bindings ← inferBindings resolve scope true bindings
        let inner := scopeWithBindings scope bindings
        let body ← infer resolve inner inner body
        return .operator ⟨body.ty, info.area⟩ .withBinding [body, bindings]
      | _ => defect (.wrongOperands op)
    | .other n => defect (.unknownOperation (.other n))
    | _ => do
      if op = .index && !scope.allowIndex then reject info.area .indexNotAllowed
      requireStarts op operands
      let operands ← inferAll resolve scope operands
      conclude info.area op operands

/-- Infers the types of some expressions, from left to right. -/
def inferAll (resolve : String → Check Unit) (scope : Scope) : List Expr → Check (List Expr)
  | [] => return []
  | e :: es => do
    let e ← infer resolve scope scope e
    let es ← inferAll resolve scope es
    return e :: es

/-- Infers the types of arguments, counted from `number`, each of which must coerce to the type
of its parameter. -/
def inferArgs (resolve : String → Check Unit) (scope : Scope) (cause : Nat → Ty → Ty → Cause)
    (number : Nat) (params : List Param) : List Expr → Check (List Expr)
  | [] => return []
  | e :: es => do
    let e ← infer resolve scope scope e
    match params with
    | [] => defect (.argumentWithoutParameter number)
    | p :: ps =>
      if !e.ty.coercesTo p.ty then reject e.area (cause number e.ty p.ty)
      let es ← inferArgs resolve scope cause (number + 1) ps es
      return e :: es

/-- Infers the types of a conditional, which alternates between conditions and values and may
end with a default.  Also gives the merged type of the values. -/
def inferBranches (resolve : String → Check Unit) (scope : Scope) (earlier : Option Ty) :
    List Expr → Check (List Expr × Ty)
  | [] => return ([], earlier.getD .unknown)
  | [default] => do
    let default ← infer resolve scope scope default
    let t ← follow (mergeBranch earlier default)
    return ([default], t)
  | condition :: value :: rest => do
    let condition ← infer resolve scope scope condition
    follow (requireCoercion condition .bool)
    let value ← infer resolve scope scope value
    let t ← follow (mergeBranch earlier value)
    let (rest, t) ← inferBranches resolve scope (some t) rest
    return (condition :: value :: rest, t)

/-- Infers the types of the bindings after a body, whose values do not see each other.  A chain
of bindings has no type of its own. -/
def inferBindings (resolve : String → Check Unit) (scope : Scope) (chain : Bool) :
    Expr → Check Expr
  | .operator info .withBinding [left, right] => do
    let left ← inferBindings resolve scope false left
    let right ← inferBindings resolve scope chain right
    return .operator ⟨if chain then .void else info.ty, info.area⟩ .withBinding [left, right]
  | .operator info .assignment [target, value] => do
    if target.name?.isNone then reject target.area .assignmentTarget
    let value ← infer resolve scope scope value
    return .operator ⟨value.ty, info.area⟩ .assignment [target.withTy value.ty, value]
  | .operator _ .withBinding _ => defect (.wrongOperands .withBinding)
  | .operator _ .assignment _ => defect (.wrongOperands .assignment)
  | e => reject e.area .assignmentExpected

end

end Diagram.Typing
