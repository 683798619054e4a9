import Diagram.Typing.Check

/-!
# Analysis of programs

Infers the types of all definitions, actions, entries and display elements of a program, in
this order and by name, and refuses the program at the first rule that it breaks.
-/

namespace Diagram

namespace Typing

/-- Checks an analyzed definition against its declaration: constants without parameters and
variables must be constants, and the value must coerce to the declared type, if there is one. -/
def accept (sig : Signature) (body : Expr) : Ruling Expr := do
  if sig.declares = .const && !sig.hasParams && !body.isLiteral then
    refuse body (.valueNotConstant sig)
  if sig.declares = .var && !body.isLiteral then
    refuse body (.initialNotConstant sig)
  if sig.ty.isUnknown then return body
  requireCoercion body sig.ty
  match body.value? with
  | some v => return .constant (v.convert sig.ty) body.area
  | none => return body

/-- Records an analyzed definition and its type, if none was declared. -/
def define (name : String) (sig : Signature) (body : Expr) : Check Unit :=
  modify fun s =>
    { s with
      identifiers := s.identifiers.insert name body
      signatures :=
        if sig.ty.isUnknown then s.signatures.insert name { sig with ty := body.ty }
        else s.signatures }

/-- Analyzes a definition unless its analysis has begun, with `again` for those that it needs. -/
def visit (again : String → Check Unit) (name : String) : Check Unit := do
  if (← get).hasBegun name then return
  modify fun s => { s with begun := name :: s.begun }
  let some sig ← signature? name
    | defect (.identifierWithoutSignature name)
  let some body := (← get).identifiers.get? name
    | defect (.identifierWithoutDefinition name)
  let scope := Scope.top.withParams sig.paramList
  let body ← infer again scope scope body
  define name sig (← follow (accept sig body))

/-- Analyzes a definition unless its analysis has begun.  There are at most `pending` definitions
whose analysis has not begun, so a name without one of them has no definition at all. -/
def resolve (name : String) : (pending : Nat) → Check Unit
  | 0 => do
    if (← get).hasBegun name then return
    let some _ ← signature? name
      | defect (.identifierWithoutSignature name)
    defect (.identifierWithoutDefinition name)
  | pending + 1 => visit (resolve · pending) name

/-- Analyzes a definition of the program, if that has not begun. -/
def resolveAny (name : String) : Check Unit := do
  resolve name (← get).identifiers.size

/-- Infers the types of an expression that stands outside of all definitions. -/
def inferIn (scope : Scope) (e : Expr) : Check Expr :=
  infer resolveAny scope scope e

mutual

def inferAction (scope : Scope) : Action → Check Action
  | .hole => defect .missingAction
  | .block actions => return .block (← inferActions scope actions)
  | .update target value => do
    let target ← updateTarget resolveAny scope target
    let value ← inferIn scope value
    follow (requireCoercion value target.ty)
    return .update target value
  | .call callee args => do
    let sig ← actionSignature scope callee args.length
    let args ← inferArgs resolveAny scope (Cause.actionArgument · sig) 1 sig.paramList args
    return .call (callee.withTy (.action sig.name)) args
  | .conditional branches default => do
    let branches ← inferArms scope branches
    match default with
    | .hole => return .conditional branches .hole
    | d => return .conditional branches (← inferAction scope d)

def inferActions (scope : Scope) : List Action → Check (List Action)
  | [] => return []
  | a :: as => do
    let a ← inferAction scope a
    let as ← inferActions scope as
    return a :: as

/-- Infers the types of the branches of a conditional action. -/
def inferArms (scope : Scope) : List (Expr × Action) → Check (List (Expr × Action))
  | [] => return []
  | (condition, body) :: rest => do
    let condition ← inferIn scope condition
    follow (requireCoercion condition .bool)
    let body ← inferAction scope body
    let rest ← inferArms scope rest
    return (condition, body) :: rest

end

def inferNamedAction (name : String) (a : Action) : Check Action := do
  let some sig ← signature? name
    | defect (.actionWithoutSignature name)
  inferAction (Scope.top.withParams sig.paramList) a

/-- Infers the types of the ticker.  Only its action sees the time step. -/
def inferTicker (t : Ticker) : Check Ticker := do
  let interval ← t.interval.mapM fun e => do
    let e ← inferIn .top e
    follow (requireCoercion e .real)
    return e
  let action ← inferAction { Scope.top with allowTime := true } t.action
  return { t with interval, action }

/-- Infers the types of a quantity of a display element, which must not be missing. -/
def inferQuantity : Option Expr → Check (Option Expr)
  | some e => return some (← inferIn .top e)
  | none => defect .missingExpression

/-- Infers the types of a display element.  The types of its quantities may be any. -/
def inferElement (e : Element) : Check Element :=
  e.traverse inferQuantity (inferAction .top)

def inferProgram (p : Program) : Check Program := do
  p.identifiers.names.forM resolveAny
  tell (.identifiers p.identifiers.size)
  let actions ← p.actions.mapM inferNamedAction
  tell (.actions p.actions.size)
  let entries ← p.entries.mapM (·.mapM (inferIn .top))
  let ticker ← p.ticker.mapM inferTicker
  let display ← p.display.mapM (·.mapM inferElement)
  tell (.blocks ((p.entries.getD []).length) ((p.display.getD []).length))
  let s ← get
  return { p with
    signatures := s.signatures, identifiers := s.identifiers, actions, entries, ticker, display }

def start (p : Program) : State :=
  ⟨p.signatures, p.identifiers, .empty, []⟩

/-- What an analysis gives: its notes, and the program with all types unless it is refused. -/
structure Report where
  notes : List Note
  outcome : Except Failure Program

/-- The notes of a report as text; details are left out unless asked for. -/
def Report.log (r : Report) (details : Bool) : List String :=
  (r.notes.filter fun n => details || !n.isDetail).map Note.text

end Typing

def Program.analyze (p : Program) : Typing.Report :=
  match Typing.inferProgram p (Typing.start p) with
  | .ok q s => ⟨s.notes.reverse, .ok q⟩
  | .error e s => ⟨s.notes.reverse, .error e⟩

end Diagram
