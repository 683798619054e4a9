import Diagram.Proofs.Program.References

/-!
# Renaming of top-level names

A program with other names for what it declares.  A reference is renamed where it stands for a
declared name: a name that is bound where it stands is not, and neither is the time step in the
action of the ticker.

Main definition: `Program.rename`.
-/

namespace Diagram

/-- New names for the names of the top level. -/
structure Renaming where
  name : String → String
  /-- The new name of a type. -/
  type : String → String
  enum : String → Bool

/-- A type with new names. -/
def Ty.rename (r : Renaming) : Ty → Ty
  | .list t => .list (t.rename r)
  | .function n => .function (r.name n)
  | .action n => .action (r.name n)
  | .user n => .user (r.type n)
  | t => t

mutual

/-- A constant of a type with new names. -/
def Value.rename (r : Renaming) : Value → Value
  | .list item items => .list (item.rename r) (Value.renameAll r items)
  | .enum name variant ordinal => .enum (r.type name) variant ordinal
  | v => v

/-- Some constants of types with new names. -/
def Value.renameAll (r : Renaming) : List Value → List Value
  | [] => []
  | v :: vs => v.rename r :: Value.renameAll r vs

end

/-- Whether a reference to a name, a call of it or an update may ask for its definition: its type is
to be inferred, or its value is needed. -/
def Signature.isWanted (sig : Signature) : Bool :=
  sig.ty.isUnknown || (sig.declares = .const && !sig.hasParams) || sig.declares = .var

def Param.rename (r : Renaming) (p : Param) : Param :=
  { p with ty := p.ty.rename r }

def Signature.rename (r : Renaming) (s : Signature) : Signature :=
  { s with
    name := r.name s.name
    params := s.params.map (List.map (Param.rename r))
    ty := s.ty.rename r }

@[simp] theorem Signature.paramList_rename (r : Renaming) (s : Signature) :
    (s.rename r).paramList = s.paramList.map (Param.rename r) := by
  cases hparams : s.params <;> simp [paramList, Signature.rename, hparams]

@[simp] theorem Signature.hasParams_rename (r : Renaming) (s : Signature) :
    (s.rename r).hasParams = s.hasParams := by
  simp [hasParams, Signature.rename]

namespace Expr

/-- A name that can only be bound or stand at the top level. -/
def renameBare (r : Renaming) (bound : List String) : Expr → Expr
  | .name info n => .name info (if n ∈ bound then n else r.name n)
  | e => e

/-- Whether the subject of a member access is an enumeration. -/
def namesEnum (r : Renaming) (bound : List String) (e : Expr) : Bool :=
  match e.name? with
  | some n => !decide (n ∈ bound) && r.enum n
  | none => false

mutual

/-- An expression with new names, where some names are bound and the time step is seen or not.
The sources of a chain of comprehensions stand outside of it, where the names `outer` are bound. -/
def rename (r : Renaming) (time : Bool) (outer bound : List String) : Expr → Expr
  | .literal info v => .literal info (v.rename r)
  | .name info n =>
    .name info (if n ∈ bound ∨ (time = true ∧ n = timeStepName) then n else r.name n)
  | .timeStep info => .timeStep info
  | .operator info op operands =>
    match op with
    | .listMap =>
      match operands with
      | [body, x, source] =>
        .operator info .listMap [body.rename r time outer (x.name?.toList ++ bound), x,
          source.rename r time outer outer]
      | es => .operator info .listMap es
    | .listFilter =>
      match operands with
      | [list, condition] =>
        .operator info .listFilter [list.rename r time bound bound,
          condition.rename r time (list.namesInside bound) (list.namesInside bound)]
      | es => .operator info .listFilter es
    | .memberAccess =>
      match operands with
      | [subject, member] =>
        .operator info .memberAccess
          [if subject.namesEnum r bound then subject.renameBare r bound
            else subject.rename r time bound bound, member]
      | es => .operator info .memberAccess es
    | .builtIn => .operator info .builtIn operands
    | .actionCall =>
      match operands with
      | callee :: args =>
        .operator info .actionCall (callee.renameBare r bound :: renameAll r time bound args)
      | [] => .operator info .actionCall []
    | .update =>
      match operands with
      | [target, value] =>
        .operator info .update [target.renameBare r bound, value.rename r time bound bound]
      | es => .operator info .update es
    | .withBinding =>
      match operands with
      | [body, bindings] =>
        .operator info .withBinding
          [body.rename r time (bindings.namesWithBindings bound)
            (bindings.namesWithBindings bound), bindings.renameBindings r time bound]
      | es => .operator info .withBinding es
    | op => .operator info op (renameAll r time bound operands)

def renameAll (r : Renaming) (time : Bool) (bound : List String) : List Expr → List Expr
  | [] => []
  | e :: es => e.rename r time bound bound :: renameAll r time bound es

/-- Bindings with new names in their values. -/
def renameBindings (r : Renaming) (time : Bool) (bound : List String) : Expr → Expr
  | .operator info .withBinding [left, right] =>
    .operator info .withBinding [left.renameBindings r time bound, right.renameBindings r time bound]
  | .operator info .assignment [target, value] =>
    .operator info .assignment [target, value.rename r time bound bound]
  | e => e

end

end Expr

mutual

def Action.rename (r : Renaming) (time : Bool) (bound : List String) : Action → Action
  | .hole => .hole
  | .block actions => .block (Action.renameAll r time bound actions)
  | .update target value =>
    .update (target.renameBare r bound) (value.rename r time bound bound)
  | .call callee args => .call (callee.renameBare r bound) (Expr.renameAll r time bound args)
  | .conditional branches default =>
    .conditional (Action.renameBranches r time bound branches) (default.rename r time bound)

def Action.renameAll (r : Renaming) (time : Bool) (bound : List String) :
    List Action → List Action
  | [] => []
  | a :: as => a.rename r time bound :: Action.renameAll r time bound as

def Action.renameBranches (r : Renaming) (time : Bool) (bound : List String) :
    List (Expr × Action) → List (Expr × Action)
  | [] => []
  | (condition, a) :: rest =>
    (condition.rename r time bound bound, a.rename r time bound) ::
      Action.renameBranches r time bound rest

end

def Element.rename (r : Renaming) (e : Element) : Element :=
  let quantity := Option.map (Expr.rename r false [] [])
  { e with
    what := quantity e.what
    color := quantity e.color
    point := e.point.map fun a => { a with size := quantity a.size, opacity := quantity a.opacity }
    stroke := e.stroke.map fun a =>
      { a with width := quantity a.width, opacity := quantity a.opacity }
    fill := e.fill.map fun a => { a with opacity := quantity a.opacity }
    label := e.label.map fun a =>
      { a with
        opacity := quantity a.opacity, scale := quantity a.scale, angle := quantity a.angle }
    click := e.click.map (Action.rename r false []) }

/-- A ticker with new names.  Only its action sees the time step. -/
def Ticker.rename (r : Renaming) (t : Ticker) : Ticker :=
  { t with
    interval := t.interval.map (Expr.rename r false [] [])
    action := t.action.rename r true [] }

def NameMap.rekey {α β : Type} (f : String → String) (g : String → α → β) (m : NameMap α) :
    NameMap β :=
  .ofList (m.entries.map fun e => (f e.1, g e.1 e.2))

namespace Program

def declaresEnum (p : Program) (n : String) : Bool :=
  (p.signatures.get? n).any (·.declares = .enum)

def newNames (p : Program) (f : String → String) : Renaming where
  name n := if p.signatures.contains n then f n else n
  type n := if p.declaresEnum n then f n else n
  enum := p.declaresEnum

/-- A program with new names for what it declares. -/
def rename (p : Program) (f : String → String) : Program where
  signatures := p.signatures.rekey f fun _ => Signature.rename (p.newNames f)
  identifiers := p.identifiers.rekey f fun n =>
    Expr.rename (p.newNames f) false (p.paramNames n) (p.paramNames n)
  actions := p.actions.rekey f fun n => Action.rename (p.newNames f) false (p.paramNames n)
  enums := p.enums.rekey f fun _ variants => variants
  entries := p.entries.map (Expr.renameAll (p.newNames f) false [])
  ticker := p.ticker.map (Ticker.rename (p.newNames f))
  display := p.display.map (List.map (Element.rename (p.newNames f)))

/-- Whether the definition of a name may be asked for. -/
def Wanted (p : Program) (n : String) : Prop :=
  ∃ sig, p.signatures.get? n = some sig ∧ sig.isWanted = true

end Program

end Diagram
