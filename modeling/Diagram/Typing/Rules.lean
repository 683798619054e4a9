import Diagram.Typing.Cause
import Diagram.Value.Arithmetic

/-!
# Typing rules

What each operation requires of operands whose types are known, and the type that it has
then.  Where the operands are constants a rule may give the value of the operation too.
Operations on single items extend to lists item by item.
-/

namespace Diagram.Typing

/-- What a rule says of an operation: its type, and its value if it is a constant. -/
structure Verdict where
  ty : Ty
  value : Option Value

def Verdict.typed (t : Ty) : Verdict := ⟨t, none⟩

def Verdict.expr (v : Verdict) (area : Area) (op : Operation) (operands : List Expr) : Expr :=
  match v.value with
  | some value => .constant value area
  | none => .operator ⟨v.ty, area⟩ op operands

/-- A rule refuses operands with a cause and a place. -/
abbrev Ruling := Except (Located Cause)

def refuse {α : Type} (e : Expr) (cause : Cause) : Ruling α :=
  .error ⟨cause, e.area⟩

def isList (t : Ty) : Bool :=
  t.item?.isSome

/-- The item type of a list; any other type stands for itself. -/
def itemTy (t : Ty) : Ty :=
  t.item?.getD t

/-- The list type if one of some types is a list, and the item type otherwise. -/
def spread (item : Ty) (operands : List Ty) : Ty :=
  if operands.any isList then .list item else item

def requireCoercion (e : Expr) (t : Ty) : Ruling Unit :=
  if e.ty.coercesTo t then .ok () else refuse e (.cannotCoerce e.ty t)

def requireItemCoercion (e : Expr) (t : Ty) : Ruling Unit :=
  if (itemTy e.ty).coercesTo t then .ok () else refuse e (.cannotCoerce e.ty t)

def requireFlat (e : Expr) : Ruling Unit :=
  if isList e.ty then refuse e .nestedList else .ok ()

def requireList (e : Expr) (cause : Ty → Cause) : Ruling Unit :=
  if isList e.ty || e.ty.isUnknown then .ok () else refuse e (cause e.ty)

def truth? (e : Expr) : Option Bool :=
  (e.value?.bind Value.number?).map (· != 0)

def point (area : Area) (x y : Expr) : Ruling Verdict := do
  requireItemCoercion x .real
  requireItemCoercion y .real
  match Ty.pointType (itemTy x.ty) (itemTy y.ty) with
  | .error m => .error ⟨.mismatch m, area⟩
  | .ok t =>
    if isList x.ty || isList y.ty then return .typed (.list t)
    return ⟨t, do
      let vx ← x.value?
      let vy ← y.value?
      return .ofVertex t ⟨vx.number?.getD 0, vy.number?.getD 0⟩⟩

/-- The merged type of items, the first of which have type `t`. -/
def mergeItems (t : Ty) : List Expr → Ruling Ty
  | [] => .ok t
  | x :: xs => do
    requireFlat x
    match Ty.merge t x.ty with
    | .ok merged => mergeItems merged xs
    | .error _ => refuse x (.cannotAdd x.ty t)

def listItemTy : List Expr → Ruling Ty
  | [] => .ok .unknown
  | x :: xs => do
    requireFlat x
    mergeItems x.ty xs

/-- A list of its items.  Constants are converted to the item type. -/
def listLiteral (items : List Expr) : Ruling Verdict := do
  let t ← listItemTy items
  return ⟨.list t, do
    let values ← items.mapM Expr.value?
    if t.isUnknown && !values.isEmpty then none
    else return .list t (Value.convertAll t values)⟩

def listFill (item count : Expr) : Ruling Verdict := do
  requireFlat item
  requireCoercion count .int
  return .typed (.list item.ty)

def index (list number : Expr) : Ruling Verdict := do
  requireList list .cannotIndex
  requireCoercion number .int
  return .typed (itemTy list.ty)

def sign (op : Operation) (x : Expr) : Ruling Verdict := do
  let item := itemTy x.ty
  let t ← if item.isUnknown || item.isPoint then .ok x.ty
    else if item.isNumeric then
      match Ty.mergeNumeric item item with
      | .ok t => .ok (spread t [x.ty])
      | .error _ => .ok x.ty
    else refuse x (.cannotApply op x.ty)
  return ⟨t, x.value?.bind (Value.signed? op)⟩

def negation (x : Expr) : Verdict :=
  ⟨.bool, (truth? x).map fun b => .bool !b⟩

def connective (op : Operation) (x y : Expr) : Verdict :=
  ⟨.bool, do
    let a ← truth? x
    let b ← truth? y
    return .bool (if op = .or then a || b else a && b)⟩

/-- Whether a type may be that of a point. -/
def isPointLike (t : Ty) : Bool :=
  t.isPoint || t.isUnknown

/-- Whether a type may be that of a factor of a point. -/
def isNumberLike (t : Ty) : Bool :=
  t.isUnknown || (t.isNumeric && t.coercesTo .real)

def scaledPointTy (base factor : Ty) : Ty :=
  if base = .ipoint && factor.coercesTo .int && !factor.isUnknown then .ipoint else .point

/-- The type of an arithmetic operation on single items, if it has one.  Points can be added,
subtracted and scaled. -/
def arithmeticTy? (op : Operation) (a b : Ty) : Option Ty :=
  if a.isPoint || b.isPoint then
    if (op = .add || op = .subtract) && isPointLike a && isPointLike b then
      some (if a = .ipoint && b = .ipoint then .ipoint else .point)
    else if op = .multiply && a.isPoint && isNumberLike b then some (scaledPointTy a b)
    else if op = .multiply && isNumberLike a && b.isPoint then some (scaledPointTy b a)
    else if op = .divide && a.isPoint && isNumberLike b then some .point
    else none
  else
    match Ty.mergeNumeric a b with
    | .error _ => none
    | .ok t => some (if op = .divide && !t.isUnknown then .real else t)

def arithmetic (area : Area) (op : Operation) (a b : Expr) : Ruling Verdict :=
  match arithmeticTy? op (itemTy a.ty) (itemTy b.ty) with
  | none => .error ⟨.noCommonNumber a.ty b.ty, area⟩
  | some t =>
    if isList a.ty || isList b.ty then .ok (.typed (.list t))
    else .ok ⟨t, do
      let va ← a.value?
      let vb ← b.value?
      Value.arithmetic? op va vb t⟩

/-- A comparison.  Order needs numbers, equality needs types that merge. -/
def comparison (area : Area) (op : Operation) (a b : Expr) : Ruling Verdict := do
  if op = .equal || op = .notEqual then
    match Ty.merge (itemTy a.ty) (itemTy b.ty) with
    | .error _ => throw ⟨.cannotCompare a.ty b.ty, area⟩
    | .ok _ => pure ()
  else
    requireItemCoercion a .real
    requireItemCoercion b .real
  if isList a.ty || isList b.ty then return .typed (.list .bool)
  return ⟨.bool, do
    let va ← a.value?
    let vb ← b.value?
    return .bool (← Value.compare? op va vb)⟩

def range (bounds : List Expr) : Ruling Verdict := do
  bounds.forM (requireCoercion · .int)
  return .typed (.list .int)

/-- The type of the values of a conditional after one more value. -/
def mergeBranch (earlier : Option Ty) (x : Expr) : Ruling Ty :=
  match earlier with
  | none => .ok x.ty
  | some t =>
    match Ty.merge t x.ty with
    | .ok merged => .ok merged
    | .error _ => refuse x (.cannotMergeBranch x.ty t)

def coordinate? (member : String) (v : Value) : Option Value :=
  match v with
  | .point p => some (.real (if member = "x" then p.x else p.y))
  | .ipoint x y =>
    some (.int (Value.integerOfFloat (Value.floatOfInteger (if member = "x" then x else y))))
  | _ => none

/-- The type of a coordinate of a point, or of each point of a list. -/
def memberTy (area : Area) (subject : Expr) (member : String) : Ruling Ty :=
  let item := itemTy subject.ty
  if (item.isPoint || item.isUnknown) && (member = "x" || member = "y") then
    .ok (if item = .ipoint then .int else .real)
  else .error ⟨.noMember subject.ty member, area⟩

/-- The verdict on an operation on operands that are judged alike, whatever the operation. -/
def verdict (area : Area) (op : Operation) (operands : List Expr) : Except Failure Verdict :=
  let ruled (r : Ruling Verdict) : Except Failure Verdict := r.mapError .rejected
  match op, operands with
  | .pointLiteral, [x, y] => ruled (point area x y)
  | .listLiteral, items => ruled (listLiteral items)
  | .listFill, [item, count] => ruled (listFill item count)
  | .index, [list, number] => ruled (index list number)
  | .posate, [x] | .negate, [x] => ruled (sign op x)
  | .exponent, [a, b] | .multiply, [a, b] | .divide, [a, b] | .modulus, [a, b] | .add, [a, b]
  | .subtract, [a, b] => ruled (arithmetic area op a b)
  | .lessThan, [a, b] | .greaterThan, [a, b] | .lessEqual, [a, b] | .greaterEqual, [a, b]
  | .equal, [a, b] | .notEqual, [a, b] => ruled (comparison area op a b)
  | .exclusiveRange, bounds | .inclusiveRange, bounds => ruled (range bounds)
  | .other n, _ => .error (.defective (.unknownOperation (.other n)))
  | _, _ => .error (.defective (.wrongOperands op))

end Diagram.Typing
