import Diagram.Ty.Basic

/-!
# Coercion and merging of types

A value of one type may be used where another is expected if the first coerces to the
second.  The relation is directed: integers coerce to reals and not back.  Merging finds
the type that two types can both be used as.
-/

namespace Diagram.Ty

/-- Whether a value of the first type may be used where the second is expected.  An unknown
type coerces both ways with every type that is not opaque. -/
def coercesTo : Ty → Ty → Bool
  | unknown, b => !b.isOpaque
  | a, unknown => !a.isOpaque
  | int, real | int, int | int, user _ => true
  | int, _ => false
  | bool, real | bool, int | bool, bool => true
  | bool, _ => false
  | ipoint, point | ipoint, ipoint => true
  | ipoint, _ => false
  | user _, real | user _, int => true
  | user a, user b => a == b
  | user _, _ => false
  | list a, list b => coercesTo a b
  | list _, _ => false
  | a, b => a == b

/-- Why two types have no common one. -/
inductive Mismatch where
  | noCommonNumber (a b : Ty)
  | noMerge (a b : Ty)
deriving DecidableEq, Repr

def Mismatch.message : Mismatch → String
  | noCommonNumber a b => s!"cannot find a common numeric type for '{a.text}' and '{b.text}'"
  | noMerge a b => s!"cannot merge '{a.text}' with '{b.text}'"

/-- The smallest numeric type that both types can be used as. -/
def mergeNumeric (a b : Ty) : Except Mismatch Ty :=
  if a.isUnknown || b.isUnknown then .ok unknown
  else if a.coercesTo int && b.coercesTo int then .ok int
  else if a.coercesTo real && b.coercesTo real then .ok real
  else .error (.noCommonNumber a b)

/-- The type that both types coerce to, which is one of the two. -/
def merge (a b : Ty) : Except Mismatch Ty :=
  if a.isUnknown || b.isUnknown then .ok unknown
  else if a.coercesTo b then .ok b
  else if b.coercesTo a then .ok a
  else .error (.noMerge a b)

def pointType (x y : Ty) : Except Mismatch Ty :=
  (mergeNumeric x y).map fun t => if t = int then ipoint else point

/-! A type that is missing altogether counts as unknown when types are merged, differs from
every type and coerces to none. -/

/-- Whether a type that may be missing is still to be inferred. -/
def isUnknown? (t : Option Ty) : Bool :=
  (t.map isUnknown).getD true

/-- Coercion of types that may be missing. -/
def coercesTo? : Option Ty → Option Ty → Bool
  | some a, some b => a.coercesTo b
  | _, _ => false

/-- The difference between types that may be missing. -/
def differenceOf? : Option Ty → Option Ty → Option Difference
  | some a, some b => a.difference? b
  | _, _ => some .missing

end Diagram.Ty
