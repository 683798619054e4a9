/-!
# Types

The types of expressions.  `unknown` stands for a type that is still to be inferred, `user`
for an enumeration by its name.
-/

namespace Diagram

/-- The types of the language. -/
inductive Ty where
  | unknown | void | real | int | bool | point | ipoint | color | polygon | segment | str
  | list (item : Ty)
  | function (name : String)
  | action (name : String)
  | user (name : String)
deriving DecidableEq, Repr, Inhabited

namespace Ty

/-- The type that a name stands for in a source; a name that is not built in is an
enumeration. -/
def ofName (name : String) : Ty :=
  if name = "real" then real
  else if name = "int" then int
  else if name = "bool" then bool
  else if name = "point" then point
  else if name = "ipoint" then ipoint
  else if name = "color" then color
  else if name = "polygon" then polygon
  else if name = "segment" then segment
  else if name = "str" then str
  else user name

def kindName : Ty → String
  | unknown => "unknown" | void => "void" | real => "real" | int => "int" | bool => "bool"
  | point => "point" | ipoint => "ipoint" | color => "color" | polygon => "polygon"
  | segment => "segment" | str => "str" | list _ => "list" | function _ => "function"
  | action _ => "action" | user _ => "user"

/-- The text of a type, as in a source where it can be written there. -/
def text : Ty → String
  | unknown => "?"
  | list item => "[" ++ item.text ++ "]"
  | function name => s!"<function {name}>"
  | action name => s!"<action {name}>"
  | user name => name
  | t => t.kindName

/-- A description that is no type. -/
inductive Malformed where
  | listWithoutItem
  | noSuchKind
deriving DecidableEq, Repr

def Malformed.message : Malformed → String
  | listWithoutItem => "malformed list type"
  | noSuchKind => "malformed type"

/-- The bare types, by the number of their kind.  A list needs an item type. -/
def bare : List (Except Malformed Ty) :=
  [.ok unknown, .ok void, .ok real, .ok int, .ok bool, .ok point, .ok ipoint, .ok color,
   .ok polygon, .ok segment, .ok str, .error .listWithoutItem, .ok (function ""), .ok (action ""),
   .ok (user "")]

/-- The bare type of a numbered kind. -/
def ofKindNumber (n : Int) : Except Malformed Ty :=
  if n < 0 then .error .noSuchKind else bare[n.toNat]?.getD (.error .noSuchKind)

/-- The list type of an item type, if there is one. -/
def listOf (item : Option Ty) : Except Malformed Ty :=
  match item with
  | some t => .ok (list t)
  | none => .error .listWithoutItem

/-- The name of a numbered kind, or a note that there is none. -/
def kindLabel (n : Int) : String :=
  match ofKindNumber n with
  | .ok t => t.kindName
  | .error .listWithoutItem => "list"
  | .error .noSuchKind => s!"Kind({n})"

def isUnknown : Ty → Bool
  | unknown => true
  | _ => false

/-- The types that arithmetic works on directly. -/
def isNumeric : Ty → Bool
  | real | int | bool | user _ => true
  | _ => false

def isPoint : Ty → Bool
  | point | ipoint => true
  | _ => false

/-- The types that never take part in inference. -/
def isOpaque : Ty → Bool
  | void | function _ | action _ | str => true
  | _ => false

def item? : Ty → Option Ty
  | list t => some t
  | _ => none

/-- How two types differ. -/
inductive Difference where
  | missing
  | kind (a b : Ty)
  | name (a b : String)
deriving DecidableEq, Repr

def Difference.message : Difference → String
  | missing => "cannot compare to nil"
  | kind a b => s!"base kind does not match ({a.kindName} != {b.kindName})"
  | name a b => s!"name does not match ({a} != {b})"

/-- The difference between two types, if there is one. -/
def difference? : Ty → Ty → Option Difference
  | list a, list b => difference? a b
  | function a, function b => if a = b then none else some (.name a b)
  | action a, action b => if a = b then none else some (.name a b)
  | user a, user b => if a = b then none else some (.name a b)
  | a, b => if a = b then none else some (.kind a b)

end Ty

end Diagram
