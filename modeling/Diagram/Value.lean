import Diagram.Decimal.Layout
import Diagram.Text.Quoted
import Diagram.Ty.Basic

/-!
# Constants

The values that expressions are folded into.  Integers have 64 bits; reals are
floating-point numbers and are written in positional notation.
-/

namespace Diagram

/-- How the three channels of a color are read. -/
inductive ColorModel where
  /-- Red, green and blue. -/
  | rgb
  /-- Hue, saturation and value. -/
  | hsv
deriving DecidableEq, Repr, Inhabited

/-- A point of the plane. -/
structure Vertex where
  x : Float
  y : Float
deriving DecidableEq, Repr, Inhabited

inductive Value where
  | real (x : Float)
  | int (i : Int64)
  | bool (b : Bool)
  | point (v : Vertex)
  | ipoint (x y : Int64)
  | color (model : ColorModel) (a b c : Float)
  | polygon (vertices : List Vertex)
  | segment (a b : Vertex)
  | str (s : String)
  | list (item : Ty) (items : List Value)
  /-- A variant of an enumeration, with its place in the declaration. -/
  | enum (name variant : String) (ordinal : Int64)
deriving Repr, Inhabited

def Vertex.text (v : Vertex) : String :=
  s!"({Decimal.Layout.positional.text v.x}, {Decimal.Layout.positional.text v.y})"

/-- Whether two points have equal coordinates; a coordinate that is no number equals nothing. -/
def Vertex.same (v w : Vertex) : Bool :=
  v.x == w.x && v.y == w.y

def ColorModel.text : ColorModel → String
  | rgb => "rgb"
  | hsv => "hsv"

namespace Value

def ty : Value → Ty
  | real _ => .real
  | int _ => .int
  | bool _ => .bool
  | point _ => .point
  | ipoint _ _ => .ipoint
  | color _ _ _ _ => .color
  | polygon _ => .polygon
  | segment _ _ => .segment
  | str _ => .str
  | list item _ => .list item
  | enum name _ _ => .user name

mutual

def text : Value → String
  | real x => Decimal.Layout.positional.text x
  | int i => toString i.toInt
  | bool b => if b then "true" else "false"
  | point v => v.text
  | ipoint x y => s!"({x.toInt}, {y.toInt})"
  | color model a b c =>
    let channel := Decimal.Layout.compact.text
    s!"{model.text}({channel a}, {channel b}, {channel c})"
  | polygon vertices => "polygon(" ++ ", ".intercalate (vertices.map Vertex.text) ++ ")"
  | segment a b => s!"segment({a.text}, {b.text})"
  | str s => Text.Quoted.encode s
  | list _ items => "[" ++ ", ".intercalate (texts items) ++ "]"
  | enum name variant _ => name ++ "." ++ variant

def texts : List Value → List String
  | [] => []
  | v :: vs => v.text :: texts vs

end

/-- A 64-bit integer as the nearest floating-point number. -/
def floatOfInteger (i : Int64) : Float :=
  Float.ofInt i.toInt

def number? : Value → Option Float
  | real x => some x
  | int i => some (floatOfInteger i)
  | bool b => some (if b then 1 else 0)
  | enum _ _ ordinal => some (floatOfInteger ordinal)
  | _ => none

/-- The value of a constant that is an integer.  A real is none, even without a fraction. -/
def integer? : Value → Option Int64
  | int i => some i
  | bool b => some (if b then 1 else 0)
  | enum _ _ ordinal => some ordinal
  | _ => none

/-- A constant of either kind of point, with real coordinates. -/
def vertex? : Value → Option Vertex
  | point v => some v
  | ipoint x y => some ⟨floatOfInteger x, floatOfInteger y⟩
  | _ => none

/-- How two constants differ. -/
inductive Difference where
  | types (d : Ty.Difference)
  | values (a b : Value)
  | vertexCount (m n : Nat)
  | vertex (i : Nat)
  | length (m n : Nat)
  | item (i : Nat) (d : Difference)

def Difference.message : Difference → String
  | types d => d.message
  | values a b => s!"values differ ({a.text} != {b.text})"
  | vertexCount m n => s!"vertex count differs ({m} != {n})"
  | vertex i => s!"vertex {i} differs"
  | length m n => s!"list lengths differ ({m} != {n})"
  | item i d => s!"index {i} differs: {d.message}"

/-- The difference between two values of one type that are compared as a whole. -/
def differenceIf (differ : Bool) (a b : Value) : Option Difference :=
  if differ then some (.values a b) else none

mutual

/-- The difference between two constants, if there is one.  A number that is no number differs
from itself; of two variants of one enumeration only the names count. -/
def difference? (a b : Value) : Option Difference :=
  match a.ty.difference? b.ty with
  | some d => some (.types d)
  | none =>
    match a, b with
    | real x, real y => differenceIf (x != y) a b
    | int i, int j => differenceIf (i != j) a b
    | bool p, bool q => differenceIf (p != q) a b
    | point v, point w => differenceIf (!v.same w) a b
    | ipoint x y, ipoint z w => differenceIf (x != z || y != w) a b
    | color m r g u, color n s h v => differenceIf (m != n || r != s || g != h || u != v) a b
    | polygon vs, polygon ws =>
      if vs.length ≠ ws.length then some (.vertexCount vs.length ws.length)
      else ((List.zipWith Vertex.same vs ws).findIdx? (!·)).map .vertex
    | segment p q, segment r s => differenceIf (!p.same r || !q.same s) a b
    | str s, str t => differenceIf (s != t) a b
    | list _ vs, list _ ws =>
      if vs.length ≠ ws.length then some (.length vs.length ws.length)
      else differenceAt 0 vs ws
    | enum _ v _, enum _ w _ => differenceIf (v != w) a b
    | _, _ => none

/-- The first difference between the items of two lists, counted from `i`. -/
def differenceAt (i : Nat) : List Value → List Value → Option Difference
  | v :: vs, w :: ws =>
    match difference? v w with
    | some d => some (.item i d)
    | none => differenceAt (i + 1) vs ws
  | _, _ => none

end

/-- The difference from a constant that may be missing. -/
def differenceFrom? (a : Value) (b : Option Value) : Option Difference :=
  match b with
  | some b => a.difference? b
  | none => some (.types .missing)

end Value

end Diagram
