import Diagram.Action

/-!
# Display elements

What is drawn, in which color, and with which attributes.  Each attribute is optional.  A
quantity may be missing in an element that was not read from a source.
-/

namespace Diagram

/-- The marker of a point. -/
inductive PointStyle where
  | point | hollow | cross
deriving DecidableEq, Repr, Inhabited

/-- The pattern of a line. -/
inductive StrokeStyle where
  | solid | dashed | dotted
deriving DecidableEq, Repr, Inhabited

/-- Where a label stands. -/
inductive Orientation where
  | center | left | right | above | below | aboveLeft | aboveRight | belowLeft | belowRight
deriving DecidableEq, Repr, Inhabited

/-- The axes along which a point can be dragged. -/
inductive DragMode where
  | xy | x | y
deriving DecidableEq, Repr, Inhabited

def PointStyle.text : PointStyle → String
  | point => "point" | hollow => "open" | cross => "cross"

def StrokeStyle.text : StrokeStyle → String
  | solid => "solid" | dashed => "dashed" | dotted => "dotted"

def Orientation.text : Orientation → String
  | center => "center" | left => "left" | right => "right" | above => "above"
  | below => "below" | aboveLeft => "above_left" | aboveRight => "above_right"
  | belowLeft => "below_left" | belowRight => "below_right"

def DragMode.text : DragMode → String
  | xy => "xy" | x => "x" | y => "y"

/-- How a point is drawn. -/
structure PointAttr where
  size : Option Expr
  opacity : Option Expr
  style : PointStyle
deriving Repr

/-- How a line is drawn. -/
structure StrokeAttr where
  width : Option Expr
  opacity : Option Expr
  style : StrokeStyle
deriving Repr

/-- How an area is filled. -/
structure FillAttr where
  opacity : Option Expr
deriving Repr

/-- A label; its angle is in degrees. -/
structure LabelAttr where
  text : String
  opacity : Option Expr
  scale : Option Expr
  angle : Option Expr
  orientation : Orientation
deriving Repr

/-- An object of the display. -/
structure Element where
  what : Option Expr
  color : Option Expr
  point : Option PointAttr
  stroke : Option StrokeAttr
  fill : Option FillAttr
  label : Option LabelAttr
  drag : Option DragMode
  click : Option Action
  description : Option String
deriving Repr

namespace Element

def plain (what color : Option Expr) : Element :=
  ⟨what, color, none, none, none, none, none, none, none⟩

/-- The quantities of an element in the order of a source, without those of its click action. -/
def quantities (e : Element) : List (Option Expr) :=
  [e.what, e.color] ++
    (match e.point with | some p => [p.size, p.opacity] | none => []) ++
    (match e.stroke with | some s => [s.width, s.opacity] | none => []) ++
    (match e.fill with | some f => [f.opacity] | none => []) ++
    (match e.label with | some l => [l.opacity, l.scale, l.angle] | none => [])

/-- Replaces the quantities of an element in the order of a source, and then its click action. -/
def traverse {m : Type → Type} [Monad m] (quantity : Option Expr → m (Option Expr))
    (action : Action → m Action) (e : Element) : m Element := do
  let what ← quantity e.what
  let color ← quantity e.color
  let point ← e.point.mapM fun p =>
    return { p with size := ← quantity p.size, opacity := ← quantity p.opacity }
  let stroke ← e.stroke.mapM fun s =>
    return { s with width := ← quantity s.width, opacity := ← quantity s.opacity }
  let fill ← e.fill.mapM fun f => return { f with opacity := ← quantity f.opacity }
  let label ← e.label.mapM fun l =>
    return { l with
      opacity := ← quantity l.opacity, scale := ← quantity l.scale, angle := ← quantity l.angle }
  let click ← e.click.mapM action
  return { e with what, color, point, stroke, fill, label, click }

def nodes (e : Element) : List Expr :=
  Expr.nodesOf (e.quantities.filterMap id) ++ (e.click.map Action.nodes).getD []

end Element

end Diagram
