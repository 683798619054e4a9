import Diagram.Action.Parser
import Diagram.Element

/-!
# Parsing display elements

An element is what is drawn, a colon, a color, and attributes.  An attribute is a name with
arguments, of which the last may be left out; texts and choices have to be string
constants.
-/

namespace Diagram.Parser

/-- The arguments of the attribute under the cursor, of which there have to be `low` to `high`. -/
def attributeArgs (name : String) (low high : Nat) : Parser (List Expr) := do
  let first ← token .absent
  advance
  let args ← call
  let closer ← token .absent
  advance
  if args.length < low ∨ high < args.length then
    failAt (Area.between first.start closer.stop) (.attributeArity name low high)
  else return args

/-- An argument, or a number if it was left out. -/
def argumentOr (args : List Expr) (i : Nat) (x : Float) : Option Expr :=
  some (args[i]?.getD (Expr.constant (.real x) .nowhere))

def constantString (e : Expr) : Parser String :=
  match e.str? with
  | some s => return s
  | none => failAt e.area .expectedString

def choice {α : Type} (e : Expr) (options : List α) (text : α → String) : Parser α := do
  let s ← constantString e
  match options.find? (text · == s) with
  | some a => return a
  | none => failAt e.area (.expectedChoice (options.map text))

/-- The choice of an argument, or the first option if the argument was left out. -/
def choiceOr {α : Type} (args : List Expr) (i : Nat) (options : List α) (text : α → String)
    (default : α) : Parser α :=
  match args[i]? with
  | some e => choice e options text
  | none => return default

def pointAttr : Parser PointAttr := do
  let args ← attributeArgs "point" 1 3
  let style ← choiceOr args 2 [.point, .hollow, .cross] PointStyle.text .point
  return ⟨argumentOr args 0 0, argumentOr args 1 1, style⟩

def strokeAttr : Parser StrokeAttr := do
  let args ← attributeArgs "stroke" 1 3
  let style ← choiceOr args 2 [.solid, .dashed, .dotted] StrokeStyle.text .solid
  return ⟨argumentOr args 0 0, argumentOr args 1 1, style⟩

def fillAttr : Parser FillAttr := do
  let args ← attributeArgs "fill" 0 1
  return ⟨argumentOr args 0 1⟩

/-- The places for a label, in the order in which they are listed. -/
def orientations : List Orientation :=
  [.center, .left, .right, .above, .below, .aboveLeft, .aboveRight, .belowLeft, .belowRight]

def firstText (args : List Expr) : Parser String :=
  match args with
  | e :: _ => constantString e
  | [] => failAt .nowhere .expectedString

def labelAttr : Parser LabelAttr := do
  let args ← attributeArgs "label" 1 5
  let text ← firstText args
  let orientation ← choiceOr args 4 orientations Orientation.text .center
  return ⟨text, argumentOr args 1 1, argumentOr args 2 1, argumentOr args 3 0, orientation⟩

def dragAttr : Parser DragMode := do
  let args ← attributeArgs "drag" 0 1
  choiceOr args 0 [.xy, .x, .y] DragMode.text .xy

def clickAttr : Parser Action := do
  advance
  action false

def descriptionAttr : Parser String := do
  let args ← attributeArgs "description" 1 1
  firstText args

def readAttribute (e : Element) (t : Token) (name : String) : Parser Element := do
  let once (taken : Bool) : Parser Unit :=
    if taken then failAt t.area (.repeatedAttribute name) else pure ()
  match name with
  | "point" =>
    once e.point.isSome
    return { e with point := some (← pointAttr) }
  | "stroke" =>
    once e.stroke.isSome
    return { e with stroke := some (← strokeAttr) }
  | "fill" =>
    once e.fill.isSome
    return { e with fill := some (← fillAttr) }
  | "label" =>
    once e.label.isSome
    return { e with label := some (← labelAttr) }
  | "drag" =>
    once e.drag.isSome
    return { e with drag := some (← dragAttr) }
  | "click" =>
    once e.click.isSome
    return { e with click := some (← clickAttr) }
  | "description" =>
    once e.description.isSome
    return { e with description := some (← descriptionAttr) }
  | _ => failAt t.area (.unknownAttribute name)

/-- Attributes up to a semicolon, which is left under the cursor; at most `fuel` of them. -/
def attributes : (fuel : Nat) → Element → Parser Element
  | 0, _ => failAt .nowhere .exhausted
  | fuel + 1, e => do
    if ← atSymbol .semicolon then return e
    else
      let t ← token .absent
      let name ← expectName
      let e ← readAttribute e t name
      expectOneOf (.ofSymbols [.comma, .semicolon])
      skipSymbol .comma
      attributes fuel e

/-- An element up to the semicolon that ends it, which is left under the cursor. -/
def element : Parser Element := do
  let what ← expr (.ofSymbols [.colon])
  advance
  let color ← expr (.ofSymbols [.comma, .semicolon])
  skipSymbol .comma
  attributes (← get).budget (.plain (some what) (some color))

end Diagram.Parser
