import Diagram.Json
import Diagram.Settings

/-!
# Documents

The state of the target calculator: a list of entries, and the ticker.  An empty text stands
for a field that is not set, and such fields are left out of the encoding.
-/

namespace Diagram

namespace Document

/-- A folder of entries. -/
structure Folder where
  id : String
  title : String
  collapsed : Bool
  secret : Bool
deriving DecidableEq, Repr, Inhabited

/-- What happens when an entry is clicked. -/
structure Clickable where
  enabled : Bool
  latex : String
deriving DecidableEq, Repr, Inhabited

/-- A formula, with the style in which it is drawn. -/
structure Expression where
  id : String
  folderId : String
  latex : String
  hidden : Bool
  color : String
  colorLatex : String
  pointStyle : String
  pointSize : String
  pointOpacity : String
  lineStyle : String
  lineWidth : String
  lineOpacity : String
  fill : Bool
  fillOpacity : String
  label : String
  showLabel : Bool
  labelSize : String
  labelAngle : String
  labelOrientation : String
  dragMode : String
  clickableInfo : Option Clickable
  description : String
deriving DecidableEq, Repr, Inhabited

def Expression.plain (id folderId latex : String) : Expression where
  id := id
  folderId := folderId
  latex := latex
  hidden := false
  color := ""
  colorLatex := ""
  pointStyle := ""
  pointSize := ""
  pointOpacity := ""
  lineStyle := ""
  lineWidth := ""
  lineOpacity := ""
  fill := false
  fillOpacity := ""
  label := ""
  showLabel := false
  labelSize := ""
  labelAngle := ""
  labelOrientation := ""
  dragMode := ""
  clickableInfo := none
  description := ""

structure Remark where
  id : String
  text : String
  folderId : String
deriving DecidableEq, Repr, Inhabited

/-- An entry of the list. -/
inductive Entry where
  | folder (f : Folder)
  | expression (e : Expression)
  | remark (r : Remark)
deriving DecidableEq, Repr

def Entry.id : Entry → String
  | folder f => f.id
  | expression e => e.id
  | remark r => r.id

/-- The action that runs again and again. -/
structure Clock where
  isOpen : Bool
  playing : Bool
  handlerLatex : String
  minStepLatex : String
deriving DecidableEq, Repr, Inhabited

end Document

/-- The state of the target calculator. -/
structure Document where
  version : Int64
  product : String
  entries : List Document.Entry
  ticker : Option Document.Clock
deriving DecidableEq, Repr

namespace Document

def empty (s : Settings) : Document :=
  ⟨s.version, s.product, [], none⟩

/-- A field that is left out if it is empty. -/
def textField (key value : String) : List (String × Json) :=
  if value.isEmpty then [] else [(key, .text value)]

/-- A field that is left out if it is false. -/
def flagField (key : String) (value : Bool) : List (String × Json) :=
  if value then [(key, .bool true)] else []

/-- A field that is left out if it is missing. -/
def optionalField {α : Type} (key : String) (toJson : α → Json) :
    Option α → List (String × Json)
  | none => []
  | some a => [(key, toJson a)]

def Folder.toJson (f : Folder) : Json :=
  .object <|
    [("type", .text "folder"), ("id", .text f.id), ("title", .text f.title),
     ("collapsed", .bool f.collapsed)] ++ flagField "secret" f.secret

def Clickable.toJson (c : Clickable) : Json :=
  .object [("enabled", .bool c.enabled), ("latex", .text c.latex)]

def Expression.toJson (e : Expression) : Json :=
  .object <|
    [("type", .text "expression"), ("id", .text e.id)] ++
    textField "folderId" e.folderId ++
    [("latex", .text e.latex)] ++
    flagField "hidden" e.hidden ++
    textField "color" e.color ++
    textField "colorLatex" e.colorLatex ++
    textField "pointStyle" e.pointStyle ++
    textField "pointSize" e.pointSize ++
    textField "pointOpacity" e.pointOpacity ++
    textField "lineStyle" e.lineStyle ++
    textField "lineWidth" e.lineWidth ++
    textField "lineOpacity" e.lineOpacity ++
    flagField "fill" e.fill ++
    textField "fillOpacity" e.fillOpacity ++
    textField "label" e.label ++
    flagField "showLabel" e.showLabel ++
    textField "labelSize" e.labelSize ++
    textField "labelAngle" e.labelAngle ++
    textField "labelOrientation" e.labelOrientation ++
    textField "dragMode" e.dragMode ++
    optionalField "clickableInfo" Clickable.toJson e.clickableInfo ++
    textField "description" e.description

def Remark.toJson (r : Remark) : Json :=
  .object <|
    [("type", .text "text"), ("id", .text r.id), ("text", .text r.text)] ++
    textField "folderId" r.folderId

def Entry.toJson : Entry → Json
  | folder f => f.toJson
  | expression e => e.toJson
  | remark r => r.toJson

def Clock.toJson (c : Clock) : Json :=
  .object <|
    [("open", .bool c.isOpen), ("playing", .bool c.playing)] ++
    textField "handlerLatex" c.handlerLatex ++
    textField "minStepLatex" c.minStepLatex

def toJson (d : Document) : Json :=
  .object
    [("version", .number d.version.toInt),
     ("graph", .object [("product", .text d.product)]),
     ("expressions", .object <|
       ("list", .list (d.entries.map Entry.toJson)) :: optionalField "ticker" Clock.toJson d.ticker)]

def encode (d : Document) : String :=
  d.toJson.encode

end Document

end Diagram
