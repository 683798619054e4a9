import Diagram.Color
import Diagram.Document
import Diagram.Formula.OfExpr

/-!
# Documents of programs

An analyzed program becomes a list of entries: a hidden folder, the public entries, a folder
of actions, a folder of definitions and, if the program has a display block, a folder of what
is drawn.  Entries are numbered from zero in the order of the list.
-/

namespace Diagram.Document

/-- Why a program has no document. -/
inductive Defect where
  | formula (d : Formula.Defect)
  | withoutSignature (name : String)
deriving DecidableEq, Repr

def Defect.message : Defect → String
  | formula d => d.message
  | withoutSignature name => s!"'{name}' has no signature"

/-- An entry that still lacks its number and the number of its folder. -/
abbrev Draft := (id folderId : String) → Entry

def latex (sigs : Signatures) (e : Expr) : Except Defect String :=
  ((Formula.ofExpr sigs e).map Formula.text).mapError .formula

def quantityLatex (sigs : Signatures) : Option Expr → Except Defect String
  | none => .ok ""
  | some e => latex sigs e

def actionFormula (sigs : Signatures) (a : Action) : Except Defect Formula :=
  (Formula.ofAction sigs a).mapError .formula

def publicDraft (sigs : Signatures) (e : Expr) : Except Defect Draft :=
  match e.str? with
  | some s => .ok fun id folderId => .remark ⟨id, s, folderId⟩
  | none => do
    let latex ← latex sigs e
    return fun id folderId => .expression (.plain id folderId latex)

/-- The left side of a definition: the name, with its parameters if it has some. -/
def head (sig : Signature) : Formula :=
  if sig.paramList.isEmpty then .ofName sig.name
  else .call (.ofName sig.name) (.sequence (sig.paramList.map fun p => .ofName p.name))

def definitionDraft (sigs : Signatures) (name : String) (value : Formula) :
    Except Defect Draft :=
  match sigs.get? name with
  | none => .error (.withoutSignature name)
  | some sig =>
    let latex := (Formula.equality (head sig) value).text
    .ok fun id folderId => .expression { Expression.plain id folderId latex with hidden := true }

def styleText (s : String) : String :=
  s.toUpper

/-- The color of an element: a constant in hexadecimal notation, or a formula. -/
def colorFields (sigs : Signatures) : Option Expr → Except Defect (String × String)
  | none => .ok ("", "")
  | some e =>
    match e.value? with
    | some (.color model a b c) => .ok (Color.hex model a b c, "")
    | _ => (latex sigs e).map ("", ·)

/-- The entry of a display element.  The fields of an attribute that it does not have are
empty. -/
def elementDraft (sigs : Signatures) (e : Element) : Except Defect Draft := do
  let quantity := quantityLatex sigs
  let what ← quantity e.what
  let (color, colorLatex) ← colorFields sigs e.color
  let pointSize ← quantity (e.point.bind (·.size))
  let pointOpacity ← quantity (e.point.bind (·.opacity))
  let lineWidth ← quantity (e.stroke.bind (·.width))
  let lineOpacity ← quantity (e.stroke.bind (·.opacity))
  let fillOpacity ← quantity (e.fill.bind (·.opacity))
  let labelSize ← quantity (e.label.bind (·.scale))
  let labelAngle ← quantity (e.label.bind (·.angle))
  let click ← e.click.mapM (actionFormula sigs)
  return fun id folderId => .expression {
    id, folderId, latex := what, hidden := false
    color, colorLatex
    pointStyle := (e.point.map fun p => styleText p.style.text).getD ""
    pointSize, pointOpacity
    lineStyle := (e.stroke.map fun s => styleText s.style.text).getD ""
    lineWidth, lineOpacity
    fill := e.fill.isSome
    fillOpacity
    label := (e.label.map (·.text)).getD ""
    showLabel := e.label.isSome
    labelSize, labelAngle
    labelOrientation := (e.label.map (·.orientation.text)).getD ""
    dragMode := (e.drag.map fun d => styleText d.text).getD ""
    clickableInfo := click.map fun f => ⟨true, f.text⟩
    description := e.description.getD "" }

def idOf (n : Nat) : String :=
  toString n

/-- Numbers the entries of a folder from `first` on. -/
def number (folderId : String) (first : Nat) (drafts : List Draft) : List Entry :=
  drafts.zipIdx first |>.map fun (draft, n) => draft (idOf n) folderId

/-- A folder with its entries, numbered from `first` on. -/
def folderWith (title : String) (collapsed : Bool) (first : Nat) (drafts : List Draft) :
    List Entry :=
  .folder ⟨idOf first, title, collapsed, false⟩ :: number (idOf first) (first + 1) drafts

def clock (sigs : Signatures) (playing : Bool) (t : Ticker) : Except Defect Clock := do
  let handler ← actionFormula sigs t.action
  let step ← quantityLatex sigs t.interval
  return ⟨true, playing, handler.text, step⟩

def definitionDrafts {α : Type} (sigs : Signatures) (formula : α → Except Defect Formula)
    (definitions : NameMap α) : Except Defect (List Draft) :=
  definitions.entries.mapM fun (name, a) => do definitionDraft sigs name (← formula a)

def ofProgram (settings : Settings) (p : Program) : Except Defect Document := do
  let sigs := p.signatures
  let titles := settings.folders
  let entries ← (p.entries.getD []).mapM (publicDraft sigs)
  let actions ← definitionDrafts sigs (actionFormula sigs) p.actions
  let definitions ← definitionDrafts sigs
    (fun e => (Formula.ofExpr sigs e).mapError .formula) p.identifiers
  let display ← p.display.mapM (·.mapM (elementDraft sigs))
  let ticker ← p.ticker.mapM (clock sigs settings.playing)
  let actionsAt := 1 + entries.length
  let definitionsAt := actionsAt + 1 + actions.length
  let displayAt := definitionsAt + 1 + definitions.length
  return {
    empty settings with
    entries :=
      .folder ⟨idOf 0, titles.geometry, true, true⟩ :: number "" 1 entries ++
      folderWith titles.actions true actionsAt actions ++
      folderWith titles.definitions true definitionsAt definitions ++
      (match display with
        | some elements => folderWith titles.display false displayAt elements
        | none => [])
    ticker }

end Diagram.Document
