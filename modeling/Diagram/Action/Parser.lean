import Diagram.Action
import Diagram.Expr.Parser

/-!
# Parsing actions

A body is a block in braces.  Inside of it stand updates, calls, conditionals and further
blocks, with commas that may be left out behind braces.  The actions of a block are read by
the parser that is passed in as `nested`; `Parser.actionWithin` ties the knot.
-/

namespace Diagram.Parser

def actionEnds : Ends := .ofSymbols [.comma, .curlyRight]

/-- The action that an expression writes: an update or a call of an action. -/
def actionOf (e : Expr) : Parser Action :=
  match e with
  | .operator _ .update [target, value] => return .update target value
  | .operator _ .actionCall (callee :: args) => return .call callee args
  | e => failAt e.area .expectedAction

/-- An update or a call, up to the comma or brace that ends it. -/
def inlineAction : Parser Action := do
  actionOf (← expr actionEnds)

section Forms

variable (nested : Parser Action)

/-- The body of a branch and the comma that may follow it. -/
def branch : Parser Action := do
  let body ← nested
  skipSymbol .comma
  return body

/-- The branches of a conditional, the first of which starts with a keyword and the others with
`elif`; at most `fuel` of them. -/
def branches : (fuel : Nat) → (k : Keyword) → Parser (List (Expr × Action))
  | 0, _ => failAt .nowhere .exhausted
  | fuel + 1, k => do
    if ← atKeyword k then
      advance
      let cond ← expr (.ofSymbols [.colon])
      advance
      let body ← branch nested
      return (cond, body) :: (← branches fuel .elifCond)
    else return []

def ifChain : Parser Action := do
  let arms ← branches nested (← get).budget .ifCond
  if ← seesKeyword .elseCond then
    advance
    expectSymbol .colon
    advance
    return .conditional arms (← branch nested)
  else return .conditional arms .hole

def blockItem : Parser Action := do
  let action ← if ← seesKeyword .ifCond then ifChain nested else nested
  skipSymbol .comma
  return action

/-- A block in braces or, where that is allowed, an update or a call without them. -/
def actionWith (allowInline : Bool) : Parser Action := do
  if ← atSymbol .curlyLeft then
    advance
    let actions ← untilSymbol .curlyRight (blockItem nested)
    advance
    return .ofList actions
  else if allowInline then inlineAction
  else failAt (← token).area (.expectedSymbol .curlyLeft)

end Forms

/-- An action whose blocks are nested at most `depth` levels deep. -/
def actionWithin : (depth : Nat) → (allowInline : Bool) → Parser Action
  | 0, _ => failAt .nowhere .exhausted
  | depth + 1, allowInline => actionWith (actionWithin depth true) allowInline

/-- A block in braces or, where that is allowed, an update or a call without them. -/
def action (allowInline : Bool) : Parser Action := do
  actionWithin (← get).budget allowInline

end Diagram.Parser
