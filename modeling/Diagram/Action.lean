import Diagram.Expr

/-!
# Actions

What a program does when it is clicked or when time passes: updates of variables, calls of
named actions, and conditionals and blocks of these.  A hole stands where no action is
given; every stage but the conditional's default refuses it.
-/

namespace Diagram

inductive Action where
  | hole
  /-- All actions of a list at the same time. -/
  | block (actions : List Action)
  /-- A new value for a variable. -/
  | update (target value : Expr)
  /-- A call of a named action. -/
  | call (callee : Expr) (args : List Expr)
  /-- The action of the first branch whose condition holds, or the default, which may be a
  hole. -/
  | conditional (branches : List (Expr × Action)) (default : Action)
deriving Repr, Inhabited

namespace Action

def isHole : Action → Bool
  | hole => true
  | _ => false

/-- A block of some actions; a block of a single action is that action. -/
def ofList : List Action → Action
  | [a] => a
  | as => block as

mutual

def text : Action → String
  | hole => "<nil>"
  | block actions => "\x7b" ++ ", ".intercalate (texts actions) ++ "\x7d"
  | update target value => s!"{target.text} := {value.text}"
  | call callee args =>
    "action " ++ callee.text ++ "(" ++ ", ".intercalate (args.map Expr.text) ++ ")"
  | conditional branches default =>
    let arms := branchTexts "if" branches
    match default with
    | hole => " ".intercalate arms
    | d => " ".intercalate (arms ++ ["else: " ++ d.text])

def texts : List Action → List String
  | [] => []
  | a :: as => a.text :: texts as

def branchTexts (keyword : String) : List (Expr × Action) → List String
  | [] => []
  | (c, a) :: rest => (keyword ++ " " ++ c.text ++ ": " ++ a.text) :: branchTexts "elif" rest

end

mutual

def nodes : Action → List Expr
  | hole => []
  | block actions => nodesOf actions
  | update target value => target.nodes ++ value.nodes
  | call callee args => callee.nodes ++ Expr.nodesOf args
  | conditional branches default => branchNodes branches ++ default.nodes

def nodesOf : List Action → List Expr
  | [] => []
  | a :: as => a.nodes ++ nodesOf as

def branchNodes : List (Expr × Action) → List Expr
  | [] => []
  | (c, a) :: rest => c.nodes ++ a.nodes ++ branchNodes rest

end

mutual

def unplaced : Action → Action
  | hole => hole
  | block actions => block (unplacedOf actions)
  | update target value => update target.unplaced value.unplaced
  | call callee args => call callee.unplaced (Expr.unplacedOf args)
  | conditional branches default => conditional (unplacedBranches branches) default.unplaced

def unplacedOf : List Action → List Action
  | [] => []
  | a :: as => a.unplaced :: unplacedOf as

def unplacedBranches : List (Expr × Action) → List (Expr × Action)
  | [] => []
  | (c, a) :: rest => (c.unplaced, a.unplaced) :: unplacedBranches rest

end

end Action

end Diagram
