import Diagram.Element
import Diagram.NameMap

/-!
# Programs

A program declares names and defines what they stand for.  The signatures say what is known
of a name without its definition, so that every definition may refer to every name.
-/

namespace Diagram

inductive Declares where
  | const | letValue | var | action | enum
  /-- A number outside the table. -/
  | other (number : Int)
deriving DecidableEq, Repr, Inhabited

namespace Declares

def ofNumber (n : Int) : Declares :=
  if n < 0 then other n
  else [const, letValue, var, action, enum][n.toNat]?.getD (other n)

def text : Declares → String
  | const => "const" | letValue => "let" | var => "var" | action => "action" | enum => "enum"
  | other n => s!"<kind {n}>"

end Declares

structure Param where
  name : String
  ty : Ty
deriving DecidableEq, Repr, Inhabited

/-- What is known of a name without its definition.  The area is that of the name. -/
structure Signature where
  declares : Declares
  name : String
  /-- The parameters; a declaration may have no list of them at all. -/
  params : Option (List Param)
  /-- The declared type, unknown if none was. -/
  ty : Ty
  /-- Whether the ticker advances a variable. -/
  timer : Bool
  variants : List String
  area : Area
deriving DecidableEq, Repr, Inhabited

namespace Signature

/-- A signature without a place, of an unknown type. -/
def plain (declares : Declares) (name : String) (params : Option (List Param)) : Signature :=
  ⟨declares, name, params, .unknown, false, [], .nowhere⟩

def text (s : Signature) : String :=
  s!"{s.declares.text} {s.name}"

def hasParams (s : Signature) : Bool :=
  s.params.isSome

def paramList (s : Signature) : List Param :=
  s.params.getD []

end Signature

abbrev Signatures := NameMap Signature

/-- Adds a signature if its name is free.  Gives the signature that the name has then, and
whether it is the new one. -/
def Signatures.add (table : Signatures) (s : Signature) : Signatures × Signature × Bool :=
  match table.get? s.name with
  | some previous => (table, previous, false)
  | none => (table.insert s.name s, s, true)

/-- The action that is run as time passes, and how often. -/
structure Ticker where
  interval : Option Expr
  action : Action
deriving Repr

structure Program where
  signatures : Signatures
  /-- The definitions of constants, values and variables. -/
  identifiers : NameMap Expr
  actions : NameMap Action
  enums : NameMap (List String)
  /-- The entries of the public block, if there is one. -/
  entries : Option (List Expr)
  ticker : Option Ticker
  /-- The elements of the display block, if there is one. -/
  display : Option (List Element)
deriving Repr, Inhabited

namespace Program

def empty : Program :=
  ⟨.empty, .empty, .empty, .empty, none, none, none⟩

/-- All nodes of the expressions of a program, outside of its identifiers and of the interval
of the ticker. -/
def nodes (p : Program) : List Expr :=
  p.actions.entries.flatMap (fun e => e.2.nodes) ++
    (p.entries.getD []).flatMap Expr.nodes ++
    (p.ticker.map fun t => t.action.nodes).getD [] ++
    (p.display.getD []).flatMap Element.nodes

/-- Visits the nodes of a program up to, and without, the one with a number, counted from one.
Gives the texts of those visited, and the text of the one that stopped the walk. -/
def walk (p : Program) (stop : Nat) : List String × Option String :=
  if stop = 0 then (p.nodes.map Expr.text, none)
  else ((p.nodes.take (stop - 1)).map Expr.text, p.nodes[stop - 1]?.map Expr.text)

def dropSignatures (p : Program) (names : List String) : Program :=
  { p with signatures := names.foldl NameMap.erase p.signatures }

end Program

end Diagram
