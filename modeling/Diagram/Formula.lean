import Diagram.Decimal.Layout
import Diagram.Markup

/-!
# Formulas

The expressions of the target calculator, and how each is written in markup.
-/

namespace Diagram

/-- The relation of an inequality. -/
inductive Relation where
  | less | greater | lessEqual | greaterEqual
deriving DecidableEq, Repr, Inhabited

namespace Relation

/-- The relation with a number; less for a number outside the table. -/
def ofNumber (n : Int) : Relation :=
  if n < 0 then less else [less, greater, lessEqual, greaterEqual][n.toNat]?.getD less

def mark : Relation → Mark
  | less => .control "lt"
  | greater => .control "gt"
  | lessEqual => .control "le"
  | greaterEqual => .control "ge"

end Relation

/-- What stands between the two sides of a formula. -/
inductive Connector where
  | equals | regression | plus | minus | times | dotTimes | crossTimes | dividedBy
  | colon | member | arrow | forEach | withBinding | percentOf
  /-- Nothing: a product or a call without brackets. -/
  | adjacent
deriving DecidableEq, Repr, Inhabited

def Connector.marks : Connector → Markup
  | equals => [.symbol '=']
  | regression => [.symbol '~']
  | plus => [.symbol '+']
  | minus => [.symbol '-']
  | times => [.symbol '*']
  | dotTimes => [.control "cdot"]
  | crossTimes => [.control "cross"]
  | dividedBy => [.symbol '/']
  | colon => [.symbol ':']
  | member => [.symbol '.']
  | arrow => [.control "to"]
  | forEach => [.operatorName "for"]
  | withBinding => [.operatorName "with"]
  | percentOf => [.symbol '%', .operatorName "of"]
  | adjacent => []

/-- A formula of the target calculator. -/
inductive Formula where
  | joined (c : Connector) (lhs rhs : Formula)
  /-- A chain of inequalities, with any number of further links. -/
  | ordered (lhs : Formula) (r : Relation) (rhs : Formula) (links : List (Relation × Formula))
  | positive (value : Formula)
  | negative (value : Formula)
  | factorial (value : Formula)
  | prime (value : Formula)
  | call (callee args : Formula)
  | index (subject number : Formula)
  /-- A formula in sized brackets: a group, a list, an absolute value or a case distinction. -/
  | bracketed (b : Bracket) (content : Formula)
  | subscript (base script : Formula)
  | superscript (base script : Formula)
  /-- Formulas with commas between them. -/
  | sequence (items : List Formula)
  | sqrt (radicand : Formula)
  | nthRoot (degree radicand : Formula)
  | fraction (numerator denominator : Formula)
  | mixed (whole numerator denominator : Formula)
  | derivative (differential body : Formula)
  | integral (differential lower upper : Formula) (body : Option Formula)
  | sum (bottom top body : Formula)
  | product (bottom top body : Formula)
  /-- A progression up to an end, if there is one. -/
  | ellipsis (lhs : Formula) (rhs : Option Formula)
  | letter (c : Char)
  | decimal (x : Float)
  | command (name : String)
  /-- Letters and digits as they are. -/
  | word (s : String)
deriving Repr, Inhabited

namespace Formula

/-- The markup of a number.  What is not a number is zero over zero. -/
def decimalMarkup (x : Float) : Markup :=
  match Decimal.Binary.ofFloat x with
  | .nan => [.fraction [.symbol '0'] [.symbol '0']]
  | .infinite false => [.control "infty"]
  | .infinite true => [.symbol '-', .control "infty"]
  | .finite _ _ _ => [.run (Decimal.Layout.positional.text x)]

mutual

def markup : Formula → Markup
  | joined c lhs rhs => lhs.markup ++ c.marks ++ rhs.markup
  | ordered lhs r rhs links => lhs.markup ++ r.mark :: rhs.markup ++ linksMarkup links
  | positive value => .symbol '+' :: value.markup
  | negative value => .symbol '-' :: value.markup
  | factorial value => value.markup ++ [.symbol '!']
  | prime value => value.markup ++ [.symbol '\'']
  | call callee args => callee.markup ++ .opening .paren :: args.markup ++ [.closing .paren]
  | index subject number =>
    subject.markup ++ .opening .square :: number.markup ++ [.closing .square]
  | bracketed b content => .opening b :: content.markup ++ [.closing b]
  | subscript base script => base.markup ++ [.subscript script.markup]
  | superscript base script => base.markup ++ [.superscript script.markup]
  | sequence items => itemsMarkup items
  | sqrt radicand => [.root radicand.markup]
  | nthRoot degree radicand => [.nthRoot degree.markup radicand.markup]
  | fraction numerator denominator => [.fraction numerator.markup denominator.markup]
  | mixed whole numerator denominator =>
    whole.markup ++ [.fraction numerator.markup denominator.markup]
  | derivative differential body =>
    .fraction [.symbol 'd'] (.symbol 'd' :: differential.markup) :: body.markup
  | integral differential lower upper body =>
    .control "int" :: .subscript lower.markup :: .superscript upper.markup ::
      (optionalMarkup body ++ .symbol 'd' :: differential.markup)
  | sum bottom top body =>
    .control "sum" :: .subscript bottom.markup :: .superscript top.markup :: body.markup
  | product bottom top body =>
    .control "prod" :: .subscript bottom.markup :: .superscript top.markup :: body.markup
  | ellipsis lhs rhs => lhs.markup ++ .run "..." :: optionalMarkup rhs
  | letter c => [.symbol c]
  | decimal x => decimalMarkup x
  | command name => [.operatorName name]
  | word s => [.run s]

/-- The markup of the further links of a chain of inequalities. -/
def linksMarkup : List (Relation × Formula) → Markup
  | [] => []
  | (r, f) :: rest => r.mark :: f.markup ++ linksMarkup rest

def itemsMarkup : List Formula → Markup
  | [] => []
  | [f] => f.markup
  | f :: g :: rest => f.markup ++ .symbol ',' :: itemsMarkup (g :: rest)

/-- The markup of a formula that may be missing. -/
def optionalMarkup : Option Formula → Markup
  | none => []
  | some f => f.markup

end

def text (f : Formula) : String :=
  Markup.text f.markup

/-! The forms that definitions are made of. -/

def equality (lhs rhs : Formula) : Formula :=
  joined .equals lhs rhs

def branch (condition value : Formula) : Formula :=
  joined .colon condition value

def tuple (items : List Formula) : Formula :=
  bracketed .paren (sequence items)

def list (items : List Formula) : Formula :=
  bracketed .square (sequence items)

/-- A case distinction.  The first branch whose condition holds counts; a bare condition is worth
one, and a last formula that is no condition is the default. -/
def piecewise (branches : List Formula) : Formula :=
  bracketed .curly (sequence branches)

def comprehension (item bindings : Formula) : Formula :=
  bracketed .square (joined .forEach item bindings)

def commandCall (name : String) (args : List Formula) : Formula :=
  call (command name) (sequence args)

/-- The letter that every name of a program is a subscript of. -/
def baseLetter : Char := 'X'

def ofName (name : String) : Formula :=
  subscript (letter baseLetter) (word (String.ofList (name.toList.filter (· != '_'))))

end Formula

end Diagram
