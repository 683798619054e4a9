import Diagram.Decimal.Layout
import Diagram.Source.Location
import Diagram.Text.Quoted

/-!
# Tokens

The words of the language: symbols, keywords, names and constants, each with its place in
the source.  Symbols and keywords are numbered in the order of their tables.
-/

namespace Diagram

/-- The symbols of the language. -/
inductive Symbol where
  | plus | minus | star | slash | percent | star2 | tilde | ampersand | caret | pipe | bang
  | ampersand2 | caret2 | pipe2 | lessThan2 | greaterThan2 | equal2 | notEqual | lessThan
  | greaterThan | lessEqual | greaterEqual | equal | colonEqual | dot | comma | colon | semicolon
  | parenLeft | parenRight | squareLeft | squareRight | curlyLeft | curlyRight | question | atSign
  | hash | dollar | backslash | exclusiveRange | inclusiveRange | rightArrow | rightEqualArrow
  | colon2
deriving DecidableEq, Repr, Inhabited

namespace Symbol

/-- All symbols in order. -/
def all : List Symbol :=
  [plus, minus, star, slash, percent, star2, tilde, ampersand, caret, pipe, bang, ampersand2,
   caret2, pipe2, lessThan2, greaterThan2, equal2, notEqual, lessThan, greaterThan, lessEqual,
   greaterEqual, equal, colonEqual, dot, comma, colon, semicolon, parenLeft, parenRight,
   squareLeft, squareRight, curlyLeft, curlyRight, question, atSign, hash, dollar, backslash,
   exclusiveRange, inclusiveRange, rightArrow, rightEqualArrow, colon2]

def spelling : Symbol → String
  | plus => "+" | minus => "-" | star => "*" | slash => "/" | percent => "%" | star2 => "**"
  | tilde => "~" | ampersand => "&" | caret => "^" | pipe => "|" | bang => "!"
  | ampersand2 => "&&" | caret2 => "^^" | pipe2 => "||" | lessThan2 => "<<"
  | greaterThan2 => ">>" | equal2 => "==" | notEqual => "!=" | lessThan => "<"
  | greaterThan => ">" | lessEqual => "<=" | greaterEqual => ">=" | equal => "="
  | colonEqual => ":=" | dot => "." | comma => "," | colon => ":" | semicolon => ";"
  | parenLeft => "(" | parenRight => ")" | squareLeft => "[" | squareRight => "]"
  | curlyLeft => "\x7b" | curlyRight => "\x7d" | question => "?" | atSign => "@" | hash => "#"
  | dollar => "$" | backslash => "\\" | exclusiveRange => ".." | inclusiveRange => "..="
  | rightArrow => "->" | rightEqualArrow => "=>" | colon2 => "::"

def ofSpelling? (s : String) : Option Symbol :=
  all.find? (·.spelling == s)

def number (s : Symbol) : Nat :=
  all.idxOf s

def ofNumber? (n : Int) : Option Symbol :=
  if n < 0 then none else all[n.toNat]?

/-- The spelling of a numbered symbol, or a note that there is none. -/
def label (n : Int) : String :=
  match ofNumber? n with
  | some s => s.spelling
  | none => s!"<symbol {n}>"

end Symbol

/-- The keywords of the language, each named for what it introduces. -/
inductive Keyword where
  | publicBlock | tickerBlock | displayBlock | enumDecl | actionDecl | letDecl | constDecl
  | varDecl | timer | ifCond | elifCond | elseCond | forEach | inList | whereCond | withBinding
deriving DecidableEq, Repr, Inhabited

namespace Keyword

/-- All keywords in order. -/
def all : List Keyword :=
  [publicBlock, tickerBlock, displayBlock, enumDecl, actionDecl, letDecl, constDecl, varDecl,
   timer, ifCond, elifCond, elseCond, forEach, inList, whereCond, withBinding]

def spelling : Keyword → String
  | publicBlock => "public" | tickerBlock => "ticker" | displayBlock => "display"
  | enumDecl => "enum" | actionDecl => "action" | letDecl => "let" | constDecl => "const"
  | varDecl => "var" | timer => "timer" | ifCond => "if" | elifCond => "elif"
  | elseCond => "else" | forEach => "for" | inList => "in" | whereCond => "where"
  | withBinding => "with"

def ofSpelling? (s : String) : Option Keyword :=
  all.find? (·.spelling == s)

def number (k : Keyword) : Nat :=
  all.idxOf k

def ofNumber? (n : Int) : Option Keyword :=
  if n < 0 then none else all[n.toNat]?

/-- The spelling of a numbered keyword, or a note that there is none. -/
def label (n : Int) : String :=
  match ofNumber? n with
  | some k => k.spelling
  | none => s!"<keyword {n}>"

end Keyword

/-- What a token says. -/
inductive Lexeme where
  | symbol (s : Symbol)
  | keyword (k : Keyword)
  | name (n : String)
  | int (i : Int64)
  | real (x : Float)
  | bool (b : Bool)
  | str (s : String)
deriving DecidableEq, Repr, Inhabited

namespace Lexeme

def text : Lexeme → String
  | symbol s => s.spelling
  | keyword k => k.spelling
  | name n => n
  | int i => toString i.toInt
  | real x => Decimal.Layout.compact.text x
  | bool b => if b then "true" else "false"
  | str s => Text.Quoted.encode s

def kind : Lexeme → String
  | symbol _ => "symbol"
  | keyword _ => "keyword"
  | name _ => "name"
  | int _ => "int"
  | real _ => "real"
  | bool _ => "bool"
  | str _ => "str"

/-- Symbols and keywords are the fixed words of the language. -/
def isFixed : Lexeme → Bool
  | symbol _ | keyword _ => true
  | _ => false

/-- The least lexeme of the kind with a number. -/
def ofKindNumber? (n : Int) : Option Lexeme :=
  if n < 0 then none
  else [symbol .plus, keyword .publicBlock, name "", int 0, real 0, bool false, str ""][n.toNat]?

/-- The text of the least lexeme of a numbered kind, or a note that there is none. -/
def labelOfKind (n : Int) : String :=
  ((ofKindNumber? n).map text).getD "<invalid>"

end Lexeme

/-- A lexeme and its place in the source. -/
structure Token where
  lexeme : Lexeme
  start : Location
  stop : Location
deriving DecidableEq, Repr, Inhabited

def Token.area (t : Token) : Area :=
  Area.between t.start t.stop

end Diagram
