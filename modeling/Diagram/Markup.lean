import Diagram.Text.Letter

/-!
# Markup

The text that the target calculator reads: runs of characters, control sequences, and groups
in braces.  Two runs of letters are kept apart by a blank, because a control sequence ends at
the first character that is not a letter.
-/

namespace Diagram

/-- The shapes of sized brackets. -/
inductive Bracket where
  | paren | square | curly | pipe
deriving DecidableEq, Repr, Inhabited

namespace Bracket

/-- The bracket with a number; parentheses for a number outside the table. -/
def ofNumber (n : Int) : Bracket :=
  if n < 0 then paren else [paren, square, curly, pipe][n.toNat]?.getD paren

def left : Bracket → String
  | paren => "(" | square => "[" | curly => "\\\x7b" | pipe => "|"

def right : Bracket → String
  | paren => ")" | square => "]" | curly => "\\\x7d" | pipe => "|"

end Bracket

/-- A primitive of the markup. -/
inductive Mark where
  | group (content : List Mark)
  | root (radicand : List Mark)
  | nthRoot (index radicand : List Mark)
  | fraction (numerator denominator : List Mark)
  | superscript (content : List Mark)
  | subscript (content : List Mark)
  | opening (b : Bracket)
  | closing (b : Bracket)
  /-- A name in upright letters. -/
  | operatorName (name : String)
  | control (name : String)
  /-- A single character, escaped if it is special. -/
  | symbol (c : Char)
  | run (s : String)
deriving Repr, Inhabited

abbrev Markup := List Mark

namespace Mark

def endsWithLetter (s : String) : Bool :=
  s.toList.getLast?.any Text.isLetter

/-- Whether a text starts with a letter. -/
def startsWithLetter (s : String) : Bool :=
  s.toList.head?.any Text.isLetter

/-- Whether a blank is needed between a primitive and a letter after it. -/
def endsInLetter : Mark → Bool
  | control name => endsWithLetter name
  | symbol c => c == '~' || Text.isLetter c
  | run s => endsWithLetter s
  | _ => false

/-- Whether a character is written with a backslash in front. -/
def isSpecial (c : Char) : Bool :=
  ['&', '%', '$', '#', '\x7b', '\x7d'].contains c

/-- A single character; the flag says whether it follows a letter. -/
def symbolChars (afterLetter : Bool) (c : Char) : List Char :=
  if isSpecial c then ['\\', c]
  else if c = '~' then "\\sim".toList
  else if afterLetter && Text.isLetter c then [' ', c]
  else [c]

/-- A run of characters; the flag says whether it follows a letter. -/
def runChars (afterLetter : Bool) (s : String) : List Char :=
  if afterLetter && startsWithLetter s then ' ' :: s.toList else s.toList

def braced (content : List Char) : List Char :=
  '\x7b' :: content ++ ['\x7d']

mutual

/-- The characters of a primitive; the flag says whether it follows a letter. -/
def chars (afterLetter : Bool) : Mark → List Char
  | group content => braced (charsOf false content)
  | root radicand => "\\sqrt".toList ++ braced (charsOf false radicand)
  | nthRoot index radicand =>
    "\\sqrt".toList ++ '[' :: charsOf false index ++ ']' :: braced (charsOf false radicand)
  | fraction numerator denominator =>
    "\\frac".toList ++ braced (charsOf false numerator) ++ braced (charsOf false denominator)
  | superscript content => '^' :: braced (charsOf false content)
  | subscript content => '_' :: braced (charsOf false content)
  | opening b => "\\left".toList ++ b.left.toList
  | closing b => "\\right".toList ++ b.right.toList
  | operatorName name => "\\operatorname".toList ++ braced name.toList
  | control name => '\\' :: name.toList
  | symbol c => symbolChars afterLetter c
  | run s => runChars afterLetter s

def charsOf (afterLetter : Bool) : List Mark → List Char
  | [] => []
  | m :: ms => m.chars afterLetter ++ charsOf m.endsInLetter ms

end

end Mark

def Markup.text (m : Markup) : String :=
  String.ofList (Mark.charsOf false m)

end Diagram
