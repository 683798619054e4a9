import Diagram.Text.Quoted

/-!
# JSON

Values of the interchange format and their compact text.  Fields keep the order in which
they are given.
-/

namespace Diagram

inductive Json where
  | bool (b : Bool)
  | number (n : Int)
  | text (s : String)
  | list (items : List Json)
  | object (fields : List (String × Json))
deriving Repr, Inhabited

namespace Json

/-- A character inside of a quoted text.  Quotes, backslashes and control characters are escaped,
and so are the two separators that some readers take for the end of a line. -/
def escape (c : Char) : List Char :=
  if c = '"' then ['\\', '"']
  else if c = '\\' then ['\\', '\\']
  else if c = '\x08' then ['\\', 'b']
  else if c = '\x0c' then ['\\', 'f']
  else if c = '\n' then ['\\', 'n']
  else if c = '\r' then ['\\', 'r']
  else if c = '\t' then ['\\', 't']
  else if c.toNat < 0x20 || c.toNat = 0x2028 || c.toNat = 0x2029 then
    '\\' :: 'u' :: Text.Quoted.hex 4 c.toNat
  else [c]

def quote (s : String) : List Char :=
  '"' :: s.toList.flatMap escape ++ ['"']

mutual

def chars : Json → List Char
  | bool b => if b then "true".toList else "false".toList
  | number n => (toString n).toList
  | text s => quote s
  | list items => '[' :: itemChars items ++ [']']
  | object fields => '\x7b' :: fieldChars fields ++ ['\x7d']

def itemChars : List Json → List Char
  | [] => []
  | [j] => j.chars
  | j :: k :: rest => j.chars ++ ',' :: itemChars (k :: rest)

def fieldChars : List (String × Json) → List Char
  | [] => []
  | [(key, j)] => quote key ++ ':' :: j.chars
  | (key, j) :: next :: rest => quote key ++ ':' :: j.chars ++ ',' :: fieldChars (next :: rest)

end

def encode (j : Json) : String :=
  String.ofList j.chars

end Json

end Diagram
