import Diagram.Decimal.Read
import Diagram.Yaml

/-!
# What YAML scalars stand for

A plain scalar may be spelt as null, as a truth value or as a number; its tag can require one
of them.  All other scalars are texts.
-/

namespace Diagram.Yaml

/-- What a scalar stands for. -/
inductive Meaning where
  | null
  | bool (b : Bool)
  | integer (n : Int)
  | real (x : Float)
  | text

namespace Meaning

def nulls : List String := ["", "~", "null", "Null", "NULL"]

def truths : List String :=
  ["y", "Y", "yes", "Yes", "YES", "true", "True", "TRUE", "on", "On", "ON"]

def falsehoods : List String :=
  ["n", "N", "no", "No", "NO", "false", "False", "FALSE", "off", "Off", "OFF"]

def digit? (c : Char) : Option Nat :=
  if c.isDigit then some (c.toNat - '0'.toNat)
  else if 'a' ≤ c ∧ c ≤ 'f' then some (c.toNat - 'a'.toNat + 10)
  else if 'A' ≤ c ∧ c ≤ 'F' then some (c.toNat - 'A'.toNat + 10)
  else none

def readDigits? (base : Nat) (cs : List Char) : Option Nat :=
  if cs.isEmpty then none
  else cs.foldlM (fun n c => do
    let d ← digit? c
    if d < base then some (base * n + d) else none) 0

/-- Reads an unsigned integer whose first characters say its base. -/
def readBased? : List Char → Option Nat
  | ['0'] => some 0
  | '0' :: c :: cs =>
    if c = 'x' ∨ c = 'X' then readDigits? 16 cs
    else if c = 'o' ∨ c = 'O' then readDigits? 8 cs
    else if c = 'b' ∨ c = 'B' then readDigits? 2 cs
    else readDigits? 8 (c :: cs)
  | cs => readDigits? 10 cs

/-- Reads an integer within 64 bits; without a sign it may use all of them. -/
def readInteger? (cs : List Char) : Option Int := do
  let (negative, digits) := Decimal.splitSign cs
  let n ← readBased? digits
  if negative then
    if n ≤ Nat.pow 2 63 then some (-n) else none
  else
    let bound := if digits.length = cs.length then Nat.pow 2 64 else Nat.pow 2 63
    if n < bound then some n else none

def readReal? (cs : List Char) : Option Float := do
  let (negative, digits) := Decimal.splitSign cs
  let d ← Decimal.readUnsigned? digits
  let x := d.toFloat
  if x.isInf then none else some (if negative then -x else x)

/-- The meaning of the spelling of a number, in which underscores do not count. -/
def ofNumber (cs : List Char) : Meaning :=
  let digits := cs.filter (· ≠ '_')
  match readInteger? digits with
  | some n => .integer n
  | none =>
    match readReal? digits with
    | some x => .real x
    | none => .text

def ofPlain (s : String) : Meaning :=
  if nulls.contains s then .null
  else if truths.contains s then .bool true
  else if falsehoods.contains s then .bool false
  else
    match s.toList with
    | '.' :: cs => ((readReal? ('.' :: cs)).map Meaning.real).getD .text
    | c :: cs => if c.isDigit ∨ c = '-' ∨ c = '+' then ofNumber (c :: cs) else .text
    | [] => .text

/-- The short name of a tag of the standard set; other tags have none. -/
def standardTag? (tag : String) : Option String :=
  if tag.startsWith "!!" then some (tag.drop 2).toString
  else if tag.startsWith "!<tag:yaml.org,2002:" ∧ tag.endsWith ">" then
    some ((tag.drop 20).dropEnd 1).toString
  else none

/-- The meaning under a tag of the standard set; nothing if the spelling does not fit the tag. -/
def underTag (tag : String) (m : Meaning) : Option Meaning :=
  match tag, m with
  | "null", .null => some m
  | "bool", .bool _ => some m
  | "int", .integer _ => some m
  | "float", .real _ => some m
  | "float", .integer n => some (.real (Float.ofInt n))
  | "null", _ | "bool", _ | "int", _ | "float", _ => none
  | _, _ => some .text

/-- The meaning of a scalar; nothing if its spelling does not fit its tag. -/
def ofScalar? (s : String) (plain : Bool) (tag : String) : Option Meaning :=
  if tag.isEmpty then some (if plain then ofPlain s else .text)
  else
    match standardTag? tag with
    | some name => underTag name (ofPlain s)
    | none => some .text

end Meaning

end Diagram.Yaml
