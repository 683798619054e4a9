import Diagram.Decimal.Shortest

/-!
# Reading numbers

Integers are runs of digits within 64 bits.  Reals have an optional sign, digits with at
most one point, and an optional exponent; a real that is too large reads as infinite.
-/

namespace Diagram.Decimal

def natOfDigits (cs : List Char) : Nat :=
  cs.foldl (fun n c => 10 * n + (c.toNat - '0'.toNat)) 0

/-- The least 64-bit integer. -/
def leastInteger : Int := Int64.minValue.toInt

/-- The greatest 64-bit integer. -/
def greatestInteger : Int := Int64.maxValue.toInt

def integer? (n : Int) : Option Int64 :=
  if leastInteger ≤ n ∧ n ≤ greatestInteger then some (Int64.ofInt n) else none

/-- Reads a non-empty run of digits as a 64-bit integer. -/
def readInteger? (cs : List Char) : Option Int64 :=
  if cs ≠ [] ∧ cs.all Char.isDigit then integer? (natOfDigits cs) else none

/-- Splits a sign off a text; true means negative. -/
def splitSign : List Char → Bool × List Char
  | '-' :: rest => (true, rest)
  | '+' :: rest => (false, rest)
  | cs => (false, cs)

/-- The number `coeff · 10 ^ exp`, rounded to the nearest floating-point number; exponents that
are out of all proportion give zero or infinity without being computed. -/
def toFloat (d : Decimal) : Float :=
  if d.coeff = 0 then 0
  else
    let e := digitCount d.coeff + d.exp
    if e < -400 then 0
    else if 400 < e then Float.ofBits 0x7FF0000000000000
    else Float.ofScientific d.coeff (d.exp < 0) d.exp.natAbs

/-- Reads digits with at most one point among them, and at least one digit. -/
def readMantissa? (cs : List Char) : Option Decimal :=
  let whole := cs.takeWhile Char.isDigit
  let rest := cs.drop whole.length
  match rest with
  | [] => if whole = [] then none else some ⟨natOfDigits whole, 0⟩
  | '.' :: fraction =>
    if fraction.all Char.isDigit ∧ ¬(whole = [] ∧ fraction = []) then
      some ⟨natOfDigits (whole ++ fraction), -fraction.length⟩
    else none
  | _ => none

def readExponent? (cs : List Char) : Option Int :=
  let (negative, ds) := splitSign cs
  if ds ≠ [] ∧ ds.all Char.isDigit then
    some (if negative then -natOfDigits ds else natOfDigits ds)
  else none

def readUnsigned? (cs : List Char) : Option Decimal :=
  let isMark (c : Char) : Bool := c == 'e' || c == 'E'
  let mantissa := cs.takeWhile (!isMark ·)
  match cs.drop mantissa.length with
  | [] => readMantissa? mantissa
  | _ :: exponent => do
    let d ← readMantissa? mantissa
    let e ← readExponent? exponent
    return ⟨d.coeff, d.exp + e⟩

/-- Reads a real; infinities and the number that is none are written by name. -/
def readReal? (s : String) : Option Float :=
  let (negative, cs) := splitSign s.toList
  let name := String.ofList (cs.map Char.toLower)
  if name = "inf" ∨ name = "infinity" then
    some (Float.ofBits (if negative then 0xFFF0000000000000 else 0x7FF0000000000000))
  else if name = "nan" then some (Float.ofBits 0x7FF8000000000001)
  else (readUnsigned? cs).map fun d => if negative then -d.toFloat else d.toFloat

end Diagram.Decimal
