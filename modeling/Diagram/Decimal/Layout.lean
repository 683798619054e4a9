import Diagram.Decimal.Shortest

/-!
# The text of a number

Numbers are written with the fewest digits that read back.  Formulas and constants write
all of them in positional notation; tokens, colors and measurements turn to an exponent
for very small and for large numbers.
-/

namespace Diagram.Decimal

/-- How a number is laid out. -/
structure Layout where
  /-- Positional notation is for numbers from `10 ^ low` and below `10 ^ high`; without these
  limits it is for all numbers. -/
  limits : Option (Int × Int)
deriving DecidableEq, Repr

namespace Layout

def positional : Layout := ⟨none⟩

/-- Positional notation between a ten-thousandth and a million, an exponent otherwise. -/
def compact : Layout := ⟨some (-4, 6)⟩

/-- Whether a number whose leading digit stands for `10 ^ e` is written with an exponent. -/
def usesExponent (layout : Layout) (e : Int) : Bool :=
  match layout.limits with
  | none => false
  | some (low, high) => e < low || high ≤ e

end Layout

def digits (d : Decimal) : List Char :=
  Nat.toDigits 10 d.coeff

/-- The power of ten that the leading digit stands for. -/
def leading (d : Decimal) : Int :=
  d.digits.length + d.exp - 1

/-- Positional notation: zeros fill the places up to the point, and none stand behind it. -/
def positionalText (d : Decimal) : List Char :=
  if 0 ≤ d.exp then
    if d.coeff = 0 then ['0'] else d.digits ++ List.replicate d.exp.toNat '0'
  else
    let point := d.digits.length + d.exp
    if 0 < point then
      d.digits.take point.toNat ++ '.' :: d.digits.drop point.toNat
    else '0' :: '.' :: (List.replicate (-point).toNat '0' ++ d.digits)

/-- Notation with an exponent, which has a sign and at least two digits. -/
def exponentText (d : Decimal) : List Char :=
  let e := d.leading
  let size := Nat.toDigits 10 e.natAbs
  let fraction := match d.digits.drop 1 with
    | [] => []
    | rest => '.' :: rest
  d.digits.take 1 ++ fraction ++ 'e' :: (if e < 0 then '-' else '+') ::
    (List.replicate (2 - size.length) '0' ++ size)

def Layout.text (layout : Layout) (x : Float) : String :=
  match Binary.ofFloat x with
  | .nan => "NaN"
  | .infinite negative => if negative then "-Inf" else "+Inf"
  | .finite negative m q =>
    let d := shortest m q
    let body :=
      if m ≠ 0 ∧ layout.usesExponent d.leading then d.exponentText else d.positionalText
    String.ofList (if negative then '-' :: body else body)

end Diagram.Decimal
