/-!
# The exact value of a floating-point number

A finite number is `± m · 2 ^ q` for a natural number `m` below `2 ^ 53`.  Every
computation on digits below works on `m` and `q`, so that it is exact.
-/

namespace Diagram.Decimal

/-- A floating-point number, taken apart. -/
inductive Binary where
  | nan
  | infinite (negative : Bool)
  | finite (negative : Bool) (m : Nat) (q : Int)
deriving DecidableEq, Repr

namespace Binary

/-- The exponent of the smallest positive number, and of every number below `2 ^ (-1022)`. -/
def leastExponent : Int := -1074

def greatestExponent : Int := 971

def precision : Nat := 53

def ofFloat (x : Float) : Binary :=
  let bits := x.toBits.toNat
  let negative := bits / Nat.pow 2 63 == 1
  let exponent : Nat := bits / Nat.pow 2 52 % Nat.pow 2 11
  let fraction : Nat := bits % Nat.pow 2 52
  if exponent = 2047 then
    if fraction = 0 then .infinite negative else .nan
  else if exponent = 0 then .finite negative fraction leastExponent
  else .finite negative (fraction + Nat.pow 2 52) ((exponent : Int) - 1 + leastExponent)

/-- The bits of `m · 2 ^ q` for `m < 2 ^ 53`, where `q` is already the exponent that the
format gives to this number: `m` has its leading bit unless `q` is the least exponent. -/
def bitsOf (negative : Bool) (m : Nat) (q : Int) : Nat :=
  let sign := if negative then Nat.pow 2 63 else 0
  if m < Nat.pow 2 52 then sign + m
  else sign + (q - leastExponent + 1).toNat * Nat.pow 2 52 + (m - Nat.pow 2 52)

/-- The number `± m · 2 ^ q`, which has to be one of the format: doubles `m` as often as the
exponent and the precision allow. -/
def exact (negative : Bool) (m : Nat) (q : Int) : Float :=
  let room := precision - (if m = 0 then 0 else m.log2 + 1)
  let shift := min room (q - leastExponent).toNat
  Float.ofBits (bitsOf negative (m * Nat.pow 2 shift) (q - shift)).toUInt64

/-- A finite number without its fraction. -/
def whole? : Binary → Option Int
  | finite negative m q =>
    let n : Nat := if 0 ≤ q then m * Nat.pow 2 q.toNat else m / Nat.pow 2 (-q).toNat
    some (if negative then -n else n)
  | _ => none

/-- The natural number that is nearest to a finite number without its sign; a half is rounded
up. -/
def nearest? : Binary → Option Nat
  | finite _ m q =>
    let k := (-q).toNat
    some (if 0 ≤ q then m * Nat.pow 2 q.toNat else (2 * m + Nat.pow 2 k) / Nat.pow 2 (k + 1))
  | _ => none

end Binary

/-- The remainder of `x` by `y`, with the sign of `x`.  It is always exact: `x` and `y` are
brought to the smaller of their two exponents and divided as natural numbers. -/
def remainder (x y : Float) : Float :=
  match Binary.ofFloat x, Binary.ofFloat y with
  | .finite s m q, .finite _ n r =>
    if n = 0 then Float.ofBits 0x7FF8000000000000
    else
      let e := min q r
      Binary.exact s (m * Nat.pow 2 (q - e).toNat % (n * Nat.pow 2 (r - e).toNat)) e
  | .finite _ _ _, .infinite _ => x
  | _, _ => Float.ofBits 0x7FF8000000000000

end Diagram.Decimal
