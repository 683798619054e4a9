/-!
# Integer arithmetic that declines to overflow

Operations on 64-bit integers that answer only when the exact result has 64 bits.  A power
is computed by repeated squaring, so it takes at most one step for each bit of the exponent.
-/

namespace Diagram.Integer

/-- The sum, unless it overflows. -/
def add? (a b : Int64) : Option Int64 :=
  let r := a + b
  if (0 < b && r < a) || (b < 0 && a < r) then none else some r

/-- The difference, unless it overflows or the subtrahend has no negative. -/
def subtract? (a b : Int64) : Option Int64 :=
  if b = Int64.minValue then none else add? a (-b)

/-- The product, unless it overflows. -/
def multiply? (a b : Int64) : Option Int64 :=
  if a = 0 || b = 0 then some 0
  else
    let r := a * b
    if r / b != a || (a == -1 && b == Int64.minValue) || (b == -1 && a == Int64.minValue) then none
    else some r

/-- The remainder with the sign of the divisor, unless that is zero. -/
def modulus? (a b : Int64) : Option Int64 :=
  if b = 0 then none
  else
    let r := a % b
    if r ≠ 0 && (r < 0) != (b < 0) then some (r + b) else some r

/-- Multiplies `r` by a power of `a`, one bit of the exponent in each step. -/
def powerFrom (r a : Int64) (exponent : Nat) : (steps : Nat) → Option Int64
  | 0 => some r
  | steps + 1 =>
    if exponent = 0 then some r
    else do
      let r ← if exponent % 2 = 1 then multiply? r a else some r
      if exponent / 2 = 0 then some r
      else powerFrom r (← multiply? a a) (exponent / 2) steps

/-- The power, unless it overflows or the exponent is negative. -/
def power? (a b : Int64) : Option Int64 :=
  if b < 0 then none else powerFrom 1 a b.toInt.toNat 64

end Diagram.Integer
