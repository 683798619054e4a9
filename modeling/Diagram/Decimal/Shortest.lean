import Diagram.Decimal.Binary

/-!
# The fewest digits that read back

A positive number `m · 2 ^ q` is the nearest floating-point number to every real in an
interval around it.  Of the decimals in that interval those with the fewest digits are
taken, and of these the nearest to the number; of two equally near ones the even one.

Only the two neighbours of the number on each grid of `n`-digit decimals have to be
tried, because if any point of the grid lies in the interval then so does one of them.
-/

namespace Diagram

/-- The decimal `coeff · 10 ^ exp`. -/
structure Decimal where
  coeff : Nat
  exp : Int
deriving DecidableEq, Repr, Inhabited

namespace Decimal

def ratio (coeff : Nat) (ten two : Int) : Nat × Nat :=
  (coeff * Nat.pow 10 ten.toNat * Nat.pow 2 two.toNat,
    Nat.pow 10 (-ten).toNat * Nat.pow 2 (-two).toNat)

def compareRatio (a b : Nat × Nat) : Ordering :=
  compare (a.1 * b.2) (b.1 * a.2)

/-- The number of decimal digits of a natural number. -/
def digitCount (n : Nat) : Nat :=
  (Nat.toDigits 10 n).length

/-- The place `p` of a positive ratio: it lies between `10 ^ (p - 1)` and `10 ^ p`. -/
def place (r : Nat × Nat) : Int :=
  if r.2 ≤ r.1 then digitCount (r.1 / r.2)
  else
    let d := digitCount (r.2 / r.1)
    if r.2 ≤ r.1 * Nat.pow 10 (d - 1) then 2 - d else 1 - d

/-- The ends of the interval of reals that round to `m · 2 ^ q`, in units of `2 ^ (q - 2)`.
Below a power of two the next number is only half as far away. -/
def interval (m : Nat) (q : Int) : Nat × Nat :=
  (if m = Nat.pow 2 52 ∧ Binary.leastExponent < q then 4 * m - 1 else 4 * m - 2, 4 * m + 2)

/-- Whether a decimal reads back as `m · 2 ^ q`.  The ends of the interval do if `m` is even. -/
def readsBack (m : Nat) (q : Int) (d : Decimal) : Bool :=
  let r := ratio d.coeff d.exp 0
  let low := compareRatio (ratio (interval m q).1 0 (q - 2)) r
  let high := compareRatio r (ratio (interval m q).2 0 (q - 2))
  (low == .lt || (low == .eq && m % 2 == 0)) && (high == .lt || (high == .eq && m % 2 == 0))

/-- Of the two neighbours of `m · 2 ^ q` among the multiples of `10 ^ t` the one that reads back;
of two that do, the nearer one; of two equally near ones, the even one. -/
def nearest? (m : Nat) (q t : Int) : Option Decimal :=
  let r := ratio m (-t) q
  let below : Nat := r.1 / r.2
  let low : Decimal := ⟨below, t⟩
  let high : Decimal := ⟨below + 1, t⟩
  if readsBack m q low then
    if readsBack m q high then
      match compareRatio (2 * r.1, r.2) (2 * below + 1, 1) with
      | .lt => some low
      | .gt => some high
      | .eq => some (if below % 2 = 0 then low else high)
    else some low
  else if readsBack m q high then some high
  else none

/-- The first grid with a decimal that reads back, from `n` digits on, of at most `fuel` grids. -/
def search (m : Nat) (q p : Int) : (fuel : Nat) → (n : Int) → Decimal
  | 0, n => ⟨(ratio m (n - p) q).1 / (ratio m (n - p) q).2, p - n⟩
  | fuel + 1, n => (nearest? m q (p - n)).getD (search m q p fuel (n + 1))

/-- Moves at most `fuel` trailing zeros of the coefficient into the exponent. -/
def dropZeros : (fuel : Nat) → Decimal → Decimal
  | 0, d => d
  | fuel + 1, d => if d.coeff % 10 = 0 then dropZeros fuel ⟨d.coeff / 10, d.exp + 1⟩ else d

/-- The shortest decimal that reads back as `m · 2 ^ q`; zero is `0`.  Seventeen digits are
always enough. -/
def shortest (m : Nat) (q : Int) : Decimal :=
  if m = 0 then ⟨0, 0⟩ else dropZeros 18 (search m q (place (ratio m 0 q)) 17 1)

end Decimal

end Diagram
