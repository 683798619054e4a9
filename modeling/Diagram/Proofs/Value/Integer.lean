import Diagram.Value.Arithmetic
import Mathlib.Algebra.Order.Ring.Int
import Mathlib.Tactic.Linarith
import Mathlib.Tactic.Ring

/-!
# Exact integer arithmetic

An operation on 64-bit integers answers with `r` if and only if the exact result is `r`.  So it
answers if and only if there is an exact result of 64 bits.  The one exception is a difference
whose subtrahend has no negative.

A power is computed with intermediate products.  All of them have 64 bits if the power has: the
factors that are still to come are squares, so they make no product smaller, unless the base
is zero.
-/

namespace Diagram

namespace Integer

def Fits (x : Int) : Prop :=
  -2 ^ 63 ≤ x ∧ x < 2 ^ 63

theorem fits_toInt (a : Int64) : Fits a.toInt :=
  ⟨a.le_toInt, a.toInt_lt⟩

variable {x : Int} {a b r : Int64} {m e : Nat}

theorem fits_iff_exists : Fits x ↔ ∃ r : Int64, r.toInt = x := by
  constructor
  · intro h
    exact ⟨Int64.ofInt x, Int64.toInt_ofInt_of_le h.1 h.2⟩
  · rintro ⟨r, rfl⟩
    exact fits_toInt r

theorem bmod_eq_of_fits (h : Fits x) : x.bmod (2 ^ 64) = x := by
  have hlow := h.1
  have hhigh := h.2
  apply Int.bmod_eq_of_le <;> omega

theorem toInt_ne_zero (h : a ≠ 0) : a.toInt ≠ 0 := fun h0 =>
  h (Int64.toInt_inj.1 h0)

/-! ### Sums and products -/

theorem add?_eq_some_iff : add? a b = some r ↔ r.toInt = a.toInt + b.toInt := by
  obtain ⟨k, hk⟩ := Int.dvd_bmod_sub_self (x := a.toInt + b.toInt) (m := 2 ^ 64)
  rw [← Int64.toInt_add] at hk
  have ha := fits_toInt a
  have hb := fits_toInt b
  have hr := fits_toInt r
  have hs := fits_toInt (a + b)
  unfold Fits at *
  simp only [add?, Bool.or_eq_true, Bool.and_eq_true, decide_eq_true_eq, Int64.lt_iff_toInt_lt,
    Int64.toInt_zero]
  split
  · -- the exact sum lies on the other side of `a`
    simp only [reduceCtorEq, false_iff]
    omega
  · rw [Option.some.injEq, ← Int64.toInt_inj]
    omega

theorem subtract?_eq_some_iff :
    subtract? a b = some r ↔ b ≠ Int64.minValue ∧ r.toInt = a.toInt - b.toInt := by
  unfold subtract?
  split
  · simp [*]
  · rename_i h
    have hneg : (-b).toInt = -b.toInt := by
      rw [Int64.toInt_neg]
      apply bmod_eq_of_fits
      have hb := fits_toInt b
      have hmin : b.toInt ≠ -2 ^ 63 := fun hb => h (Int64.toInt_inj.1 hb)
      unfold Fits at *
      omega
    rw [add?_eq_some_iff, hneg, Int.sub_eq_add_neg]
    simp [h]

/-- Division finds every product that has wrapped around, except where the quotient wraps around
too. -/
theorem toInt_mul_of_div (hb : b ≠ 0) (hdiv : a * b / b = a) (hmin : ¬(b = -1 ∧ a = Int64.minValue)) :
    (a * b).toInt = a.toInt * b.toInt := by
  have hquot : (a * b).toInt.tdiv b.toInt = a.toInt := by
    rw [← congrArg Int64.toInt hdiv]
    by_cases hone : b = -1
    · refine (Int64.toInt_div_of_ne_left _ _ fun h => hmin ⟨hone, ?_⟩).symm
      rw [← hdiv, h, hone]
      decide
    · exact (Int64.toInt_div_of_ne_right _ _ hone).symm
  have hsplit := Int.mul_tdiv_add_tmod (a * b).toInt b.toInt
  rw [hquot, Int.mul_comm] at hsplit
  -- what is left over is a multiple of the modulus, and smaller than the divisor
  have hdvd : 2 ^ 64 ∣ (a * b).toInt.tmod b.toInt := by
    have h := Int.dvd_bmod_sub_self (x := a.toInt * b.toInt) (m := 2 ^ 64)
    rw [← Int64.toInt_mul] at h
    have hrest : (a * b).toInt - a.toInt * b.toInt = (a * b).toInt.tmod b.toInt := by omega
    exact hrest ▸ h
  have hsmall : ((a * b).toInt.tmod b.toInt).natAbs < (2 ^ 64 : Int).natAbs := by
    have hb0 := toInt_ne_zero hb
    have hfits := fits_toInt b
    have hlt := Nat.mod_lt (a * b).toInt.natAbs (Int.natAbs_pos.2 hb0)
    rw [Int.natAbs_tmod]
    unfold Fits at hfits
    omega
  rw [Int.eq_zero_of_dvd_of_natAbs_lt_natAbs hdvd hsmall, Int.add_zero] at hsplit
  exact hsplit.symm

theorem multiply?_eq_some_iff : multiply? a b = some r ↔ r.toInt = a.toInt * b.toInt := by
  unfold multiply?
  split
  · rename_i h
    have hzero : a.toInt * b.toInt = 0 := by
      rcases Bool.or_eq_true _ _ ▸ h with h | h <;> simp [of_decide_eq_true h]
    rw [hzero, Option.some.injEq, ← Int64.toInt_inj, eq_comm]
    rfl
  · rename_i h0
    simp only [Bool.or_eq_true, decide_eq_true_eq, not_or] at h0
    simp only [Bool.or_eq_true, Bool.and_eq_true, bne_iff_ne, beq_iff_eq]
    split
    · rename_i h
      simp only [reduceCtorEq, false_iff]
      intro hr
      have hfits : Fits (a.toInt * b.toInt) := hr ▸ fits_toInt r
      rcases h with (h | ⟨rfl, rfl⟩) | ⟨rfl, rfl⟩
      · refine h (Int64.toInt_inj.1 ?_)
        rw [Int64.toInt_div, Int64.toInt_mul, bmod_eq_of_fits hfits,
          Int.mul_tdiv_cancel _ (toInt_ne_zero h0.2), bmod_eq_of_fits (fits_toInt a)]
      · exact absurd hfits (by unfold Fits; decide)
      · exact absurd hfits (by unfold Fits; decide)
    · rename_i h
      simp only [not_or, not_not] at h
      rw [Option.some.injEq, ← Int64.toInt_inj, toInt_mul_of_div h0.2 h.1.1 h.2, eq_comm]

/-! ### Remainders -/

/-- The remainder with the sign of the divisor, from that with the sign of the dividend. -/
theorem fmod_eq_of_tmod {a b : Int} :
    a.fmod b = if a.tmod b ≠ 0 ∧ ¬(a.tmod b < 0 ↔ b < 0) then a.tmod b + b else a.tmod b := by
  have hdvd : b ∣ a ↔ a.tmod b = 0 := Int.dvd_iff_tmod_eq_zero
  have hpos : 0 ≤ a → 0 ≤ a.tmod b := Int.tmod_nonneg b
  have hneg : a < 0 → a.tmod b ≤ 0 := by
    intro h
    have := Int.tmod_nonneg b (Int.neg_nonneg_of_nonpos h.le)
    rw [Int.neg_tmod] at this
    omega
  rw [Int.fmod_eq_tmod]
  split_ifs <;> omega

theorem modulus?_eq_some_iff : modulus? a b = some r ↔ b ≠ 0 ∧ r.toInt = a.toInt.fmod b.toInt := by
  unfold modulus?
  split
  · simp [*]
  · rename_i hb
    have hiff : (a % b ≠ 0 && (a % b < 0) != (b < 0)) = true ↔
        (a % b).toInt ≠ 0 ∧ ¬((a % b).toInt < 0 ↔ b.toInt < 0) := by
      simp [Int64.lt_iff_toInt_lt, ← Int64.toInt_inj]
    rw [fmod_eq_of_tmod, ← Int64.toInt_mod]
    dsimp only
    split
    · rename_i h
      have hsum : (a % b + b).toInt = (a % b).toInt + b.toInt := by
        rw [Int64.toInt_add]
        apply bmod_eq_of_fits
        -- numbers of different signs
        have hopposite := (hiff.1 h).2
        have hrem := fits_toInt (a % b)
        have hdivisor := fits_toInt b
        unfold Fits at *
        omega
      rw [if_pos (hiff.1 h), Option.some.injEq, ← Int64.toInt_inj, hsum, eq_comm]
      simp [hb]
    · rename_i h
      rw [if_neg (mt hiff.2 h), Option.some.injEq, ← Int64.toInt_inj, eq_comm]
      simp [hb]

/-! ### Powers -/

/-- A positive factor makes no product smaller. -/
theorem Fits.of_mul {m : Int} (hm : 0 < m) (h : Fits (x * m)) : Fits x := by
  obtain ⟨hlow, hhigh⟩ := h
  constructor <;> nlinarith

theorem fits_of_square_le {a : Int} (h : a * a ≤ 2 ^ 63) : Fits (a * a) := by
  refine ⟨by nlinarith, lt_of_le_of_ne h fun heq => ?_⟩
  have hupper : -3037000500 < a ∧ a < 3037000500 := by constructor <;> nlinarith
  nlinarith

/-- If a product with a power of a square has 64 bits, so have the other factor and the square. -/
theorem Fits.of_mul_square_pow {a : Int} (hx : x ≠ 0) (ha : a ≠ 0) (h : Fits (x * (a * a) ^ m)) :
    Fits x ∧ (m ≠ 0 → Fits (a * a)) := by
  have hsquare : 0 < a * a := mul_self_pos.2 ha
  refine ⟨h.of_mul (pow_pos hsquare m), fun hm => fits_of_square_le ?_⟩
  have hpow : a * a ≤ (a * a) ^ m := le_self_pow₀ hsquare hm
  obtain ⟨hlow, hhigh⟩ := h
  rcases lt_or_gt_of_ne hx with hneg | hpos <;> nlinarith

theorem fits_of_power (hr : a ≠ 0 → r ≠ 0) (k : Nat)
    (h : Fits (r.toInt * a.toInt ^ k * (a.toInt * a.toInt) ^ m)) :
    Fits (r.toInt * a.toInt ^ k) ∧ (m ≠ 0 → Fits (a.toInt * a.toInt)) := by
  by_cases ha : a = 0
  · subst ha
    refine ⟨?_, fun _ => fits_toInt 0⟩
    cases k with
    | zero => simpa using fits_toInt r
    | succ k => simpa using fits_toInt 0
  · have ha0 := toInt_ne_zero ha
    exact h.of_mul_square_pow (mul_ne_zero (toInt_ne_zero (hr ha)) (pow_ne_zero k ha0)) ha0

theorem factor_eq_some_iff {y : Int64} :
    (if e % 2 = 1 then multiply? r a else some r) = some y ↔
      y.toInt = r.toInt * a.toInt ^ (e % 2) := by
  rcases Nat.mod_two_eq_zero_or_one e with h | h
  · simp [h, ← Int64.toInt_inj, eq_comm]
  · simp [h, multiply?_eq_some_iff]

theorem powerFrom_succ (he : e ≠ 0) (r a : Int64) (steps : Nat) :
    powerFrom r a e (steps + 1) =
      (if e % 2 = 1 then multiply? r a else some r).bind fun y =>
        if e / 2 = 0 then some y
        else (multiply? a a).bind fun s => powerFrom y s (e / 2) steps := by
  rw [powerFrom, if_neg he]
  by_cases hodd : e % 2 = 1
  · simp only [if_pos hodd]
    rfl
  · simp only [if_neg hodd]
    rfl

/-- What is still to be multiplied is a power of the square, so an intermediate product of a power
of 64 bits has 64 bits. -/
theorem powerFrom_eq_some_iff {steps : Nat} : ∀ {r a : Int64} {e : Nat}, e < 2 ^ steps →
    (a ≠ 0 → r ≠ 0) → ∀ {x : Int64},
    (powerFrom r a e steps = some x ↔ x.toInt = r.toInt * a.toInt ^ e) := by
  induction steps with
  | zero =>
    intro r a e he _ x
    obtain rfl : e = 0 := by omega
    simp [powerFrom, ← Int64.toInt_inj, eq_comm]
  | succ steps ih =>
    intro r a e he hr x
    by_cases he0 : e = 0
    · simp [powerFrom, he0, ← Int64.toInt_inj, eq_comm]
    have hsplit : r.toInt * a.toInt ^ e =
        r.toInt * a.toInt ^ (e % 2) * (a.toInt * a.toInt) ^ (e / 2) := by
      rw [← pow_two, mul_assoc, ← pow_mul, ← pow_add, Nat.mod_add_div]
    have hnext : ∀ {y s : Int64}, y.toInt = r.toInt * a.toInt ^ (e % 2) →
        s.toInt = a.toInt * a.toInt → s ≠ 0 → y ≠ 0 := by
      rintro y s hy hs hs0 rfl
      have ha0 : a.toInt ≠ 0 := fun h => hs0 (Int64.toInt_inj.1 (by simp [hs, h]))
      have ha : a ≠ 0 := fun h => ha0 (h ▸ Int64.toInt_zero)
      exact mul_ne_zero (toInt_ne_zero (hr ha)) (pow_ne_zero (e % 2) ha0) hy.symm
    simp only [powerFrom_succ he0, hsplit, Option.bind_eq_some_iff, factor_eq_some_iff]
    by_cases hm : e / 2 = 0
    · simp only [hm, if_true, pow_zero, mul_one, Option.some.injEq]
      exact ⟨fun ⟨y, hy, hyx⟩ => hyx ▸ hy, fun h => ⟨x, h, rfl⟩⟩
    simp only [if_neg hm, Option.bind_eq_some_iff, multiply?_eq_some_iff]
    constructor
    · rintro ⟨y, hy, s, hs, h⟩
      rw [ih (by omega) (hnext hy hs), hy, hs] at h
      exact h
    · intro h
      obtain ⟨hfirst, hsquare⟩ := fits_of_power hr (e % 2) (h ▸ fits_toInt x)
      obtain ⟨y, hy⟩ := fits_iff_exists.1 hfirst
      obtain ⟨s, hs⟩ := fits_iff_exists.1 (hsquare hm)
      refine ⟨y, hy, s, hs, ?_⟩
      rw [ih (by omega) (hnext hy hs), hy, hs]
      exact h

theorem power?_eq_some_iff :
    power? a b = some r ↔ 0 ≤ b.toInt ∧ r.toInt = a.toInt ^ b.toInt.toNat := by
  have hlt := b.toInt_lt
  have hneg : b < 0 ↔ b.toInt < 0 := by rw [Int64.lt_iff_toInt_lt, Int64.toInt_zero]
  unfold power?
  split
  · rename_i hb
    simp [hneg.1 hb]
  · rename_i hb
    rw [hneg] at hb
    rw [powerFrom_eq_some_iff (by omega) (fun _ => by decide), Int64.toInt_one]
    omega

end Integer

namespace Value

/-- The exact result of an operation on integers.  A remainder has the sign of the divisor. -/
def exactArithmetic? (op : Operation) (a b : Int) : Option Int :=
  match op with
  | .add => some (a + b)
  | .subtract => some (a - b)
  | .multiply => some (a * b)
  | .modulus => if b = 0 then none else some (a.fmod b)
  | .exponent => if b < 0 then none else some (a ^ b.toNat)
  | _ => none

theorem integerArithmetic?_eq_some_iff {op : Operation} {a b r : Int64} :
    integerArithmetic? op a b = some r ↔
      exactArithmetic? op a.toInt b.toInt = some r.toInt ∧
        ¬(op = .subtract ∧ b = Int64.minValue) := by
  have hzero : b.toInt = 0 ↔ b = 0 := by rw [← Int64.toInt_zero, Int64.toInt_inj]
  unfold integerArithmetic? exactArithmetic?
  cases op with
  | add => simp [Integer.add?_eq_some_iff, eq_comm (a := r.toInt)]
  | subtract => simp [Integer.subtract?_eq_some_iff, eq_comm (a := r.toInt), and_comm]
  | multiply => simp [Integer.multiply?_eq_some_iff, eq_comm (a := r.toInt)]
  | modulus => simp [Integer.modulus?_eq_some_iff, hzero, eq_comm (a := r.toInt)]
  | exponent => simp [Integer.power?_eq_some_iff, eq_comm (a := r.toInt)]
  | _ => simp

/-- Arithmetic on integers is exact: it answers if and only if there is an exact result of 64 bits,
except for a difference whose subtrahend is the least integer, and it answers with that result. -/
theorem integerArithmetic?_isSome_iff (op : Operation) (a b : Int64) :
    ((integerArithmetic? op a b).isSome ↔
      (∃ x, exactArithmetic? op a.toInt b.toInt = some x ∧ Integer.Fits x) ∧
        ¬(op = .subtract ∧ b = Int64.minValue)) ∧
    ∀ r, integerArithmetic? op a b = some r ↔
      exactArithmetic? op a.toInt b.toInt = some r.toInt ∧
        ¬(op = .subtract ∧ b = Int64.minValue) := by
  refine ⟨?_, fun r => integerArithmetic?_eq_some_iff⟩
  simp only [Option.isSome_iff_exists, integerArithmetic?_eq_some_iff, Integer.fits_iff_exists]
  constructor
  · rintro ⟨r, hr, hsub⟩
    exact ⟨⟨r.toInt, hr, r, rfl⟩, hsub⟩
  · rintro ⟨⟨x, hx, r, rfl⟩, hsub⟩
    exact ⟨r, hx, hsub⟩

end Value

end Diagram
