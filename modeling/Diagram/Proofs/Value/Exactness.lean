import Diagram.Proofs.Decimal.Rounded
import Diagram.Proofs.Program.Items
import Diagram.Typing.Program

/-!
# Integer constants outside of arithmetic

Comparisons, points and coordinates of integer constants go through floating-point numbers.  They
are exact where rounding keeps the integers apart or leaves them as they are.

Main statement: `Typing.exact_of_integers_iff`.
-/

namespace Diagram

namespace Decimal

theorem halfEven_mono {n n' : Nat} (d : Nat) (h : n ≤ n') : halfEven n d ≤ halfEven n' d := by
  have hquotient := Nat.div_le_div_right (c := d) h
  have hn := Nat.div_add_mod n d
  have hn' := Nat.div_add_mod n' d
  unfold halfEven
  rcases Nat.lt_or_eq_of_le hquotient with hlt | heq
  · repeat' split
    all_goals omega
  · rw [heq] at hn ⊢
    repeat' split
    all_goals omega

/-- Rounding stays between the powers of two around a number. -/
theorem roundedNat_bounds {n : Nat} (hn : n ≠ 0) :
    2 ^ n.log2 ≤ roundedNat n ∧ roundedNat n ≤ 2 ^ (n.log2 + 1) := by
  rcases Nat.lt_or_ge n.log2 52 with hlog | hlog
  · have hlt := Nat.lt_log2_self (n := n)
    have hpow : 2 ^ (n.log2 + 1) ≤ 2 ^ 52 := Nat.pow_le_pow_right (by decide) hlog
    rw [roundedNat_eq_self (by omega)]
    exact ⟨Nat.log2_self_le hn, Nat.le_of_lt hlt⟩
  · obtain ⟨hlow, hhigh⟩ := halfEven_bounds hlog
    have hpow (k : Nat) : 2 ^ (k + n.log2 - 52) = 2 ^ k * 2 ^ (n.log2 - 52) := by
      rw [← Nat.pow_add, Nat.add_sub_assoc hlog]
    have hlow' := Nat.mul_le_mul_right (2 ^ (n.log2 - 52)) hlow
    have hhigh' := Nat.mul_le_mul_right (2 ^ (n.log2 - 52)) hhigh
    rw [← hpow] at hlow' hhigh'
    rw [roundedNat]
    exact ⟨by simpa using hlow', by simpa [Nat.add_comm] using hhigh'⟩

theorem roundedNat_mono {n n' : Nat} (h : n ≤ n') : roundedNat n ≤ roundedNat n' := by
  by_cases hn : n = 0
  · simp [hn, roundedNat, halfEven]
  have hlog : n.log2 ≤ n'.log2 := (Nat.le_log2 (by omega)).2 (Nat.le_trans (Nat.log2_self_le hn) h)
  rcases Nat.lt_or_eq_of_le hlog with hlt | heq
  · calc
      roundedNat n ≤ 2 ^ (n.log2 + 1) := (roundedNat_bounds hn).2
      _ ≤ 2 ^ n'.log2 := Nat.pow_le_pow_right (by decide) hlt
      _ ≤ roundedNat n' := (roundedNat_bounds (by omega)).1
  · rw [roundedNat, heq]
    exact Nat.mul_le_mul_right _ (halfEven_mono _ h)

theorem rounded_mono {a b : Int} (h : a ≤ b) : rounded a ≤ rounded b := by
  have hup := @roundedNat_mono a.natAbs b.natAbs
  have hdown := @roundedNat_mono b.natAbs a.natAbs
  unfold rounded
  split <;> split <;> omega

/-- The integer that a floating-point number is worth. -/
theorem Canonical.whole? {a : Int} {x : Float} (h : Canonical a x.toModel.unpack) :
    (Binary.ofFloat x).whole? = some a := by
  rcases h.ofFloat rfl with ⟨rfl, s, hx⟩ | ⟨m, k, -, -, -, hm, hx⟩
  · simp only [hx, Binary.whole?, Nat.zero_mul, Nat.zero_div, ite_self]
    cases s <;> rfl
  · have hnat : (if (0 : Int) ≤ k - 52 then m * Nat.pow 2 ((k : Int) - 52).toNat
        else m / Nat.pow 2 (-((k : Int) - 52)).toNat) = a.natAbs := by
      simp only [Nat.pow_eq]
      split
      · refine Nat.eq_of_mul_eq_mul_right (Nat.two_pow_pos 52) ?_
        rw [Nat.mul_assoc, ← Nat.pow_add, ← hm, show ((k : Int) - 52).toNat + 52 = k by omega]
      · refine Nat.div_eq_of_eq_mul_left (Nat.two_pow_pos _) ?_
        refine Nat.eq_of_mul_eq_mul_right (Nat.two_pow_pos k) ?_
        rw [hm, Nat.mul_assoc, ← Nat.pow_add, show (-((k : Int) - 52)).toNat + k = 52 by omega]
    simp only [hx, Binary.whole?, hnat, decide_eq_true_eq]
    congr 1
    split <;> omega

end Decimal

open Decimal

/-- Whether a comparison holds of two integers. -/
def Operation.holds (op : Operation) (a b : Int) : Bool :=
  match op with
  | .lessThan => a < b
  | .greaterThan => b < a
  | .lessEqual => a ≤ b
  | .greaterEqual => b ≤ a
  | .equal => a == b
  | .notEqual => a != b
  | _ => false

namespace Value

variable {a b : Value} {i j : Int64} {op : Operation}

theorem canonical_floatOfInteger (i : Int64) :
    Canonical (rounded i.toInt) (floatOfInteger i).toModel.unpack := by
  have hlow := i.le_toInt
  have hhigh := i.toInt_lt
  exact canonical_ofInt (by omega)

theorem number?_of_integer? (h : a.integer? = some i) : a.number? = some (floatOfInteger i) := by
  cases a with
  | int j | enum _ _ j =>
    cases h
    rfl
  | bool b =>
    cases h
    cases b <;> rfl
  | _ => cases h

theorem compareNumbers_eq {x y : Float} {m n : Int} (hx : Canonical m x.toModel.unpack)
    (hy : Canonical n y.toModel.unpack) : compareNumbers op x y = op.holds m n := by
  have hlt {x y : Float} {m n : Int} (hx : Canonical m x.toModel.unpack)
      (hy : Canonical n y.toModel.unpack) : x < y ↔ m < n := by
    refine decide_eq_true_iff.trans ?_
    change (x.toModel.unpack.compare y.toModel.unpack == some .lt) = true ↔ _
    rw [hx.compare hy, beq_iff_eq, Option.some.injEq, Int.compare_eq_lt]
  have hle {x y : Float} {m n : Int} (hx : Canonical m x.toModel.unpack)
      (hy : Canonical n y.toModel.unpack) : x ≤ y ↔ m ≤ n := by
    refine decide_eq_true_iff.trans ?_
    change ((x.toModel.unpack.compare y.toModel.unpack).any Ordering.isLE) = true ↔ _
    rw [hx.compare hy, Option.any_some, Int.isLE_compare]
  have heq : (x == y) = (m == n) := by
    change (x.toModel.unpack.compare y.toModel.unpack == some .eq) = _
    rw [hx.compare hy, Bool.eq_iff_iff, beq_iff_eq, Option.some.injEq, Int.compare_eq_eq,
      beq_iff_eq]
  cases op <;> simp only [compareNumbers, Operation.holds, hlt hx hy, hlt hy hx, hle hx hy,
    hle hy hx, heq, bne]

theorem integerOfFloat_floatOfInteger (i : Int64) :
    integerOfFloat (floatOfInteger i) = i ↔ rounded i.toInt = i.toInt := by
  have hlow := i.le_toInt
  have hhigh := i.toInt_lt
  have hleast : leastInteger = -2 ^ 63 := rfl
  have hgreatest : greatestInteger = 2 ^ 63 - 1 := rfl
  rw [integerOfFloat, (canonical_floatOfInteger i).whole?, Option.bind_some, Decimal.integer?]
  split
  next h =>
    rw [Option.getD_some]
    constructor
    · intro heq
      rw [← Int64.toInt_ofInt_of_le (n := rounded i.toInt) (by omega) (by omega), heq]
    · intro heq
      rw [heq, Int64.ofInt_toInt]
  next h =>
    constructor
    · rintro rfl
      exact absurd (by decide) h
    · omega

/-- Comparing integer constants is comparing what they are rounded to. -/
theorem compare?_of_integer? (ha : a.integer? = some i) (hb : b.integer? = some j) :
    compare? op a b = some (op.holds (rounded i.toInt) (rounded j.toInt)) := by
  simp only [compare?, number?_of_integer? ha, number?_of_integer? hb]
  exact congrArg some (compareNumbers_eq (canonical_floatOfInteger i) (canonical_floatOfInteger j))

end Value

/-- Rounding keeps all comparisons of two integers exactly if it does not make them equal. -/
theorem Operation.holds_rounded_iff {a b : Int} :
    (∀ op : Operation, op.holds (rounded a) (rounded b) = op.holds a b) ↔
      (rounded a = rounded b → a = b) := by
  constructor
  · intro h heq
    simpa [holds, heq] using h .equal
  · intro h op
    have hab := @rounded_mono a b
    have hba := @rounded_mono b a
    have hlt : rounded a < rounded b ↔ a < b := by omega
    have hgt : rounded b < rounded a ↔ b < a := by omega
    have hle : rounded a ≤ rounded b ↔ a ≤ b := by omega
    have hge : rounded b ≤ rounded a ↔ b ≤ a := by omega
    have heq : (rounded a == rounded b) = (a == b) := by grind
    cases op <;> simp only [holds, hlt, hgt, hle, hge, heq, bne]

namespace Typing

open Value

variable {a b : Value} {i j : Int64}

/-- A point of integer constants is accepted, and each of its coordinates is rounded. -/
theorem point_of_integer? (ha : a.integer? = some i) (hb : b.integer? = some j) (area x y : Area) :
    point area (.constant a x) (.constant b y) = .ok ⟨.ipoint, some (.ipoint
      (integerOfFloat (floatOfInteger i)) (integerOfFloat (floatOfInteger j)))⟩ := by
  have hty {v : Value} {k : Int64} (hv : v.integer? = some k) : isList v.ty = false ∧
      (itemTy v.ty).coercesTo .real = true ∧ (itemTy v.ty).coercesTo .int = true ∧
      (itemTy v.ty).isUnknown = false := by
    cases v with
    | int | bool | enum => exact ⟨rfl, rfl, rfl, rfl⟩
    | _ => cases hv
  obtain ⟨hlist, hreal, hint, hknown⟩ := hty ha
  obtain ⟨hlist', hreal', hint', hknown'⟩ := hty hb
  have htype : Ty.pointType (itemTy a.ty) (itemTy b.ty) = .ok .ipoint := by
    simp [Ty.pointType, Ty.mergeNumeric, hint, hint', hknown, hknown', Except.map]
  have hconstant (v : Value) (z : Area) :
      (Expr.constant v z).ty = v.ty ∧ (Expr.constant v z).value? = some v := ⟨rfl, rfl⟩
  simp [point, requireItemCoercion, hconstant, hreal, hreal', htype, hlist, hlist',
    number?_of_integer? ha, number?_of_integer? hb, ofVertex, bind, Except.bind, pure, Except.pure]

/-- Of two integer constants all comparisons are exact exactly if rounding does not make different
integers equal.  Their point has exactly these coordinates, and each of them is given back, exactly
if rounding leaves them as they are.  It does so for at most 53 bits. -/
theorem exact_of_integers_iff (ha : a.integer? = some i) (hb : b.integer? = some j) :
    ((∀ op : Operation, compare? op a b = some (op.holds i.toInt j.toInt)) ↔
      (rounded i.toInt = rounded j.toInt → i = j)) ∧
    (∀ area x y, point area (.constant a x) (.constant b y) =
        .ok ⟨.ipoint, some (.ipoint i j)⟩ ↔
      rounded i.toInt = i.toInt ∧ rounded j.toInt = j.toInt) ∧
    (coordinate? "x" (.ipoint i j) = some (.int i) ↔ rounded i.toInt = i.toInt) ∧
    (coordinate? "y" (.ipoint i j) = some (.int j) ↔ rounded j.toInt = j.toInt) ∧
    (i.toInt.natAbs ≤ 2 ^ 53 → rounded i.toInt = i.toInt) := by
  refine ⟨?_, ?_, ?_, ?_, rounded_eq_self⟩
  · simp only [compare?_of_integer? ha hb, Option.some.injEq, Operation.holds_rounded_iff,
      Int64.toInt_inj]
  · intro area x y
    rw [point_of_integer? ha hb]
    simp [integerOfFloat_floatOfInteger]
  · simp [coordinate?, integerOfFloat_floatOfInteger]
  · simp [coordinate?, integerOfFloat_floatOfInteger]

/-- Above `2 ^ 53` a difference of two is kept. -/
theorem exact_of_integers_iff_even :
    (int 9007199254740994).integer? = some 9007199254740994 ∧
    (Value.bool true).integer? = some 1 ∧
    ∀ op : Operation, compare? op (int 9007199254740994) (.bool true) =
      some (op.holds 9007199254740994 1) :=
  ⟨rfl, rfl, (exact_of_integers_iff (a := int 9007199254740994) (b := .bool true) rfl rfl).1.2
    (by decide +kernel)⟩

end Typing

/-- Different integers are found equal. -/
theorem Program.equal_of_integers :
    ∃ p, Program.parse (Token.ofText "const a = 9007199254740993 == 9007199254740992;") = .ok p ∧
      ∃ q, p.analyze.outcome = .ok q ∧ ∃ e, q.identifiers.get? "a" = some e ∧
        (e.value?.map Value.text = some "true" ∧
          Operation.equal.holds 9007199254740993 9007199254740992 = false) := by
  decide +kernel

end Diagram
