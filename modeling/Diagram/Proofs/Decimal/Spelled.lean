import Diagram.Formula.OfExpr
import Diagram.Proofs.Decimal.Rounded
import Diagram.Proofs.Program.Items
import Diagram.Typing.Program

/-!
# The digits of whole numbers

Up to `2 ^ 53` the next floating-point numbers are so near that no other whole number reads back as
a given one.  So the fewest digits that do are those of the number itself, without zeros at the end,
and positional notation writes these zeros again.

Main statement: `Formula.ofExpr_integer`.
-/

namespace Diagram

namespace Decimal

/-- The decimals that are a natural number and have no fraction to write. -/
def IsWhole (n : Nat) (d : Decimal) : Prop :=
  0 ≤ d.exp ∧ d.coeff * 10 ^ d.exp.toNat = n

variable {n e : Nat}

/-- Of all natural numbers only `n` reads back as `n`, if half a unit is less than `1`. -/
theorem readsBack_iff {c t : Nat} (hn : 0 < n) :
    readsBack (n * 2 ^ e) (-e) ⟨c, t⟩ ↔ c * 10 ^ t = n := by
  have hpos := Nat.two_pow_pos e
  have hlow : (-(e : Int) - 2).toNat = 0 := by omega
  have hhigh : (-(-(e : Int) - 2)).toNat = e + 2 := by omega
  have hscale : c * 10 ^ t * 2 ^ (e + 2) = 4 * (c * 10 ^ t * 2 ^ e) := by
    rw [Nat.pow_add, ← Nat.mul_assoc, Nat.mul_comm]
  have hmantissa : 0 < n * 2 ^ e := Nat.mul_pos hn hpos
  rw [← Nat.mul_left_inj (Nat.ne_of_gt hpos)]
  simp only [readsBack, ratio, compareRatio, interval, hlow, hhigh, Nat.pow_eq, Int.toNat_natCast,
    Int.toNat_zero, Int.neg_zero, Int.toNat_neg_natCast, Nat.pow_zero, Nat.mul_one, Nat.one_mul,
    hscale, Bool.and_eq_true, Bool.or_eq_true, beq_iff_eq, Nat.compare_eq_lt, Nat.compare_eq_eq]
  split <;> omega

theorem nearest?_eq {t : Nat} (hn : 0 < n) :
    nearest? (n * 2 ^ e) (-e) t = if 10 ^ t ∣ n then some ⟨n / 10 ^ t, t⟩ else none := by
  have hten : 0 < 10 ^ t := Nat.pow_pos (by decide)
  have hquotient : n * 2 ^ e / (10 ^ t * 2 ^ e) = n / 10 ^ t :=
    Nat.mul_div_mul_right _ _ (Nat.two_pow_pos e)
  have hbelow : readsBack (n * 2 ^ e) (-e) ⟨n / 10 ^ t, t⟩ = true ↔ 10 ^ t ∣ n :=
    (readsBack_iff hn).trans ⟨fun h => ⟨_, by rw [Nat.mul_comm, h]⟩, Nat.div_mul_cancel⟩
  have habove : ¬ readsBack (n * 2 ^ e) (-e) ⟨n / 10 ^ t + 1, t⟩ = true := fun h => by
    have hlt := Nat.lt_div_mul_add hten (a := n)
    rw [readsBack_iff hn, Nat.succ_mul] at h
    omega
  simp only [nearest?, ratio, Int.neg_neg, Int.toNat_natCast, Int.toNat_neg_natCast, Nat.pow_eq,
    Nat.pow_zero, Nat.mul_one, hquotient, hbelow, habove, if_false, Bool.false_eq_true]

theorem isWhole_search (hn : 0 < n) {fuel i p : Nat} (hi : i ≤ p) (hfuel : p < i + fuel) :
    IsWhole n (search (n * 2 ^ e) (-e) p fuel i) := by
  induction fuel generalizing i with
  | zero => omega
  | succ fuel ih =>
    have ht : (p : Int) - i = (p - i : Nat) := by omega
    rw [search, ht, nearest?_eq hn]
    split
    next h => exact ⟨Int.natCast_nonneg _, Nat.div_mul_cancel h⟩
    next h =>
      have hne : i ≠ p := fun heq => h (by simp [heq])
      exact ih (i := i + 1) (by omega) (by omega)

theorem isWhole_dropZeros {d : Decimal} (fuel : Nat) (h : IsWhole n d) :
    IsWhole n (dropZeros fuel d) := by
  induction fuel generalizing d with
  | zero => exact h
  | succ fuel ih =>
    rw [dropZeros]
    split
    next hzero =>
      obtain ⟨hexp, hvalue⟩ := h
      refine ih ⟨Int.add_nonneg hexp (by decide), ?_⟩
      rw [← hvalue, Int.toNat_add hexp (by decide), Nat.pow_add, Nat.mul_comm (10 ^ _),
        ← Nat.mul_assoc]
      exact congrArg (· * _) (Nat.div_mul_cancel (Nat.dvd_of_mod_eq_zero hzero))
    next => exact h

theorem toDigits_mul_pow (hn : 0 < n) (k : Nat) :
    Nat.toDigits 10 n ++ List.replicate k '0' = Nat.toDigits 10 (n * 10 ^ k) := by
  induction k with
  | zero => simp
  | succ k ih =>
    have hpos : 0 < n * 10 ^ k := Nat.mul_pos hn (Nat.pow_pos (by decide))
    have happend := Nat.toDigits_append_toDigits (b := 10) (d := 0) (by decide) hpos (by decide)
    rw [List.replicate_succ', ← List.append_assoc, ih, Nat.pow_succ, ← Nat.mul_assoc,
      Nat.mul_comm _ 10]
    exact happend

theorem positionalText_of_isWhole {d : Decimal} (hn : 0 < n) (h : IsWhole n d) :
    d.positionalText = Nat.toDigits 10 n := by
  obtain ⟨hexp, hvalue⟩ := h
  have hcoeff : 0 < d.coeff := Nat.pos_of_mul_pos_right (hvalue ▸ hn)
  rw [positionalText, if_pos hexp, if_neg (Nat.ne_of_gt hcoeff), digits,
    toDigits_mul_pow hcoeff, hvalue]

theorem positionalText_shortest (hn : 0 < n) (hlt : n < 2 ^ 53) :
    (shortest (n * 2 ^ e) (-e)).positionalText = Nat.toDigits 10 n := by
  have hpos := Nat.two_pow_pos e
  have hplace : place (ratio (n * 2 ^ e) 0 (-e)) = digitCount n := by
    have hle : 2 ^ e ≤ n * 2 ^ e := Nat.le_mul_of_pos_left _ hn
    simp [place, ratio, hle, Nat.mul_div_cancel _ hpos]
  have hcount : digitCount n ≤ 17 :=
    (Nat.length_toDigits_le_iff (by decide) (by decide)).2 (Nat.lt_trans hlt (by decide))
  rw [shortest, if_neg (Nat.ne_of_gt (Nat.mul_pos hn hpos)), hplace]
  refine positionalText_of_isWhole hn (isWhole_dropZeros 18 ?_)
  exact isWhole_search (i := 1) hn Nat.length_toDigits_pos (by omega)

theorem toString_eq (z : Int) :
    toString z = String.ofList (if z < 0 then '-' :: Nat.toDigits 10 z.natAbs
      else Nat.toDigits 10 z.natAbs) := by
  cases z with
  | ofNat n => rfl
  | negSucc n =>
    rw [if_pos (Int.negSucc_lt_zero n)]
    change String.ofList ['-'] ++ String.ofList (Nat.toDigits 10 (n + 1)) = _
    rw [← String.ofList_append]
    rfl

/-- Whole numbers of at most 53 bits are written with their own digits. -/
theorem text_ofInt {z : Int} (h : z.natAbs ≤ 2 ^ 53) :
    Layout.positional.text (Float.ofInt z) = toString z := by
  have hcanonical := canonical_ofInt (n := z) (by omega)
  rw [rounded_eq_self h] at hcanonical
  rcases hcanonical.ofFloat rfl with ⟨rfl, -⟩ | ⟨m, k, hlow, hhigh, -, hm, hfloat⟩
  · decide +kernel
  rcases Nat.lt_or_eq_of_le h with hlt | heq
  · obtain ⟨hk, rfl⟩ := mantissa_eq hlow hm hlt
    have hpos : 0 < z.natAbs := Nat.pos_of_ne_zero fun hz => by simp [hz] at hlow
    rw [Layout.text, hfloat, show (k : Int) - 52 = -(52 - k : Nat) by omega]
    simp only [Layout.usesExponent, Layout.positional, Bool.false_eq_true, and_false, if_false,
      positionalText_shortest hpos hlt]
    rw [toString_eq]
    simp
  · rcases Int.natAbs_eq z with hz | hz <;> rw [hz, heq] <;> decide +kernel

end Decimal

namespace Formula

/-- Integer constants of at most 53 bits are written with their own digits. -/
theorem ofExpr_integer {n : Int64} (h : n.toInt.natAbs ≤ 2 ^ 53) (sigs : Signatures) (area : Area) :
    ∃ f, ofExpr sigs (.constant (.int n) area) = .ok f ∧ f.text = toString n.toInt := by
  obtain ⟨s, m, q, hfloat⟩ : ∃ s m q, Decimal.Binary.ofFloat (Float.ofInt n.toInt) =
      .finite s m q := by
    rcases (Decimal.canonical_ofInt (n := n.toInt) (by omega)).ofFloat rfl with
      ⟨-, s, hs⟩ | ⟨m, k, -, -, -, -, hm⟩
    · exact ⟨s, _, _, hs⟩
    · exact ⟨_, m, _, hm⟩
  have hmarkup : decimalMarkup (Float.ofInt n.toInt) = [.run (toString n.toInt)] := by
    rw [decimalMarkup, hfloat, ← Decimal.text_ofInt h]
  refine ⟨decimal (Value.floatOfInteger n), rfl, ?_⟩
  change Markup.text (decimalMarkup (Float.ofInt n.toInt)) = _
  rw [hmarkup]
  change String.ofList ((toString n.toInt).toList ++ []) = _
  rw [List.append_nil, String.ofList_toList]

/-- The greatest of them. -/
theorem ofExpr_integer_greatest :
    ((2 : Int64) ^ 53).toInt.natAbs ≤ 2 ^ 53 ∧
      ∃ f, ofExpr .empty (.constant (.int (2 ^ 53)) .nowhere) = .ok f ∧
        f.text = "9007199254740992" :=
  ⟨by decide, ofExpr_integer (by decide) .empty .nowhere⟩

end Formula

/-- The next integer loses its last digit. -/
theorem Program.text_of_integer :
    ∃ p, Program.parse (Token.ofText "let a = 9007199254740993;") = .ok p ∧
      ∃ q, p.analyze.outcome = .ok q ∧ ∃ e, q.identifiers.get? "a" = some e ∧
        e.value?.bind Value.integer? = some 9007199254740993 ∧
        ∃ f, Formula.ofExpr q.signatures e = .ok f ∧ f.text = "9007199254740992" := by
  decide +kernel

end Diagram
