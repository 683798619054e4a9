import Diagram.Proofs.Document.Bindings
import Diagram.Proofs.Formula.Preserved
import Diagram.Proofs.Value.Exactness
import Mathlib.Data.Rat.Cast.Order
import Mathlib.Data.Set.Basic

/-!
# Stepped ranges

The calculator lists a stepped range up to its end, so the end of an exclusive range is written
as one less.  This leaves out the end of a range that ascends.  A range that descends passes it.

Main statement: `ofExpr_steppedRange`.
-/

namespace Diagram

theorem Decimal.Canonical.rationalOf {n : Int} {x : Float} (h : Canonical n x.toModel.unpack) :
    rationalOf x = some (n : Rat) := by
  rcases h.ofFloat rfl with ⟨rfl, s, hx⟩ | ⟨m, k, -, -, -, hm, hx⟩
  · cases s <;> simp [Diagram.rationalOf, hx, Binary.rational?]
  · have hscaled : (m : Rat) * 2 ^ k = n.natAbs * 2 ^ 52 := by exact_mod_cast hm
    have hworth : (if (0 : Int) ≤ k - 52 then (m : Rat) * 2 ^ ((k : Int) - 52).toNat
        else m / 2 ^ (-((k : Int) - 52)).toNat) = n.natAbs := by
      split
      · refine mul_right_cancel₀ (b := (2 : Rat) ^ 52) (by simp) ?_
        rw [mul_assoc, ← pow_add, ← hscaled, show ((k : Int) - 52).toNat + 52 = k by omega]
      · rw [div_eq_iff (by simp)]
        refine mul_right_cancel₀ (b := (2 : Rat) ^ k) (by simp) ?_
        rw [hscaled, mul_assoc, ← pow_add, show (-((k : Int) - 52)).toNat + k = 52 by omega]
    simp only [Diagram.rationalOf, hx, Decimal.Binary.rational?, hworth, Option.some.injEq,
      decide_eq_true_eq]
    rw [Nat.cast_natAbs]
    split
    next hneg => rw [abs_of_neg hneg, Int.cast_neg, neg_neg]
    next hneg => rw [abs_of_nonneg (not_lt.1 hneg)]

namespace Formula

/-- The integers that start with two of them and go on in the same steps. -/
def progression (x y : Int) : Set Int :=
  {m | ∃ k : Nat, m = x + k * (y - x)}

/-- The members of a progression that come before an integer. -/
def before (x y z : Int) : Set Int :=
  {m ∈ progression x y | if x < y then m < z else z < m}

/-- The members of a progression that a calculator lists, up to what the end is worth. -/
def members (value : Formula → Option Rat) (x y : Int) (stop : Formula) : Set Int :=
  {m ∈ progression x y | ∃ e, value stop = some e ∧ if x < y then (m : Rat) ≤ e else e ≤ m}

/-- How a calculator works out the end of a range. -/
structure Subtracts (value : Formula → Option Rat) : Prop where
  decimal : ∀ x, value (decimal x) = rationalOf x
  paren : ∀ f, value (bracketed .paren f) = value f
  minus : ∀ f g, value (joined .minus f g) = do return (← value f) - (← value g)

/-- The integer at the end of a range: an integer constant of at most 53 bits, or what a formula
is worth.  A constant with more bits is rounded. -/
inductive EndsAt (value : Formula → Option Rat) (last : Expr) (f : Formula) (z : Int) : Prop
  | constant {v : Value} {i : Int64} (hvalue : last.value? = some v)
      (hinteger : v.integer? = some i) (hz : i.toInt = z) (hlow : -2 ^ 53 < z) (hhigh : z ≤ 2 ^ 53)
  | formula (hvalue : last.value? = none) (hz : value f = some (z : Rat))

variable {value : Formula → Option Rat} {x y z : Int}

/-- If the end is worth one less than an integer, then the calculator lists the members before this
integer unless the progression descends and meets it or what follows it. -/
theorem members_eq_before_iff {stop : Formula} (h : value stop = some ((z - 1 : Int) : Rat)) :
    members value x y stop = before x y z ↔
      x < y ∨ (z ∉ progression x y ∧ z - 1 ∉ progression x y) := by
  have hmem : ∀ m, m ∈ members value x y stop ↔
      m ∈ progression x y ∧ if x < y then m < z else z - 1 ≤ m := by
    intro m
    simp only [members, Set.mem_ofPred_eq, h, Option.some.injEq, exists_eq_left']
    split <;> simp only [Int.cast_le, Int.le_sub_one_iff]
  simp only [Set.ext_iff, hmem, before, Set.mem_ofPred_eq, and_congr_right_iff]
  by_cases hascends : x < y
  · simp only [hascends, if_true, true_or, implies_true]
  · simp only [hascends, if_false, false_or]
    constructor
    · intro h
      exact ⟨fun hz => absurd ((h z hz).1 (by omega)) (by omega),
        fun hz => absurd ((h _ hz).1 le_rfl) (by omega)⟩
    · rintro ⟨hz, hpred⟩ m hm
      have hne : m ≠ z := fun heq => hz (heq ▸ hm)
      have hne' : m ≠ z - 1 := fun heq => hpred (heq ▸ hm)
      omega

/-- The end of an exclusive range is worth one less than the integer that it ends at. -/
theorem value_rangeEnd (hvalue : Subtracts value) {last : Expr} {f : Formula}
    (h : EndsAt value last f z) :
    value (rangeEnd .exclusiveRange last f) = some ((z - 1 : Int) : Rat) := by
  cases h with
  | constant hv hi hz hlow hhigh =>
    subst hz
    have hcanonical := Value.canonical_floatOfInteger ‹Int64›
    rw [Decimal.rounded_eq_self (by omega)] at hcanonical
    have hone := Decimal.canonical_sub_one hcanonical rfl (by omega)
    rw [Decimal.rounded_eq_self (by omega)] at hone
    simp only [rangeEnd, hv, Option.bind_some, Value.number?_of_integer? hi, if_true,
      hvalue.decimal, hone.rationalOf]
  | formula hv hz =>
    simp [rangeEnd, hv, hvalue.paren, hvalue.minus, hvalue.decimal, hz, rationalOf_one]

/-- A stepped exclusive range becomes a list with an end.  For every calculator that takes one from
the end, whether this is a constant or not, it has the members before the end if it ascends.  If it
descends, then it has these members exactly if the progression meets neither the end nor the integer
below it. -/
theorem ofExpr_steppedRange {sigs : Signatures} {a b c : Expr} {f g e : Formula} (info : Info)
    (hf : ofExpr sigs a = .ok f) (hg : ofExpr sigs b = .ok g) (he : ofExpr sigs c = .ok e) :
    ∃ stop, ofExpr sigs (.operator info .exclusiveRange [a, b, c]) =
        .ok (list [f, ellipsis g (some stop)]) ∧
      ∀ value, Subtracts value → ∀ z, EndsAt value c e z → ∀ x y,
        (members value x y stop = before x y z ↔
          x < y ∨ (z ∉ progression x y ∧ z - 1 ∉ progression x y)) := by
  refine ⟨rangeEnd .exclusiveRange c e, ?_, fun value hvalue z hz x y =>
    members_eq_before_iff (value_rangeEnd hvalue hz)⟩
  obtain ⟨i, hi, rfl⟩ := ofExpr_eq_ok_iff.1 hf
  obtain ⟨j, hj, rfl⟩ := ofExpr_eq_ok_iff.1 hg
  obtain ⟨k, hk, rfl⟩ := ofExpr_eq_ok_iff.1 he
  refine ofExpr_eq_ok_iff.2 ⟨.plain _, ?_, rfl⟩
  simp [clause, ofExprs, hi, hj, hk, range, rangeItems, list, bind, Except.bind, pure,
    Except.pure]

/-- The range `[0, 2 .. 5]`. -/
theorem ofExpr_steppedRange_ascending :
    let c (i : Int64) : Expr := .constant (.int i) .nowhere
    (∀ i, ofExpr .empty (c i) = .ok (decimal (Value.floatOfInteger i))) ∧
    Subtracts (Formula.value none fun _ => 0) ∧
    ∃ f g stop, ofExpr .empty (.operator ⟨.list .int, .nowhere⟩ .exclusiveRange [c 0, c 2, c 5]) =
        .ok (list [f, ellipsis g (some stop)]) ∧
      members (Formula.value none fun _ => 0) 0 2 stop = before 0 2 5 := by
  intro c
  have hc : ∀ i, ofExpr .empty (c i) = .ok (decimal (Value.floatOfInteger i)) := fun _ => rfl
  have hvalue : Subtracts (Formula.value none fun _ => 0) :=
    ⟨fun _ => rfl, fun _ => rfl, fun _ _ => rfl⟩
  obtain ⟨stop, hrange, hmembers⟩ :=
    ofExpr_steppedRange ⟨.list .int, .nowhere⟩ (hc 0) (hc 2) (hc 5)
  have hends : EndsAt (Formula.value none fun _ => 0) (c 5) (decimal (Value.floatOfInteger 5)) 5 :=
    .constant rfl rfl (by decide) (by decide) (by decide)
  exact ⟨hc, hvalue, _, _, stop, hrange, (hmembers _ hvalue 5 hends 0 2).2 (.inl (by decide))⟩

/-- The range `[10, 8 .. 0]` has its end. -/
theorem ofExpr_steppedRange_descending :
    let c (i : Int64) : Expr := .constant (.int i) .nowhere
    ∃ f g stop, ofExpr .empty (.operator ⟨.list .int, .nowhere⟩ .exclusiveRange [c 10, c 8, c 0]) =
        .ok (list [f, ellipsis g (some stop)]) ∧
      (list [f, ellipsis g (some stop)]).text = "\\left[10,8...-1\\right]" ∧
      ∀ value, Subtracts value → 0 ∈ members value 10 8 stop ∧ 0 ∉ before 10 8 0 := by
  intro c
  have hend (value : Formula → Option Rat) : EndsAt value (c 0) (decimal (Value.floatOfInteger 0)) 0 :=
    .constant rfl rfl (by decide) (by decide) (by decide)
  refine ⟨_, _, rangeEnd .exclusiveRange (c 0) (decimal (Value.floatOfInteger 0)), rfl,
    by decide +kernel, fun value hvalue => ⟨⟨⟨5, by decide⟩, _, value_rangeEnd hvalue (hend value),
      ?_⟩, fun h => ?_⟩⟩
  · rw [if_neg (by decide), Int.cast_le]
    decide
  · simpa using h.2

end Formula

end Diagram
