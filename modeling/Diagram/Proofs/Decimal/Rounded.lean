import Diagram.Value.Arithmetic
import Mathlib

/-!
# Whole numbers as floating-point numbers

A whole number becomes the nearest multiple of a power of two that leaves it 53 bits, and the even
one of two.  `rounded` is that whole number, and `Canonical n u` says that `u` is the form of the
whole number `n` that the operations on floating-point numbers take and give.  So conversion,
subtraction of one and comparison can be told from `rounded` alone.

Main statements: `canonical_ofInt`, `canonical_sub_one`, `Canonical.compare`, `Canonical.ofFloat`.
-/

namespace Diagram.Decimal

open Float.Model Float.Model.UnpackedFloat Format UnpackedFloat BitVec

/-- The natural number that is nearest to `n / d`; of two it is the even one. -/
def halfEven (n d : Nat) : Nat :=
  if 2 * (n % d) < d then n / d
  else if 2 * (n % d) = d then n / d + n / d % 2
  else n / d + 1

theorem halfEven_mul_right {n d c : Nat} (hc : 0 < c) :
    halfEven (n * c) (d * c) = halfEven n d := by
  have hlt : 2 * (n % d * c) < d * c ↔ 2 * (n % d) < d := by
    rw [← Nat.mul_assoc]
    exact Nat.mul_lt_mul_right hc
  have heq : 2 * (n % d * c) = d * c ↔ 2 * (n % d) = d := by
    rw [← Nat.mul_assoc]
    exact Nat.mul_left_inj (Nat.ne_of_gt hc)
  unfold halfEven
  simp only [Nat.mul_div_mul_right _ _ hc, Nat.mul_mod_mul_right, hlt, heq]

/-- Only the quotient matters. -/
theorem halfEven_eq {n d n' d' : Nat} (hd : 0 < d) (hd' : 0 < d') (h : n * d' = n' * d) :
    halfEven n d = halfEven n' d' := by
  rw [← halfEven_mul_right hd', h, Nat.mul_comm d, halfEven_mul_right hd]

theorem halfEven_one (n : Nat) : halfEven n 1 = n := by
  simp [halfEven, Nat.mod_one]

/-- What remains of a mantissa whose last bits are cut off. -/
theorem repeat_shiftRightOne (m n : Nat) :
    (n + 1).repeat ExtendedMantissa.shiftRightOne ⟨m, false, false⟩ =
      ⟨m / 2 ^ (n + 1), m / 2 ^ n % 2 != 0, m % 2 ^ n != 0⟩ := by
  induction n with
  | zero => simp [Nat.repeat, ExtendedMantissa.shiftRightOne, Nat.mod_one]
  | succ n ih =>
    rw [Nat.repeat, ih]
    simp only [ExtendedMantissa.shiftRightOne, ExtendedMantissa.mk.injEq, true_and]
    refine ⟨by rw [Nat.div_div_eq_div_mul, ← Nat.pow_succ], ?_⟩
    rw [Nat.mod_pow_succ]
    rcases Nat.mod_two_eq_zero_or_one (m / 2 ^ n) with h | h <;> simp [h]

theorem roundedMantissa_shiftRight (m n : Nat) :
    ((⟨m, false, false⟩ : ExtendedMantissa) >>> n).roundedMantissa = halfEven m (2 ^ n) := by
  change (n.repeat ExtendedMantissa.shiftRightOne ⟨m, false, false⟩).roundedMantissa = _
  cases n with
  | zero => simp [Nat.repeat, ExtendedMantissa.roundedMantissa, ExtendedMantissa.accuracy,
      Accuracy.roundToNearestEven, halfEven_one]
  | succ n =>
    have hmod := Nat.mod_pow_succ (b := 2) (k := n) (x := m)
    rw [repeat_shiftRightOne, halfEven, Nat.pow_succ 2 n, ← Nat.pow_succ, hmod]
    rcases Nat.mod_two_eq_zero_or_one (m / 2 ^ n) with h | h
    · rw [h, if_pos (by omega)]
      cases m % 2 ^ n != 0 <;> rfl
    · rw [h, if_neg (by omega)]
      by_cases hs : m % 2 ^ n = 0
      · rw [hs, if_pos (by omega)]
        rfl
      · rw [if_neg (by omega), bne_iff_ne.2 hs]
        rfl

theorem halfEven_bounds {m : Nat} (h : 52 ≤ m.log2) :
    2 ^ 52 ≤ halfEven m (2 ^ (m.log2 - 52)) ∧ halfEven m (2 ^ (m.log2 - 52)) ≤ 2 ^ 53 := by
  have hm : m ≠ 0 := by
    rintro rfl
    simp at h
  have hpos := Nat.two_pow_pos (m.log2 - 52)
  have hlow : 2 ^ 52 ≤ m / 2 ^ (m.log2 - 52) := by
    rw [Nat.le_div_iff_mul_le hpos, ← Nat.pow_add, Nat.add_sub_cancel' h]
    exact Nat.log2_self_le hm
  have hhigh : m / 2 ^ (m.log2 - 52) < 2 ^ 53 := by
    rw [Nat.div_lt_iff_lt_mul hpos, ← Nat.pow_add, show 53 + (m.log2 - 52) = m.log2 + 1 by omega]
    exact Nat.lt_log2_self
  unfold halfEven
  split
  · omega
  · split <;> omega

/-- Rounding of `± m · 2 ^ e`, if `m` has enough bits and `e` is not too small. -/
theorem roundWithAccuracy_eq {m : Nat} {e : Int} (s : Sign) (h : 52 ≤ m.log2)
    (he : -1074 ≤ e + (m.log2 - 52 : Nat)) :
    ∃ m' i hm, roundWithAccuracy binary64 s m e .exact =
        .finite s m' (e + (m.log2 - 52 : Nat) + (i : Nat)) hm ∧
      2 ^ 52 ≤ m' ∧ m' < 2 ^ 53 ∧ i ≤ 1 ∧ m' * 2 ^ i = halfEven m (2 ^ (m.log2 - 52)) := by
  obtain ⟨hlow, hhigh⟩ := halfEven_bounds h
  have hshift : (binary64.targetExponent (totalExponent m e) - e).toNat = m.log2 - 52 := by
    simp only [targetExponent, totalExponent, mantissaBits, minExponent]
    omega
  unfold roundWithAccuracy shiftToTargetExponent shiftToExponent
  obtain ⟨r, hr⟩ : ∃ r, halfEven m (2 ^ (m.log2 - 52)) = r := ⟨_, rfl⟩
  obtain ⟨e', he'⟩ : ∃ e', e + (m.log2 - 52 : Nat) = e' := ⟨_, rfl⟩
  simp only [hshift, ExtendedMantissa.ofMantissaAndAccuracy, roundedMantissa_shiftRight, hr, he']
  rw [hr] at hlow hhigh
  rcases Nat.lt_or_eq_of_le hhigh with hlt | rfl
  · have hlog : r.log2 = 52 := (Nat.log2_eq_iff (by omega)).2 ⟨hlow, hlt⟩
    have hnone : (binary64.targetExponent (totalExponent r e') - e').toNat = 0 := by
      simp only [targetExponent, totalExponent, mantissaBits, minExponent]
      omega
    refine ⟨r, 0, by omega, ?_, hlow, hlt, by omega, by omega⟩
    simp only [hnone]
    exact dif_neg (show r ≠ 0 by omega)
  · have hone : (binary64.targetExponent (totalExponent (2 ^ 53) e') - e').toNat = 1 := by
      simp only [targetExponent, totalExponent, mantissaBits, minExponent, Nat.log2_two_pow]
      omega
    refine ⟨2 ^ 52, 1, by omega, ?_, by omega, by omega, by omega, by omega⟩
    simp only [hone]
    exact dif_neg (show 2 ^ 53 / 2 ≠ 0 by decide)

theorem log2_mul_two_pow {n : Nat} (hn : n ≠ 0) (j : Nat) : (n * 2 ^ j).log2 = n.log2 + j := by
  refine (Nat.log2_eq_iff (Nat.mul_ne_zero hn (by simp))).2 ⟨?_, ?_⟩
  · rw [Nat.pow_add]
    exact Nat.mul_le_mul_right _ (Nat.log2_self_le hn)
  · rw [Nat.add_right_comm, Nat.pow_add]
    exact Nat.mul_lt_mul_of_pos_right Nat.lt_log2_self (Nat.two_pow_pos j)

/-- The natural number nearest to `n` among those with at most 53 bits before trailing zeros. -/
def roundedNat (n : Nat) : Nat :=
  halfEven n (2 ^ (n.log2 - 52)) * 2 ^ (n.log2 - 52)

theorem roundedNat_mul {n j : Nat} (h : 52 ≤ n.log2 + j) :
    halfEven (n * 2 ^ j) (2 ^ (n.log2 + j - 52)) * 2 ^ n.log2 = roundedNat n * 2 ^ 52 := by
  unfold roundedNat
  rcases Nat.le_total 52 n.log2 with hlog | hlog
  · have hquot : halfEven (n * 2 ^ j) (2 ^ (n.log2 + j - 52)) = halfEven n (2 ^ (n.log2 - 52)) := by
      rw [show n.log2 + j - 52 = n.log2 - 52 + j by omega, Nat.pow_add]
      exact halfEven_mul_right (Nat.two_pow_pos j)
    rw [hquot, Nat.mul_assoc, ← Nat.pow_add, Nat.sub_add_cancel hlog]
  · have hquot : halfEven (n * 2 ^ j) (2 ^ (n.log2 + j - 52)) = n * 2 ^ (52 - n.log2) := by
      rw [← halfEven_one (n * 2 ^ (52 - n.log2))]
      refine halfEven_eq (Nat.two_pow_pos _) Nat.one_pos ?_
      rw [Nat.mul_one, Nat.mul_assoc, ← Nat.pow_add]
      congr 2
      omega
    rw [hquot, Nat.sub_eq_zero_of_le hlog, Nat.pow_zero, halfEven_one, Nat.mul_one, Nat.mul_assoc,
      ← Nat.pow_add, Nat.sub_add_cancel hlog]

/-- The canonical form of a whole number. -/
inductive Canonical : Int → UnpackedFloat → Prop
  | zero (s : Sign) : Canonical 0 (.zero s)
  | finite (s : Sign) {m k n : Nat} (hm : 0 < m) (hlow : 2 ^ 52 ≤ m) (hhigh : m < 2 ^ 53)
      (hk : k ≤ 64) (hn : m * 2 ^ k = n * 2 ^ 52) :
      Canonical (s.apply n) (.finite s m (k - 52) hm)

theorem canonical_roundWithAccuracy (s : Sign) {n j : Nat} (hn : n ≠ 0) (hlt : n < 2 ^ 64)
    (h : 52 ≤ n.log2 + j) :
    Canonical (s.apply (roundedNat n)) (roundWithAccuracy binary64 s (n * 2 ^ j) (-j) .exact) := by
  have hlog := log2_mul_two_pow hn j
  obtain ⟨m, i, hm, heq, hlow, hhigh, hi, hr⟩ :=
    roundWithAccuracy_eq (e := -j) s (by omega : 52 ≤ (n * 2 ^ j).log2) (by omega)
  have hlt' : n.log2 < 64 := (Nat.log2_lt hn).2 hlt
  rw [hlog] at heq hr
  rw [heq, show (-j : Int) + (n.log2 + j - 52 : Nat) + i = (n.log2 + i : Nat) - 52 by omega]
  refine .finite s hm hlow hhigh (by omega) ?_
  rw [Nat.add_comm, Nat.pow_add, ← Nat.mul_assoc, hr, roundedNat_mul h]

theorem canonical_round (s : Sign) {n : Nat} (hn : n ≠ 0) (hlt : n < 2 ^ 64) (j : Nat) :
    Canonical (s.apply (roundedNat n)) (round binary64 s (n * 2 ^ j) (-j)) := by
  have hlog := log2_mul_two_pow hn j
  have hshift : (-(j : Int) - binary64.targetExponent (totalExponent (n * 2 ^ j) (-j))).toNat
      = 52 - n.log2 - j := by
    simp only [targetExponent, totalExponent, mantissaBits, minExponent]
    omega
  unfold UnpackedFloat.round decreaseExponent
  simp only [hshift, Nat.shiftLeft_eq, Nat.mul_assoc, ← Nat.pow_add]
  have hj : -(j : Int) - (52 - n.log2 - j : Nat) = -(j + (52 - n.log2 - j) : Nat) := by omega
  rw [hj]
  exact canonical_roundWithAccuracy s hn hlt (by omega)

/-- The whole number that a whole number becomes as a floating-point number. -/
def rounded (n : Int) : Int :=
  if n < 0 then -roundedNat n.natAbs else roundedNat n.natAbs

variable {n : Int}

theorem canonical_normalize (hlt : n.natAbs < 2 ^ 64) (j : Nat) :
    Canonical (rounded n) (normalize binary64 (n * 2 ^ j) (-j) .positive) := by
  have hcast (k : Nat) : (k : Int) * 2 ^ j = (k * 2 ^ j : Nat) := by simp
  have hpos : 0 < 2 ^ j := Nat.two_pow_pos j
  unfold UnpackedFloat.normalize rounded
  rcases Int.lt_trichotomy n 0 with h | rfl | h
  · obtain ⟨k, rfl⟩ : ∃ k : Nat, n = -k := ⟨n.natAbs, by omega⟩
    have hk : 0 < k * 2 ^ j := Nat.mul_pos (by omega) hpos
    rw [if_pos h, Int.neg_mul, hcast, Int.compare_eq_lt.2 (by omega)]
    simp only [Int.neg_neg, Int.toNat_natCast, Int.natAbs_neg, Int.natAbs_natCast] at hlt ⊢
    exact canonical_round .negative (by omega) hlt j
  · rw [Int.zero_mul]
    exact .zero .positive
  · obtain ⟨k, rfl⟩ : ∃ k : Nat, n = k := ⟨n.natAbs, by omega⟩
    have hk : 0 < k * 2 ^ j := Nat.mul_pos (by omega) hpos
    rw [hcast, Int.compare_eq_gt.2 (by omega)]
    exact canonical_round .positive (by omega) hlt j

theorem unpackSign_packComponents {spec : Format} {s : Sign} {e m} :
    Sign.ofBitVec (unpackSign (packComponents spec s e m)) = s := by
  have hbits : unpackSign (packComponents spec s e m) = s.toBitVec := by
    ext i hi
    obtain rfl : i = 0 := by omega
    simp [unpackSign, packComponents, getLsbD_append, getElem_append]
  rw [hbits]
  cases s <;> rfl

theorem toNat_one_append {w : Nat} (b : BitVec w) : (1#1 ++ b).toNat = 2 ^ w + b.toNat := by
  rw [toNat_append, ← Nat.shiftLeft_add_eq_or_of_lt b.isLt]
  simp [Nat.shiftLeft_eq]

variable {u : UnpackedFloat}

theorem Canonical.unpack_pack (h : Canonical n u) :
    (pack u).unpack = u := by
  cases h with
  | zero s => cases s <;> rfl
  | @finite s m k n hm hlow hhigh hk hn =>
    have hlog : m.log2 = 52 := (Nat.log2_eq_iff (by omega)).2 ⟨hlow, hhigh⟩
    have hpack : UnpackedFloat.pack binary64 (.finite s m (k - 52) hm) =
        packComponents binary64 s (BitVec.ofNat _ (k + 1023)) (BitVec.ofNat _ m) := by
      have hbiased : ((k : Int) - 52 + binary64.exponentBias + (52 : Nat)).toNat = k + 1023 := by
        simp only [exponentBias]
        omega
      simp only [UnpackedFloat.pack, hbiased, hlog]
      exact (if_neg (by omega)).trans (if_pos rfl)
    unfold Float.Model.unpack Float.Model.pack
    simp only [hpack, UnpackedFloat.unpack, unpackMantissa_packComponents,
      unpackExponent_packComponents, unpackSign_packComponents]
    have hexponent : (BitVec.ofNat 11 (k + 1023)).toNat = k + 1023 := by
      simp only [BitVec.toNat_ofNat]
      omega
    have hne (b : BitVec 11) (hb : b.toNat ≠ k + 1023) : BitVec.ofNat 11 (k + 1023) ≠ b := fun h =>
      hb (h ▸ hexponent)
    have hmantissa : (1#1 ++ BitVec.ofNat 52 m).toNat = m := by
      rw [toNat_one_append, BitVec.toNat_ofNat]
      omega
    rw [if_neg (hne _ (by simp; omega)), if_neg (hne _ (by simp))]
    have hunbiased : ((k + 1023 : Nat) : Int) - (binary64.exponentBias + (52 : Nat)) = k - 52 := by
      simp only [exponentBias]
      omega
    simp only [hmantissa, hexponent, hunbiased]

/-- A floating-point number is taken apart in the same way by both. -/
def Binary.ofUnpacked : UnpackedFloat → Binary
  | .notANumber => .nan
  | .infinity s => .infinite (s == .negative)
  | .zero s => .finite (s == .negative) 0 leastExponent
  | .finite s m e _ => .finite (s == .negative) m e

theorem ofFloat_eq (x : Float) : Binary.ofFloat x = .ofUnpacked x.toModel.unpack := by
  obtain ⟨b, hb⟩ : ∃ b : BitVec binary64.numBits, x.toModel.toBits.toBitVec = b := ⟨_, rfl⟩
  have hmantissa : b.toNat % 2 ^ 52 = (unpackMantissa b).toNat := by
    simp [unpackMantissa, extractLsb_toNat]
  have hexponent : b.toNat / 2 ^ 52 % 2 ^ 11 = (unpackExponent b).toNat := by
    simp [unpackExponent, extractLsb_toNat, Nat.shiftRight_eq_div_pow]
  have hsign : (b.toNat / 2 ^ 63 == 1) = (Sign.ofBitVec (unpackSign b) == .negative) := by
    have hbit : (unpackSign b).toNat = b.toNat / 2 ^ 63 := by
      have hlt : b.toNat < 2 ^ 64 := b.isLt
      simp only [unpackSign, toNat_cast, extractLsb_toNat, Nat.shiftRight_eq_div_pow]
      omega
    have hcases : ∀ v : BitVec 1, (v.toNat == 1) = (Sign.ofBitVec v == .negative) := by decide
    rw [← hcases, hbit]
  have hbits : x.toBits.toNat = b.toNat := by
    rw [← hb]
    rfl
  unfold Float.Model.unpack UnpackedFloat.unpack Binary.ofFloat
  simp only [hbits, hb, Nat.pow_eq, hmantissa, hexponent, hsign]
  have hfull : unpackExponent b = -1#_ ↔ (unpackExponent b).toNat = 2047 := by
    rw [← toNat_inj]
    rfl
  have hnone : unpackExponent b = 0#_ ↔ (unpackExponent b).toNat = 0 := by
    rw [← toNat_inj]
    rfl
  have hzero : unpackMantissa b = 0#_ ↔ (unpackMantissa b).toNat = 0 := by
    rw [← toNat_inj]
    rfl
  have hmin : Binary.leastExponent = -1074 := rfl
  have hbias : binary64.exponentBias = 1023 := rfl
  simp only [hfull, hnone, hzero, toNat_one_append, hmin, hbias]
  split
  · split <;> rfl
  · split
    · split
      next h => rw [h]; rfl
      next => simp [Binary.ofUnpacked, *]
    · simp only [Binary.ofUnpacked, Binary.finite.injEq, true_and]
      omega

theorem Canonical.ofFloat {x : Float} (h : Canonical n u) (hx : x.toModel.unpack = u) :
    (n = 0 ∧ ∃ s, Binary.ofFloat x = .finite s 0 Binary.leastExponent) ∨
    ∃ m k : Nat, 2 ^ 52 ≤ m ∧ m < 2 ^ 53 ∧ k ≤ 64 ∧ m * 2 ^ k = n.natAbs * 2 ^ 52 ∧
      Binary.ofFloat x = .finite (decide (n < 0)) m (k - 52) := by
  rw [ofFloat_eq, hx]
  cases h with
  | zero s => exact .inl ⟨rfl, _, rfl⟩
  | @finite s m k n hm hlow hhigh hk hn =>
    refine .inr ⟨m, k, hlow, hhigh, hk, ?_, ?_⟩
    · cases s <;> simpa [Sign.apply] using hn
    · have hpos : 0 < n := Nat.pos_of_mul_pos_right (hn ▸ Nat.mul_pos hm (Nat.two_pow_pos k))
      have hsign : (s == .negative) = decide (s.apply n < 0) := by
        cases s with
        | negative => exact (decide_eq_true (show -(n : Int) < 0 by omega)).symm
        | positive => exact (decide_eq_false (show ¬ (n : Int) < 0 by omega)).symm
      rw [← hsign]
      rfl

theorem Canonical.neg (h : Canonical n u) : Canonical (-n) u.neg := by
  cases h with
  | zero s => exact .zero (-s)
  | @finite s m k n hm hlow hhigh hk hmul =>
    have hs : -s.apply n = (-s).apply n := by
      cases s
      · exact Int.neg_neg _
      · rfl
    rw [hs]
    exact .finite (-s) hm hlow hhigh hk hmul

theorem roundedNat_eq_self {n : Nat} (h : n ≤ 2 ^ 53) : roundedNat n = n := by
  rcases Nat.lt_or_eq_of_le h with hlt | rfl
  · have hlog : n.log2 - 52 = 0 := by
      by_cases hn : n = 0
      · simp [hn]
      · have := (Nat.log2_lt hn).2 hlt
        omega
    simp [roundedNat, hlog, halfEven_one]
  · decide

theorem rounded_eq_self (h : n.natAbs ≤ 2 ^ 53) : rounded n = n := by
  rw [rounded, roundedNat_eq_self h]
  split <;> omega

theorem mantissa_eq {m k n : Nat} (hlow : 2 ^ 52 ≤ m) (h : m * 2 ^ k = n * 2 ^ 52)
    (hn : n < 2 ^ 53) : k ≤ 52 ∧ m = n * 2 ^ (52 - k) := by
  have hk : k ≤ 52 := by
    refine Nat.le_of_lt_succ (Nat.pow_lt_pow_iff_right (a := 2) (by omega) |>.1 ?_)
    have := Nat.mul_le_mul_right (2 ^ k) hlow
    omega
  refine ⟨hk, Nat.eq_of_mul_eq_mul_right (Nat.two_pow_pos k) ?_⟩
  rw [h, Nat.mul_assoc, ← Nat.pow_add, Nat.sub_add_cancel hk]

theorem canonical_ofNat {n : Nat} (hn : n < 2 ^ 64) :
    Canonical (rounded n) (Float.ofNat n).toModel.unpack := by
  by_cases hzero : n = 0
  · subst hzero
    exact .zero .positive
  have hrounded : rounded n = roundedNat n := if_neg (by omega)
  by_cases hlt : n < 2 ^ 53
  · have hcanonical := canonical_normalize (n := n) (by simpa using hn) 0
    rw [hrounded, roundedNat_eq_self (by omega)] at hcanonical
    simp only [Int.pow_zero, Int.mul_one, Int.natCast_zero, Int.neg_zero] at hcanonical
    have hfloat : (Float.ofNat n).toModel = pack (mul binary64
        (pack (normalize binary64 n 0 .positive)).unpack
        (.finite .positive (2 ^ 52) (-52) (by decide))) := by
      have hsmall : n.toUInt64.toNat = n := by simp; omega
      have hof : Float.ofNat n = n.toUInt64.toFloat * Float.ofBits 0x3FF0000000000000 :=
        dif_pos ⟨hlt, by omega⟩
      rw [hof]
      change pack (mul binary64
        (pack (normalize binary64 n.toUInt64.toNat 0 .positive)).unpack _) = _
      rw [hsmall]
      rfl
    rw [hfloat, hcanonical.unpack_pack]
    generalize normalize binary64 n 0 .positive = u at hcanonical
    suffices hmul : Canonical (rounded n) (mul binary64 u
        (.finite .positive (2 ^ 52) (-52) (by decide))) by
      rw [hmul.unpack_pack]
      exact hmul
    generalize hx : (n : Int) = x at hcanonical
    cases hcanonical with
    | zero => omega
    | @finite s m k n' hm hlow hhigh hk hmul =>
      obtain ⟨rfl, rfl⟩ : s = .positive ∧ n' = n := by
        cases s <;> simp only [Sign.apply] at hx <;> constructor <;> first | rfl | omega
      obtain ⟨hk', rfl⟩ := mantissa_eq hlow hmul hlt
      change Canonical _ (roundWithAccuracy binary64 .positive (n' * 2 ^ (52 - k) * 2 ^ 52)
        (k - 52 + -52) .exact)
      rw [← hx, hrounded, Nat.mul_assoc, ← Nat.pow_add,
        show (k : Int) - 52 + -52 = -(52 - k + 52 : Nat) by omega]
      exact canonical_roundWithAccuracy .positive hzero hn (by omega)
  · have hfloat : (Float.ofNat n).toModel = pack (roundWithAccuracy binary64
        .positive (n * 2 ^ 53) (-(53 : Nat)) .exact) := by
      have hof : Float.ofNat n = .ofModel (.ofScientific n 0) := dif_neg (by omega)
      have hbits : (0 : Int) ≤ 2 ^ binary64.exponentBits := by decide
      rw [hof]
      change pack (ofScientific binary64 n 0) = _
      unfold UnpackedFloat.ofScientific
      rw [dif_neg hzero, if_neg (by decide), if_neg (by omega), if_pos (by decide)]
      change pack
        (roundWithAccuracy binary64 .positive (n <<< 53 * 1) (-(53 : Nat) + 0) .exact)
        = _
      rw [Nat.shiftLeft_eq, Nat.mul_one, Int.add_zero]
    have hcanonical := canonical_roundWithAccuracy .positive hzero hn (j := 53) (by omega)
    rw [hfloat, hcanonical.unpack_pack]
    exact hcanonical

theorem canonical_ofInt (hn : n.natAbs < 2 ^ 64) :
    Canonical (rounded n) (Float.ofInt n).toModel.unpack := by
  cases n with
  | ofNat n => exact canonical_ofNat hn
  | negSucc n =>
    have hcanonical := (canonical_ofNat (n := n + 1) hn).neg
    have hneg : rounded (.negSucc n) = -rounded (n + 1 : Nat) := by
      simp only [rounded, Int.negSucc_lt_zero, if_true, Int.natAbs_negSucc, Int.natAbs_natCast]
      rw [if_neg (by omega)]
    rw [hneg]
    change Canonical _ (pack (neg (Float.ofNat (n + 1)).toModel.unpack)).unpack
    rw [hcanonical.unpack_pack]
    exact hcanonical

theorem canonical_sub_one {x : Float} (h : Canonical n u) (hx : x.toModel.unpack = u)
    (hn : n.natAbs < 2 ^ 63) :
    Canonical (rounded (n - 1)) (x - 1).toModel.unpack := by
  have hone : (1 : Float).toModel.unpack = .finite .positive (2 ^ 52) (-52) (by decide) := rfl
  change Canonical _ (pack (sub _ _ (1 : Float).toModel.unpack)).unpack
  rw [hone, hx]
  suffices hsub : Canonical (rounded (n - 1)) (sub binary64 u
      (.finite .positive (2 ^ 52) (-52) (by decide))) by
    rw [hsub.unpack_pack]
    exact hsub
  cases h with
  | zero s =>
    exact .finite .negative (k := 0) (n := 1) (by decide) (by decide) (by decide) (by decide)
      (by decide)
  | @finite s m k n hm hlow hhigh hk hmul =>
    have hmin : min ((k : Int) - 52) (-52) = -52 := by omega
    have hshift : ((k : Int) - 52 - -52).toNat = k := by omega
    unfold UnpackedFloat.sub decreaseExponent
    have hself : ((-52 : Int) - -52).toNat = 0 := rfl
    simp only [hmin, hshift, hself, Nat.shiftLeft_eq, hmul]
    have hmantissa : s.apply (n * 2 ^ 52 : Nat) - Sign.positive.apply (2 ^ 52 * 2 ^ 0 : Nat) =
        (s.apply n - 1) * 2 ^ 52 := by
      cases s <;> simp only [Sign.apply] <;> omega
    rw [hmantissa]
    exact canonical_normalize (by omega) 52

theorem pos_of_mul {m k n : Nat} (hm : 0 < m) (h : m * 2 ^ k = n * 2 ^ 52) : 0 < n :=
  Nat.pos_of_mul_pos_right (h ▸ Nat.mul_pos hm (Nat.two_pow_pos k))

/-- Canonical forms are compared first by their exponents. -/
theorem compare_of_mul {m k n m' k' n' : Nat} (hlow : 2 ^ 52 ≤ m) (hhigh : m < 2 ^ 53)
    (hlow' : 2 ^ 52 ≤ m') (hhigh' : m' < 2 ^ 53) (h : m * 2 ^ k = n * 2 ^ 52)
    (h' : m' * 2 ^ k' = n' * 2 ^ 52) :
    (compare ((k : Int) - 52) (k' - 52)).then (compare m m') = compare n n' := by
  have hless {m k n m' k' n' : Nat} (hhigh : m < 2 ^ 53) (hlow' : 2 ^ 52 ≤ m')
      (h : m * 2 ^ k = n * 2 ^ 52) (h' : m' * 2 ^ k' = n' * 2 ^ 52) (hk : k < k') : n < n' := by
    refine Nat.lt_of_mul_lt_mul_right (a := 2 ^ 52) ?_
    rw [← h, ← h']
    calc
      m * 2 ^ k < 2 ^ 53 * 2 ^ k := Nat.mul_lt_mul_of_pos_right hhigh (Nat.two_pow_pos k)
      _ = 2 ^ 52 * 2 ^ (k + 1) := by omega
      _ ≤ 2 ^ 52 * 2 ^ k' := Nat.mul_le_mul_left _ (Nat.pow_le_pow_right (by omega) hk)
      _ ≤ m' * 2 ^ k' := Nat.mul_le_mul_right _ hlow'
  rcases Nat.lt_trichotomy k k' with hk | rfl | hk
  · rw [Int.compare_eq_lt.2 (by omega), Nat.compare_eq_lt.2 (hless hhigh hlow' h h' hk)]
    rfl
  · have hcompare (a b : Nat) {c : Nat} (hc : 0 < c) : compare (a * c) (b * c) = compare a b := by
      simp only [Nat.compare_eq_ite_lt, Nat.mul_lt_mul_right hc]
    rw [Int.compare_eq_eq.2 rfl, ← hcompare m m' (Nat.two_pow_pos k), h, h',
      hcompare n n' (by decide)]
    rfl
  · rw [Int.compare_eq_gt.2 (by omega), Nat.compare_eq_gt.2 (hless hhigh' hlow h' h hk)]
    rfl

theorem Canonical.compare {a b : Int} {v : UnpackedFloat} (hu : Canonical a u)
    (hv : Canonical b v) : u.compare v = some (Ord.compare a b) := by
  cases hu with
  | zero s =>
    cases hv with
    | zero s' => rfl
    | finite s' hm hlow hhigh hk hn =>
      have hpos := pos_of_mul hm hn
      cases s' with
      | negative => exact congrArg some (Int.compare_eq_gt.2 (by simpa [Sign.apply])).symm
      | positive => exact congrArg some (Int.compare_eq_lt.2 (by simpa [Sign.apply])).symm
  | finite s hm hlow hhigh hk hn =>
    have hpos := pos_of_mul hm hn
    cases hv with
    | zero s' =>
      cases s with
      | negative => exact congrArg some (Int.compare_eq_lt.2 (by simpa [Sign.apply])).symm
      | positive => exact congrArg some (Int.compare_eq_gt.2 (by simpa [Sign.apply])).symm
    | finite s' hm' hlow' hhigh' hk' hn' =>
      have hcompare := compare_of_mul hlow hhigh hlow' hhigh' hn hn'
      have hcast (a b : Nat) : Ord.compare (a : Int) b = Ord.compare a b := by
        simp only [Nat.compare_eq_ite_lt, Int.compare_eq_ite_lt, Int.ofNat_lt]
      have hneg (a b : Nat) : Ord.compare (-(a : Int)) (-b) = Ord.compare b a := by
        simp only [Nat.compare_eq_ite_lt, Int.compare_eq_ite_lt, Int.neg_lt_neg_iff, Int.ofNat_lt]
      cases s <;> cases s'
      · change some (Ordering.swap _) = some (Ord.compare (-_ : Int) (-_))
        rw [hcompare, hneg, Nat.compare_swap]
      · exact congrArg some (Int.compare_eq_lt.2 (by simp only [Sign.apply]; omega)).symm
      · exact congrArg some (Int.compare_eq_gt.2 (by simp only [Sign.apply]; omega)).symm
      · exact congrArg some (hcompare.trans (hcast _ _).symm)

end Diagram.Decimal
