import DeskCalc.Proofs.Number.ReadBack
import DeskCalc.Proofs.Number.Stability
import DeskCalc.Proofs.Number.Value
import Mathlib.Algebra.Order.Field.Basic
import Mathlib.Tactic.FieldSimp
import Mathlib.Tactic.NormNum
import Mathlib.Tactic.Positivity

/-!
# Rounding to decimal places is faithful

A double is rounded in two steps, to a decimal and from there to a double, and each step takes the
nearest one: the decimal is at most half a decimal step from the value of the double, and no double
is closer to it than the result. So the result is at most one decimal step away, and a value that is
a decimal with so many places stays what it is. Both steps keep the order, and neither looks at the
sign.

* `decimal`, `abs_decimal_sub_le`, `value_roundTo_closest`: the decimal between the two steps, and
  the two steps.
* `value_roundTo_of_decimal`: a decimal stays what it is.
* `roundTo_mono`, `value_roundTo_neg`: order and sign.
* `roundTo_faithful`: all of these.
-/

namespace DeskCalc.Binary64

/-! ## Distances -/

theorem cast_gap (m n : Nat) : (gap m n : ℚ) = |(m : ℚ) - n| := by
  rcases Nat.le_total m n with hle | hle
  · have hgap : gap m n = n - m := by
      rw [gap]
      omega
    rw [hgap, Nat.cast_sub hle, abs_sub_comm, abs_of_nonneg (sub_nonneg.2 (Nat.cast_le.2 hle))]
  · have hgap : gap m n = m - n := by
      rw [gap]
      omega
    rw [hgap, Nat.cast_sub hle, abs_of_nonneg (sub_nonneg.2 (Nat.cast_le.2 hle))]

/-- The distance of a decimal and a dyadic number, in whole numbers. -/
theorem abs_decimal_sub_dyadic (m n places bits : Nat) :
    |(m : ℚ) / 10 ^ places - n / 2 ^ bits| =
      gap (m * 2 ^ bits) (n * 10 ^ places) / (10 ^ places * 2 ^ bits) := by
  have hgrid : (0 : ℚ) < 10 ^ places := pow_pos (by norm_num) places
  have hunit : (0 : ℚ) < 2 ^ bits := pow_pos two_pos bits
  rw [div_sub_div _ _ hgrid.ne' hunit.ne', abs_div, abs_of_pos (mul_pos hgrid hunit), cast_gap]
  push_cast
  rw [mul_comm (n : ℚ)]

theorem abs_signed (negative : Bool) (n : Nat) : |(signed negative n : ℚ)| = n := by
  cases negative with
  | false => exact abs_of_nonneg (Nat.cast_nonneg n)
  | true =>
      rw [signed_true, Int.cast_neg, abs_neg]
      exact abs_of_nonneg (Nat.cast_nonneg n)

/-- Quotients with one sign are as far apart as their magnitudes. -/
theorem abs_signed_sub_signed (negative : Bool) (m n : Nat) (c d : ℚ) :
    |(signed negative m : ℚ) / c - signed negative n / d| = |(m : ℚ) / c - n / d| := by
  cases negative with
  | false => rfl
  | true =>
      rw [signed_true, signed_true, Int.cast_neg, Int.cast_neg, neg_div, neg_div, neg_sub_neg,
        abs_sub_comm]
      rfl

/-- Quotients with any signs are at least as far apart as their magnitudes. -/
theorem abs_sub_le_abs_signed_sub (a b : Bool) (m n : Nat) {c d : ℚ} (hc : 0 < c) (hd : 0 < d) :
    |(m : ℚ) / c - n / d| ≤ |(signed a m : ℚ) / c - signed b n / d| := by
  have h := abs_abs_sub_abs_le ((signed a m : ℚ) / c) (signed b n / d)
  rw [abs_div, abs_div, abs_signed, abs_signed, abs_of_pos hc, abs_of_pos hd] at h
  exact h

/-! ## Ranks -/

theorem gridRank_zero (places : Nat) : gridRank places 0 = 0 := by
  have hgrid : 0 < 10 ^ places := Nat.pow_pos (by decide)
  have hunit : 0 < 2 ^ 1074 := by decide +kernel
  have hunits : units 0 = 0 := by decide
  rw [gridRank, hunits, Nat.zero_mul, roundHalfEven_exact hunit (Nat.zero_mul _).symm]
  exact Decimal.nearest_zero hgrid

theorem gridRank_mono (places : Nat) {r s : Nat} (h : r ≤ s) :
    gridRank places r ≤ gridRank places s := by
  have hgrid : 0 < 10 ^ places := Nat.pow_pos (by decide)
  have hunit : 0 < 2 ^ 1074 := by decide +kernel
  refine nearest_mono hgrid hgrid (Nat.mul_le_mul_right _ ?_)
  exact roundHalfEven_mono hunit hunit
    (Nat.mul_le_mul_right _ (Nat.mul_le_mul_right _ (units_mono h)))

/-! ## The two steps -/

/-- The decimal that a finite double is rounded by way of. -/
def decimal (places : Nat) (x : Float) : ℚ :=
  signed (hasSign x) (roundHalfEven (units (rank x) * 10 ^ places) (2 ^ 1074)) / 10 ^ places

section
variable (places : Nat) {x : Float} (hx : x.isFinite = true)
include hx

/-- The sign of a rounded double is that of the double, where it matters. -/
theorem signed_roundTo {f : Nat → Nat} (hzero : f 0 = 0) :
    signed (hasSign (roundTo places x)) (f (rank (roundTo places x))) =
      signed (hasSign x) (f (gridRank places (rank x))) := by
  rw [rank_roundTo places hx, hasSign_roundTo places hx]
  by_cases h : gridRank places (rank x) = 0
  · rw [h, hzero, signed_zero, signed_zero]
  · rw [bne_iff_ne.2 h, Bool.and_true]

theorem value_roundTo :
    value (roundTo places x) =
      signed (hasSign x) (units (gridRank places (rank x))) / 2 ^ 1074 := by
  rw [value_eq (isFinite_roundTo places hx), signed_roundTo places hx rfl]

/-- **The first step**: the decimal is at most half a decimal step away. -/
theorem abs_decimal_sub_le : |decimal places x - value x| ≤ 1 / (2 * 10 ^ places) := by
  have hunit : 0 < 2 ^ 1074 := by decide +kernel
  have hhalf := (@roundHalfEven_eq_iff (units (rank x) * 10 ^ places) _ hunit _).1 rfl
  rw [value_eq hx, decimal, abs_signed_sub_signed, abs_decimal_sub_dyadic]
  generalize roundHalfEven (units (rank x) * 10 ^ places) (2 ^ 1074) = k at hhalf ⊢
  generalize 1074 = bits at hhalf ⊢
  have hle : gap (k * 2 ^ bits) (units (rank x) * 10 ^ places) * 2 ≤ 2 ^ bits := by
    simp only [gap] at hhalf ⊢
    omega
  generalize gap (k * 2 ^ bits) (units (rank x) * 10 ^ places) = distance at hle ⊢
  have hle' : (distance * 2 : ℚ) ≤ 2 ^ bits := by exact_mod_cast hle
  rw [div_le_div_iff₀ (by positivity) (by positivity)]
  calc (distance : ℚ) * (2 * 10 ^ places) = distance * 2 * 10 ^ places := (mul_assoc _ _ _).symm
    _ ≤ 2 ^ bits * 10 ^ places := mul_le_mul_of_nonneg_right hle' (by positivity)
    _ = 1 * (10 ^ places * 2 ^ bits) := by rw [one_mul, mul_comm]

/-- **The second step**: no double is closer to the decimal than the result. -/
theorem value_roundTo_closest {y : Float} (hy : y.isFinite = true) :
    |decimal places x - value (roundTo places x)| ≤ |decimal places x - value y| := by
  have hgrid : 0 < 10 ^ places := Nat.pow_pos (by decide)
  rw [value_roundTo places hx, value_eq hy, decimal, abs_signed_sub_signed, gridRank]
  generalize roundHalfEven (units (rank x) * 10 ^ places) (2 ^ 1074) = k
  refine le_trans ?_ (abs_sub_le_abs_signed_sub _ _ _ _ (pow_pos (by norm_num) places)
    (pow_pos two_pos 1074))
  rw [abs_decimal_sub_dyadic, abs_decimal_sub_dyadic]
  refine div_le_div_of_nonneg_right ?_ (by positivity)
  exact Nat.cast_le.2 (nearest_closest hgrid ((isFinite_iff y).1 hy))

/-- The result is at most one decimal step away. -/
theorem abs_value_roundTo_sub_le : |value (roundTo places x) - value x| ≤ 1 / 10 ^ places := by
  have hpos : (0 : ℚ) < 10 ^ places := pow_pos (by norm_num) places
  calc |value (roundTo places x) - value x|
      ≤ |value (roundTo places x) - decimal places x| + |decimal places x - value x| :=
        abs_sub_le _ _ _
    _ ≤ |decimal places x - value x| + |decimal places x - value x| := by
        rw [abs_sub_comm (value (roundTo places x))]
        exact add_le_add_left (value_roundTo_closest places hx hx) _
    _ ≤ 1 / (2 * 10 ^ places) + 1 / (2 * 10 ^ places) :=
        add_le_add (abs_decimal_sub_le places hx) (abs_decimal_sub_le places hx)
    _ = 1 / 10 ^ places := by
        field_simp
        norm_num

/-- **A decimal stays what it is**: no other one is so close, so it is what the double is rounded by
way of. -/
theorem value_roundTo_of_decimal {k : Int} (hk : value x = k / 10 ^ places) :
    value (roundTo places x) = value x := by
  have hpos : (0 : ℚ) < 10 ^ places := pow_pos (by norm_num) places
  have hdecimal : decimal places x = value x := by
    have hhalf := abs_decimal_sub_le places hx
    rw [hk, decimal] at hhalf ⊢
    generalize signed (hasSign x) _ = j at hhalf ⊢
    rw [← sub_div, abs_div, abs_of_pos hpos, div_le_div_iff₀ hpos (by positivity)] at hhalf
    have hstep : |(j : ℚ) - k| * 2 ≤ 1 := by
      refine le_of_mul_le_mul_right ?_ hpos
      calc |(j : ℚ) - k| * 2 * 10 ^ places = |(j : ℚ) - k| * (2 * 10 ^ places) := mul_assoc _ _ _
        _ ≤ 1 * 10 ^ places := hhalf
    have hwhole : |j - k| * 2 ≤ 1 := by exact_mod_cast hstep
    have hsame : j - k = 0 := Int.abs_lt_one_iff.1 (by omega)
    rw [Int.sub_eq_zero.1 hsame]
  have hclosest := value_roundTo_closest places hx hx
  rw [hdecimal, sub_self, abs_zero, abs_nonpos_iff, sub_eq_zero] at hclosest
  exact hclosest.symm

/-- **Rounding changes the sign where the double does.** -/
theorem value_roundTo_neg : value (roundTo places (-x)) = -value (roundTo places x) := by
  have hr := (isFinite_iff x).1 hx
  have hneg : (-x).isFinite = true := isFinite_negation hx
  rw [value_roundTo places hneg, value_roundTo places hx, neg_eq_ofRank hx,
    hasSign_ofRank (Nat.le_of_lt hr), rank_ofRank (Nat.le_of_lt hr), signed_not, Int.cast_neg,
    neg_div]

/-- **Rounding keeps the order.** -/
theorem roundTo_mono {y : Float} (hy : y.isFinite = true) (h : x ≤ y) :
    roundTo places x ≤ roundTo places y := by
  have hrank : ∀ {z : Float}, z.isFinite = true →
      signed (hasSign (roundTo places z)) (rank (roundTo places z)) =
        signed (hasSign z) (gridRank places (rank z)) := by
    intro z hz
    have hsigned := signed_roundTo places hz (f := id) rfl
    rw [id_eq, id_eq] at hsigned
    exact hsigned
  rw [le_iff_signed_rank hx hy] at h
  rw [le_iff_signed_rank (isFinite_roundTo places hx) (isFinite_roundTo places hy), hrank hx,
    hrank hy]
  exact signed_mono (gridRank_zero places) (gridRank_mono places) h

end

/-- **Rounding is faithful**, for all finite doubles and every number of places: the result is
finite and at most one decimal step away, a whole number stays what it is, and order and sign are
kept, of the doubles as of their values. -/
theorem roundTo_faithful (places : Nat) {x y : Float} (hx : x.isFinite = true)
    (hy : y.isFinite = true) :
    (roundTo places x).isFinite = true ∧
      |value (roundTo places x) - value x| ≤ 1 / 10 ^ places ∧
      (∀ k : Int, value x = k → value (roundTo places x) = value x) ∧
      (x ≤ y → roundTo places x ≤ roundTo places y) ∧
      (value x ≤ value y → value (roundTo places x) ≤ value (roundTo places y)) ∧
      value (roundTo places (-x)) = value (-roundTo places x) := by
  have hxfinite := isFinite_roundTo places hx
  have hyfinite := isFinite_roundTo places hy
  refine ⟨hxfinite, abs_value_roundTo_sub_le places hx, ?_, roundTo_mono places hx hy, ?_, ?_⟩
  · intro k hk
    have hpos : (10 ^ places : ℚ) ≠ 0 := pow_ne_zero places (by norm_num)
    refine value_roundTo_of_decimal places hx (k := k * 10 ^ places) ?_
    rw [hk, Int.cast_mul, Int.cast_pow, Int.cast_ofNat, mul_div_cancel_right₀ _ hpos]
  · intro hle
    rw [← le_iff_value_le hx hy] at hle
    rw [← le_iff_value_le hxfinite hyfinite]
    exact roundTo_mono places hx hy hle
  · rw [value_roundTo_neg places hx, value_neg hxfinite]

/-- Three stays three with two places, and below what 3.125 is rounded to, which lies in the middle
between two decimals. -/
theorem roundTo_faithful_middle :
    value 3 = ((3 : Int) : ℚ) ∧ value (roundTo 2 3) = value 3 ∧ roundTo 2 3 ≤ roundTo 2 3.125 ∧
      |value (roundTo 2 3.125) - value 3.125| ≤ 1 / 10 ^ 2 := by
  have hwhole : (3 : Float).isFinite = true := by decide +kernel
  have hmiddle : (3.125 : Float).isFinite = true := by decide +kernel
  have hle : (3 : Float) ≤ 3.125 := by decide +kernel
  have hvalue : value 3 = ((3 : Int) : ℚ) := by
    have hunpack : (3 : Float).toModel.unpack =
        .finite .positive (3 * 2 ^ 51) (-51) (by decide) := rfl
    rw [value, hunpack]
    show (((3 * 2 ^ 51 : Nat) : Int) : ℚ) * 2 ^ (-51 : Int) = _
    norm_num
  obtain ⟨-, -, hstays, hmono, -, -⟩ := roundTo_faithful 2 hwhole hmiddle
  exact ⟨hvalue, hstays 3 hvalue, hmono hle, (roundTo_faithful 2 hmiddle hwhole).2.1⟩

example : roundTo 2 3.125 = 3.12 := by decide +kernel

end DeskCalc.Binary64
