import DeskCalc.Proofs.Number.Bits
import DeskCalc.Proofs.Number.Nearest
import Mathlib.Algebra.Order.Field.Rat
import Mathlib.Algebra.Order.Ring.Cast
import Mathlib.Order.Compare

/-!
# Exact values

A finite double stands for a whole number times a power of two, which is how it is unpacked. Here
this value is told from sign and rank, and what core computes from doubles is found to be what their
values say: the order of the doubles is the order of their values, and the value of the negation is
the negated value.

* `value`, `value_eq`: the exact value, and the same in units of 2^-1074.
* `signed`, `signed_mono`: whole numbers with a sign, such as sign and rank of a double.
* `le_iff_signed_rank`, `le_iff_value_le`: the order of doubles is the order of signed ranks, and
  that of values.
* `value_neg`: the value of the negation.
-/

namespace DeskCalc.Binary64

open Float.Model UnpackedFloat

/-- The exact value of an unpacked form: its mantissa with its sign, times a power of two.
Infinities and what is no number have no such value and count as zero. -/
def exactValue : UnpackedFloat → ℚ
  | .finite s m e _ => s.apply m * 2 ^ e
  | _ => 0

/-- The exact value of a finite double. -/
def value (x : Float) : ℚ :=
  exactValue x.toModel.unpack

/-! ## Whole numbers with a sign -/

/-- A whole number with a sign. Zero is the same with either. -/
def signed (negative : Bool) (n : Nat) : Int :=
  (signOf negative).apply n

theorem signed_false (n : Nat) : signed false n = n := rfl

theorem signed_true (n : Nat) : signed true n = -n := rfl

theorem signed_zero (negative : Bool) : signed negative 0 = 0 := by
  cases negative <;> rfl

theorem signed_not (negative : Bool) (n : Nat) : signed (!negative) n = -signed negative n := by
  cases negative with
  | false => rfl
  | true => exact (Int.neg_neg n).symm

/-- What keeps zero and the order of magnitudes keeps the order of numbers with a sign. -/
theorem signed_mono {f : Nat → Nat} (hzero : f 0 = 0) (hmono : ∀ {m n}, m ≤ n → f m ≤ f n)
    {a b : Bool} {m n : Nat} (h : signed a m ≤ signed b n) : signed a (f m) ≤ signed b (f n) := by
  cases a with
  | false =>
      cases b with
      | false =>
          rw [signed_false, signed_false, Int.ofNat_le] at h ⊢
          exact hmono h
      | true =>
          -- A number without a sign is at most one with a sign only if both are zero.
          rw [signed_false, signed_true] at h
          obtain rfl : m = 0 := by omega
          obtain rfl : n = 0 := by omega
          rw [hzero, signed_zero, signed_zero]
  | true =>
      cases b with
      | false =>
          rw [signed_true, signed_false]
          omega
      | true =>
          rw [signed_true, signed_true, Int.neg_le_neg_iff, Int.ofNat_le] at h ⊢
          exact hmono h

/-! ## Unpacked forms -/

/-- An unpacked form before infinity is a zero, or it has a mantissa and an exponent. -/
theorem Unpacks.zero_or_finite {s : Sign} {r : Nat} {f : UnpackedFloat} (h : Unpacks s r f)
    (hr : r < infinityRank) : r = 0 ∧ f = .zero s ∨ 0 < r ∧ ∃ m e hm, f = .finite s m e hm := by
  cases h with
  | zero => exact .inl ⟨rfl, rfl⟩
  | subnormal hpos hlt => exact .inr ⟨hpos, _, _, hpos, rfl⟩
  | normal hlow hlt hpos => exact .inr ⟨by omega, _, _, hpos, rfl⟩
  | infinity => omega
  | notANumber hgt => omega

/-- The rank is made up of mantissa and exponent, the exponent counted from the least one. -/
theorem Unpacks.exists_shift {s t : Sign} {r m : Nat} {e : Int} {hm : 0 < m}
    (h : Unpacks s r (.finite t m e hm)) :
    ∃ shift : Nat, e = shift - 1074 ∧ r = shift * 2 ^ 52 + m ∧ m < 2 ^ 53 ∧
      (2 ^ 52 ≤ m ∨ shift = 0) := by
  cases h with
  | subnormal hpos hlt => exact ⟨0, by omega, by omega, by omega, .inr rfl⟩
  | normal hlow hlt hpos => exact ⟨r / 2 ^ 52 - 1, by omega, by omega, by omega, .inl (by omega)⟩

/-- The exact value in units. -/
theorem Unpacks.exactValue_eq {negative : Bool} {r : Nat} {f : UnpackedFloat}
    (h : Unpacks (signOf negative) r f)
    (hr : r < infinityRank) : exactValue f = signed negative (units r) / 2 ^ 1074 := by
  obtain ⟨rfl, rfl⟩ | ⟨-, m, e, hm, rfl⟩ := h.zero_or_finite hr
  · have hunits : signed negative (units 0) = 0 := signed_zero negative
    rw [hunits, Int.cast_zero, zero_div]
    rfl
  · obtain ⟨shift, rfl, rfl, hhigh, hlow⟩ := h.exists_shift
    have hcast : (signed negative (m * 2 ^ shift) : ℚ) = signed negative m * 2 ^ shift := by
      cases negative <;> simp [signed_false, signed_true]
    rw [units_binade (Nat.le_of_lt hhigh) hlow, hcast]
    show (signed negative m : ℚ) * 2 ^ ((shift : Int) - 1074) = _
    rw [zpow_sub₀ two_ne_zero, zpow_natCast, mul_div_assoc]
    rfl

/-- Magnitudes are compared by exponent and then by mantissa, which is by rank. -/
theorem compare_then_compare {s t : Sign} {r₁ r₂ m₁ m₂ : Nat} {e₁ e₂ : Int} {h₁ : 0 < m₁}
    {h₂ : 0 < m₂}
    (hf : Unpacks s r₁ (.finite s m₁ e₁ h₁)) (hg : Unpacks t r₂ (.finite t m₂ e₂ h₂)) :
    (compare e₁ e₂).then (compare m₁ m₂) = compare r₁ r₂ := by
  obtain ⟨shift₁, he₁, hr₁, hhigh₁, hlow₁⟩ := hf.exists_shift
  obtain ⟨shift₂, he₂, hr₂, hhigh₂, hlow₂⟩ := hg.exists_shift
  rcases Int.lt_trichotomy e₁ e₂ with hlt | heq | hgt
  · have hrank : r₁ < r₂ := by omega
    rw [compare_lt_iff_lt.2 hlt, compare_lt_iff_lt.2 hrank]
    rfl
  · -- In one binade the ranks differ as the mantissas do.
    rw [compare_eq_iff_eq.2 heq]
    show compare m₁ m₂ = compare r₁ r₂
    rcases Nat.lt_trichotomy m₁ m₂ with hlt | heq | hgt
    · have hrank : r₁ < r₂ := by omega
      rw [compare_lt_iff_lt.2 hlt, compare_lt_iff_lt.2 hrank]
    · have hrank : r₁ = r₂ := by omega
      rw [compare_eq_iff_eq.2 heq, compare_eq_iff_eq.2 hrank]
    · have hrank : r₂ < r₁ := by omega
      rw [compare_gt_iff_gt.2 hgt, compare_gt_iff_gt.2 hrank]
  · have hrank : r₂ < r₁ := by omega
    rw [compare_gt_iff_gt.2 hgt, compare_gt_iff_gt.2 hrank]
    rfl

/-- Unpacked forms are compared as their ranks with their signs. -/
theorem Unpacks.le_iff {a b : Bool} {r s : Nat} {f g : UnpackedFloat} (hf : Unpacks (signOf a) r f)
    (hg : Unpacks (signOf b) s g) (hr : r < infinityRank) (hs : s < infinityRank) :
    f.le g = true ↔ signed a r ≤ signed b s := by
  obtain ⟨rfl, rfl⟩ | ⟨hrpos, m, e, hm, rfl⟩ := hf.zero_or_finite hr
  · obtain ⟨rfl, rfl⟩ | ⟨hspos, m', e', hm', rfl⟩ := hg.zero_or_finite hs
    · exact iff_of_true rfl (by rw [signed_zero, signed_zero])
    · rw [signed_zero]
      cases b with
      | false => exact iff_of_true rfl (by rw [signed_false]; omega)
      | true => exact iff_of_false Bool.false_ne_true (by rw [signed_true]; omega)
  · obtain ⟨rfl, rfl⟩ | ⟨hspos, m', e', hm', rfl⟩ := hg.zero_or_finite hs
    · rw [signed_zero]
      cases a with
      | false => exact iff_of_false Bool.false_ne_true (by rw [signed_false]; omega)
      | true => exact iff_of_true rfl (by rw [signed_true]; omega)
    · have hcompare := compare_then_compare hf hg
      cases a with
      | false =>
          cases b with
          | false =>
              show ((compare e e').then (compare m m')).isLE = true ↔ _
              rw [hcompare, Nat.isLE_compare, signed_false, signed_false, Int.ofNat_le]
          | true =>
              refine iff_of_false Bool.false_ne_true ?_
              rw [signed_false, signed_true]
              omega
      | true =>
          cases b with
          | false =>
              refine iff_of_true rfl ?_
              rw [signed_true, signed_false]
              omega
          | true =>
              show ((compare e e').then (compare m m')).swap.isLE = true ↔ _
              rw [hcompare, Ordering.isLE_swap, Nat.isGE_compare, signed_true, signed_true,
                Int.neg_le_neg_iff, Int.ofNat_le]

/-! ## Doubles -/

section
variable {x y : Float} (hx : x.isFinite = true)
include hx

/-- **The exact value of a finite double** is the number of units of its rank, with its sign. -/
theorem value_eq : value x = signed (hasSign x) (units (rank x)) / 2 ^ 1074 :=
  (unpacks x).exactValue_eq ((isFinite_iff x).1 hx)

theorem isFinite_negation : (-x).isFinite = true := by
  have hr := (isFinite_iff x).1 hx
  rw [isFinite_iff, neg_eq_ofRank hx, rank_ofRank (Nat.le_of_lt hr)]
  exact hr

/-- **The value of the negation is the negated value.** -/
theorem value_neg : value (-x) = -value x := by
  have hr := (isFinite_iff x).1 hx
  rw [value_eq (isFinite_negation hx), value_eq hx, neg_eq_ofRank hx,
    hasSign_ofRank (Nat.le_of_lt hr), rank_ofRank (Nat.le_of_lt hr), signed_not, Int.cast_neg,
    neg_div]

variable (hy : y.isFinite = true)
include hy

/-- Finite doubles are compared as their ranks with their signs. -/
theorem le_iff_signed_rank : x ≤ y ↔ signed (hasSign x) (rank x) ≤ signed (hasSign y) (rank y) := by
  rw [← (unpacks x).le_iff (unpacks y) ((isFinite_iff x).1 hx) ((isFinite_iff y).1 hy)]
  exact decide_eq_true_iff

/-- **Finite doubles are compared as their exact values.** -/
theorem le_iff_value_le : x ≤ y ↔ value x ≤ value y := by
  rw [le_iff_signed_rank hx hy, value_eq hx, value_eq hy,
    div_le_div_iff_of_pos_right (pow_pos two_pos 1074), Int.cast_le]
  constructor
  · intro h
    exact signed_mono rfl units_mono h
  · -- The way back is rounding, which finds the rank of a magnitude again.
    intro h
    have hunit : 0 < 2 ^ 1074 := by decide +kernel
    have hrank : ∀ {r}, r < infinityRank → nearest (units r) (2 ^ 1074) = r := fun hr =>
      nearest_exact hunit hr rfl
    have hmono : ∀ {m n : Nat}, m ≤ n → nearest m (2 ^ 1074) ≤ nearest n (2 ^ 1074) := fun hle =>
      nearest_mono hunit hunit (Nat.mul_le_mul_right _ hle)
    have hzero : nearest 0 (2 ^ 1074) = 0 := hrank (r := 0) (by decide)
    have hback := signed_mono (f := fun n => nearest n (2 ^ 1074)) hzero hmono h
    rw [hrank ((isFinite_iff x).1 hx), hrank ((isFinite_iff y).1 hy)] at hback
    exact hback

end

end DeskCalc.Binary64
