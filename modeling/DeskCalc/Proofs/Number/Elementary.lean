import Mathlib.Data.Rat.Floor
import DeskCalc.Proofs.Number.Faithful
import DeskCalc.Proofs.Number.Finite

/-!
# Values of the elementary functions

Rounding to a whole number is exact, for the whole numbers next to a finite magnitude are doubles:
from 2^53 on every magnitude is whole. Of an argument that is not finite most functions have no
finite value. Only the arc tangent, the exponential and the power do, and for the power `PowerHides`
says when.

* `exists_units_eq`: the whole numbers next to a magnitude are doubles.
* `value_floor`, `value_ceil`, `value_round`: what a finite double is rounded to.
* `isFinite_toWhole`, `isFinite_extended`: the argument of a finite value.
* `PowerHides`, `isFinite_pow`: the operands of a finite power.
-/

namespace DeskCalc.Elementary

open Binary64

/-! ## Rounding to whole numbers -/

/-- Up to 53 bits are the magnitude of a double in every binade from theirs on. -/
theorem exists_units_eq_mul (shift : Nat) {k : Nat} (h : k ≤ 2 ^ 53) :
    ∃ s, units s = k * 2 ^ shift := by
  induction shift generalizing k with
  | zero => exact ⟨0 * 2 ^ 52 + k, units_binade h (.inr rfl)⟩
  | succ shift ih =>
      rcases Nat.le_total (2 ^ 52) k with hlong | hshort
      · exact ⟨(shift + 1) * 2 ^ 52 + k, units_binade h (.inl hlong)⟩
      · obtain ⟨s, hs⟩ := ih (k := k * 2) (by omega)
        refine ⟨s, ?_⟩
        rw [hs, Nat.mul_assoc, Nat.pow_succ']

theorem mul_two_pow_of_le {a b : Nat} (h : a ≤ b) (k : Nat) :
    k * 2 ^ b = k * 2 ^ (b - a) * 2 ^ a := by
  rw [Nat.mul_assoc, ← Nat.pow_add, Nat.sub_add_cancel h]

/-- The whole numbers next to a whole number of ones are that number. -/
theorem whole_exact (n : Nat) :
    wholeBelow (n * 2 ^ 1074) = n ∧ wholeAbove (n * 2 ^ 1074) = n := by
  have hone : 0 < 2 ^ 1074 := by decide +kernel
  rw [wholeBelow, wholeAbove]
  generalize 2 ^ 1074 = one at hone ⊢
  refine ⟨Nat.mul_div_cancel n hone, ?_⟩
  rw [Nat.add_comm, Nat.add_mul_div_right _ _ hone, Nat.div_eq_of_lt (by omega), Nat.zero_add]

theorem wholeAbove_le {n w : Nat} (h : n ≤ w * 2 ^ 1074) : wholeAbove n ≤ w := by
  have hexact := (whole_exact w).2
  rw [wholeAbove] at hexact ⊢
  generalize 2 ^ 1074 = one at h hexact ⊢
  calc (n + (one - 1)) / one ≤ (w * one + (one - 1)) / one :=
        Nat.div_le_div_right (Nat.add_le_add_right h _)
    _ = w := hexact

/-- **The whole numbers next to a magnitude are magnitudes of doubles.** -/
theorem exists_units_eq {r w : Nat} (hlow : wholeBelow (units r) ≤ w)
    (hhigh : w ≤ wholeAbove (units r)) : ∃ s, units s = w * 2 ^ 1074 := by
  obtain ⟨shift, k, hr, hk, hbinade⟩ := exists_binade r
  have hunits : units r = k * 2 ^ shift := by
    rw [hr]
    exact units_binade (Nat.le_of_lt hk) hbinade
  rcases Nat.le_total 1074 shift with hlong | hshort
  · -- The step of the binade is a whole number, and so is the magnitude itself.
    have hwhole : units r = k * 2 ^ (shift - 1074) * 2 ^ 1074 :=
      hunits.trans (mul_two_pow_of_le hlong k)
    obtain ⟨hbelow, habove⟩ := whole_exact (k * 2 ^ (shift - 1074))
    rw [hwhole, hbelow] at hlow
    rw [hwhole, habove] at hhigh
    exact ⟨r, by rw [hwhole, Nat.le_antisymm hhigh hlow]⟩
  · have hstep := Nat.pow_le_pow_right Nat.two_pos hshort
    have hle := wholeAbove_le (Nat.mul_le_mul (Nat.le_of_lt hk) hstep)
    rw [← hunits] at hle
    have hbits : w ≤ 2 ^ 53 := Nat.le_trans hhigh hle
    exact exists_units_eq_mul 1074 hbits

theorem wholeBelow_le_wholeAbove (n : Nat) : wholeBelow n ≤ wholeAbove n := by
  rw [wholeBelow, wholeAbove]
  generalize 2 ^ 1074 = one
  exact Nat.div_le_div_right (Nat.le_add_right ..)

theorem wholeBelow_le_wholeNearest (n : Nat) : wholeBelow n ≤ wholeNearest n := by
  have hone : 0 < 2 ^ 1074 := by decide +kernel
  rw [wholeBelow, wholeNearest]
  generalize 2 ^ 1074 = one at hone ⊢
  have hbelow := Nat.div_mul_le_self n one
  rw [Nat.le_div_iff_mul_le (by omega), Nat.mul_left_comm]
  omega

theorem wholeNearest_le_wholeAbove (n : Nat) : wholeNearest n ≤ wholeAbove n := by
  have hone : 0 < 2 ^ 1074 := by decide +kernel
  rw [wholeAbove, wholeNearest]
  generalize 2 ^ 1074 = one at hone ⊢
  have hnearest := Nat.div_mul_le_self (2 * n + one) (2 * one)
  rw [Nat.mul_left_comm] at hnearest
  rw [Nat.le_div_iff_mul_le hone]
  omega

theorem signed_mul_two_pow_div (negative : Bool) (n bits : Nat) :
    (signed negative (n * 2 ^ bits) : ℚ) / 2 ^ bits = signed negative n := by
  have hcancel : (n * 2 ^ bits : ℚ) / 2 ^ bits = n :=
    mul_div_cancel_right₀ _ (pow_ne_zero bits two_ne_zero)
  cases negative with
  | false =>
      rw [signed_false, signed_false]
      push_cast
      exact hcancel
  | true =>
      rw [signed_true, signed_true]
      push_cast
      rw [neg_div, hcancel]

theorem cast_two_pow (bits : Nat) : (2 ^ bits : Nat) = (2 ^ bits : ℚ) := by
  rw [Nat.cast_pow, Nat.cast_ofNat]

/-- The whole numbers next to so many units are those next to their value. -/
theorem whole_eq (n : Nat) :
    ⌊(n : ℚ) / 2 ^ 1074⌋ = wholeBelow n ∧ ⌈(n : ℚ) / 2 ^ 1074⌉ = wholeAbove n ∧
      ⌊(n : ℚ) / 2 ^ 1074 + 1 / 2⌋ = wholeNearest n := by
  have hone : 0 < 2 ^ 1074 := by decide +kernel
  rw [wholeBelow, wholeAbove, wholeNearest, ← cast_two_pow 1074]
  generalize 2 ^ 1074 = one at hone ⊢
  have hpos : (0 : ℚ) < one := Nat.cast_pos.2 hone
  refine ⟨?_, ?_, ?_⟩
  · exact Rat.floor_intCast_div_natCast n one
  · have hdiv := Nat.div_add_mod' (n + (one - 1)) one
    have hmod := Nat.mod_lt (n + (one - 1)) hone
    generalize (n + (one - 1)) / one = k at hdiv ⊢
    have hlow : (k * one : ℚ) < n + one := by
      exact_mod_cast (by omega : k * one < n + one)
    have hhigh : (n : ℚ) ≤ k * one := by
      exact_mod_cast (by omega : n ≤ k * one)
    rw [Int.ceil_eq_iff, lt_div_iff₀ hpos, div_le_iff₀ hpos, Int.cast_natCast]
    exact ⟨by linarith, hhigh⟩
  · have hhalf : (n : ℚ) / one + 1 / 2 = ((2 * n + one : Nat) : Int) / ((2 * one : Nat) : ℚ) := by
      push_cast
      field_simp
    rw [hhalf, Rat.floor_intCast_div_natCast]
    rfl

section
variable {whole : Nat → Nat} {x : Float} (hx : x.isFinite = true)
include hx

/-- **Rounding to a whole number is exact**: a whole number next to the magnitude is the value. -/
theorem value_toWhole (hlow : ∀ n, wholeBelow n ≤ whole n) (hhigh : ∀ n, whole n ≤ wholeAbove n) :
    value (toWhole whole x) = signed (hasSign x) (whole (units (rank x))) := by
  have hr := (isFinite_iff x).1 hx
  obtain ⟨s, hs⟩ := exists_units_eq (hlow (units (rank x))) (hhigh (units (rank x)))
  have hrank : s < infinityRank := by
    -- The largest finite double is whole, so there is no need to go past it.
    have hle : whole (units (rank x)) ≤ largest := by
      have hunits := units_mono (Nat.le_sub_one_of_lt hr)
      rw [units_largest] at hunits
      exact Nat.le_trans (hhigh _) (wholeAbove_le hunits)
    refine Nat.lt_of_not_le fun hge => ?_
    have hlt : units (infinityRank - 1) < units s :=
      Nat.lt_of_lt_of_le (units_lt_succ _) (units_mono hge)
    rw [units_largest, hs] at hlt
    exact Nat.not_le_of_lt hlt (Nat.mul_le_mul_right _ hle)
  have hnearest : nearest (whole (units (rank x))) 1 = s :=
    nearest_exact Nat.one_pos hrank (by rw [hs, Nat.mul_one])
  have hfinite : (ofRank (hasSign x) s).isFinite = true := by
    rw [isFinite_iff, rank_ofRank (Nat.le_of_lt hrank)]
    exact hrank
  rw [toWhole, if_pos hx, hnearest, value_eq hfinite, hasSign_ofRank (Nat.le_of_lt hrank),
    rank_ofRank (Nat.le_of_lt hrank), hs, signed_mul_two_pow_div _ _ 1074]

/-- **The greatest whole number that is not above a double.** -/
theorem value_floor : value (floor x) = ⌊value x⌋ := by
  obtain ⟨hbelow, habove, -⟩ := whole_eq (units (rank x))
  rw [floor, value_eq hx]
  cases hsign : hasSign x with
  | false =>
      rw [if_neg Bool.false_ne_true,
        value_toWhole hx (fun _ => Nat.le_refl _) wholeBelow_le_wholeAbove, hsign, signed_false,
        signed_false, Int.cast_natCast, Int.cast_natCast, hbelow, Int.cast_natCast]
  | true =>
      rw [if_pos rfl, value_toWhole hx wholeBelow_le_wholeAbove (fun _ => Nat.le_refl _), hsign,
        signed_true, signed_true, Int.cast_neg, Int.cast_neg, Int.cast_natCast, Int.cast_natCast,
        neg_div, Int.floor_neg, habove, Int.cast_neg, Int.cast_natCast]

/-- **The least whole number that is not below a double.** -/
theorem value_ceil : value (ceil x) = ⌈value x⌉ := by
  obtain ⟨hbelow, habove, -⟩ := whole_eq (units (rank x))
  rw [ceil, value_eq hx]
  cases hsign : hasSign x with
  | false =>
      rw [if_neg Bool.false_ne_true,
        value_toWhole hx wholeBelow_le_wholeAbove (fun _ => Nat.le_refl _), hsign, signed_false,
        signed_false, Int.cast_natCast, Int.cast_natCast, habove, Int.cast_natCast]
  | true =>
      rw [if_pos rfl, value_toWhole hx (fun _ => Nat.le_refl _) wholeBelow_le_wholeAbove, hsign,
        signed_true, signed_true, Int.cast_neg, Int.cast_neg, Int.cast_natCast, Int.cast_natCast,
        neg_div, Int.ceil_neg, hbelow, Int.cast_neg, Int.cast_natCast]

/-- **The whole number nearest to a double**, with a half going away from zero. -/
theorem value_round :
    value (round x) = if hasSign x then (-⌊-value x + 1 / 2⌋ : ℚ) else ⌊value x + 1 / 2⌋ := by
  obtain ⟨-, -, hnearest⟩ := whole_eq (units (rank x))
  rw [round, value_toWhole hx wholeBelow_le_wholeNearest wholeNearest_le_wholeAbove, value_eq hx]
  cases hasSign x with
  | false =>
      rw [if_neg Bool.false_ne_true, signed_false, signed_false, Int.cast_natCast, Int.cast_natCast,
        hnearest, Int.cast_natCast]
  | true =>
      rw [if_pos rfl, signed_true, signed_true, Int.cast_neg, Int.cast_neg, Int.cast_natCast,
        Int.cast_natCast, neg_div, neg_neg, hnearest, Int.cast_natCast]

end

/-! ## Arguments that are not finite -/

section
variable {x y : Float}

/-- A double that is rounded to a finite one is finite. -/
theorem isFinite_toWhole {whole : Nat → Nat} (h : (toWhole whole x).isFinite = true) :
    x.isFinite = true := by
  rw [toWhole] at h
  by_cases hx : x.isFinite = true
  · exact hx
  · rw [if_neg hx] at h
    exact h

/-- **A finite value of a function is at a finite argument**, or at an infinity where the function
has a finite limit. -/
theorem isFinite_extended {f : Float → Float} {below above : Float}
    (h : (extended f below above x).isFinite = true) :
    x.isFinite = true ∨ (x = infinity true ∧ below.isFinite = true) ∨
      (x = infinity false ∧ above.isFinite = true) := by
  rw [extended] at h
  cases hx : x.isFinite with
  | true => exact .inl rfl
  | false =>
      right
      rw [if_neg (by rw [hx]; exact Bool.false_ne_true)] at h
      cases hnan : x.isNaN with
      | true =>
          rw [if_pos hnan, not_isFinite_nan] at h
          cases h
      | false =>
          rw [if_neg (by rw [hnan]; exact Bool.false_ne_true)] at h
          have heq := eq_infinity hx hnan
          cases hsign : hasSign x with
          | true =>
              rw [if_pos hsign] at h
              exact .inl ⟨by rw [heq, hsign], h⟩
          | false =>
              rw [if_neg (by rw [hsign]; exact Bool.false_ne_true)] at h
              exact .inr ⟨by rw [heq, hsign], h⟩

/-! ## Powers -/

/-- The power of `x` with the exponent `y` is finite although one of them is not: the base, which
has the index 0, or the exponent, which has the index 1. -/
inductive PowerHides : Float → Float → Nat → Prop
  /-- Anything to the power zero is one. -/
  | zeroExponent {x y : Float} : (y == 0) = true → PowerHides x y 0
  /-- An infinite base is below the line of a fraction. -/
  | reciprocal {sign : Bool} {y : Float} : y < 0 → PowerHides (infinity sign) y 0
  /-- One to any power is one. -/
  | oneBase {x y : Float} : (x == 1) = true → PowerHides x y 1
  /-- So is minus one to an infinite power. -/
  | unitBase {x : Float} {sign : Bool} : (x.abs == 1) = true → PowerHides x (infinity sign) 1
  /-- A magnitude below one goes to zero as the exponent grows. -/
  | vanishing {x : Float} : x.abs < 1 → PowerHides x (infinity false) 1
  /-- A magnitude above one goes to zero as the exponent sinks. -/
  | sinking {x : Float} : 1 < x.abs → PowerHides x (infinity true) 1

/-- The base of a finite power with an infinite exponent. -/
theorem isFinite_pow_infinity {sign : Bool} (hnumber : x.isNaN = false)
    (h : (if x.abs == 1 then 1
      else if infinity sign < 0 then (if 1 < x.abs then 0 else infinity false)
      else if x.abs < 1 then 0
      else infinity false : Float).isFinite = true) :
    (x.isFinite = true ∨ PowerHides x (infinity sign) 0) ∧ PowerHides x (infinity sign) 1 := by
  by_cases hunit : (x.abs == 1) = true
  · exact ⟨.inl (isFinite_abs (isFinite_of_beq hunit (by decide +kernel))), .unitBase hunit⟩
  rw [if_neg hunit] at h
  cases sign with
  | false =>
      rw [if_neg (not_infinity_lt 0)] at h
      by_cases hbelow : x.abs < 1
      · exact ⟨.inl (isFinite_of_abs_lt hnumber hbelow), .vanishing hbelow⟩
      · rw [if_neg hbelow, not_isFinite_infinity] at h
        cases h
  | true =>
      have hnegative : infinity true < 0 := (between_infinities (by decide +kernel)).2
      rw [if_pos hnegative] at h
      by_cases habove : 1 < x.abs
      · refine ⟨?_, .sinking habove⟩
        cases hx : x.isFinite with
        | true => exact .inl rfl
        | false =>
            rw [eq_infinity hx hnumber]
            exact .inr (.reciprocal hnegative)
      · rw [if_neg habove, not_isFinite_infinity] at h
        cases h

/-- **The operands of a finite power** are finite, or the power hides that they are not. -/
theorem isFinite_pow (h : (pow x y).isFinite = true) :
    (x.isFinite = true ∨ PowerHides x y 0) ∧ (y.isFinite = true ∨ PowerHides x y 1) := by
  rw [pow] at h
  by_cases hboth : (x.isFinite && y.isFinite) = true
  · obtain ⟨hx, hy⟩ := Bool.and_eq_true_iff.1 hboth
    exact ⟨.inl hx, .inl hy⟩
  rw [if_neg hboth] at h
  by_cases hone : (y == 0 || x == 1) = true
  · rcases (Bool.or_eq_true ..).mp hone with hy | hx
    · exact ⟨.inr (.zeroExponent hy), .inl (isFinite_of_beq hy (by decide +kernel))⟩
    · exact ⟨.inl (isFinite_of_beq hx (by decide +kernel)), .inr (.oneBase hx)⟩
  rw [if_neg hone] at h
  by_cases hnan : (x.isNaN || y.isNaN) = true
  · rw [if_pos hnan, not_isFinite_nan] at h
    cases h
  rw [if_neg hnan] at h
  obtain ⟨hxnan, hynan⟩ : x.isNaN = false ∧ y.isNaN = false := by simpa using hnan
  cases hy : y.isFinite with
  | false =>
      obtain ⟨sign, rfl⟩ : ∃ sign, y = infinity sign := ⟨_, eq_infinity hy hynan⟩
      rw [if_pos (isInf_infinity sign)] at h
      exact (isFinite_pow_infinity hxnan h).imp_right .inr
  | true =>
      have hx : x.isFinite = false := by simpa [hy] using hboth
      have hfinite : y.isInf = false := not_isInf_of_isFinite hy
      obtain ⟨sign, rfl⟩ : ∃ sign, x = infinity sign := ⟨_, eq_infinity hx hxnan⟩
      rw [if_neg (by rw [hfinite]; exact Bool.false_ne_true)] at h
      by_cases hnegative : y < 0
      · exact ⟨.inr (.reciprocal hnegative), .inl rfl⟩
      · rw [if_neg hnegative] at h
        exact absurd h (by rw [← infinity, not_isFinite_infinity]; exact Bool.false_ne_true)

end

end DeskCalc.Elementary
