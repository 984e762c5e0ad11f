import DeskCalc.Number.Rounding
import DeskCalc.Proofs.Number.Bits
import DeskCalc.Proofs.Number.Nearest

/-!
# Rounding to decimal places is stable

A rounded double need not lie on the decimal grid, it is only the double closest to a point of it.
Still the grid point closest to that double is the same one again: the double is no farther from the
point than the number that was rounded was, and on the middle between two points both roundings
choose the even one.

* `roundHalfEven_eq_iff`: half-even rounding as a distance.
* `gridRank_lt`, `gridRank_gridRank`: on ranks, rounding stays finite and is stable.
* `isFinite_roundTo`, `roundTo_ne_negative_zero`, `roundTo_roundTo_of_isFinite`, `roundTo_roundTo`:
  the same for doubles.
-/

namespace DeskCalc.Binary64

/-- **Half-even rounding as a distance**: `k` is less than half a step away, or half a step if it is
even. -/
theorem roundHalfEven_eq_iff {num den : Nat} (hden : 0 < den) (k : Nat) :
    roundHalfEven num den = k ↔
      gap (2 * num) (2 * (k * den)) < den ∨ gap (2 * num) (2 * (k * den)) = den ∧ k % 2 = 0 := by
  have hupper : (2 * k + 1) * den = 2 * (k * den) + den := by grind
  have hle := @roundHalfEven_le_iff num den hden k
  rw [RoundsDown, hupper] at hle
  simp only [gap]
  cases k with
  | zero => omega
  | succ j =>
      have hlower : (2 * j + 1) * den = 2 * (j * den) + den := by grind
      have hstep : (j + 1) * den = j * den + den := Nat.succ_mul j den
      have hlt := @roundHalfEven_le_iff num den hden j
      rw [RoundsDown, hlower] at hlt
      rw [hstep] at hle ⊢
      generalize j * den = below at hle hlt ⊢
      omega

/-! ## Ranks -/

/-- The largest finite double, which is a whole number. -/
def largest : Nat := (2 ^ 53 - 1) * 2 ^ 971

theorem units_largest : units (infinityRank - 1) = largest * 2 ^ 1074 := by
  decide +kernel

/-- A finite double is rounded to a finite one. -/
theorem gridRank_lt (places : Nat) {r : Nat} (hr : r < infinityRank) :
    gridRank places r < infinityRank := by
  have hgrid : 0 < 10 ^ places := Nat.pow_pos (by decide)
  have hunit : 0 < 2 ^ 1074 := by decide +kernel
  -- The grid point is no greater than the largest finite double, for that is a grid point itself.
  have hpoint : roundHalfEven (units r * 10 ^ places) (2 ^ 1074) ≤
      largest * 10 ^ places := by
    have hexact := roundHalfEven_exact (k := largest * 10 ^ places) hunit rfl
    rw [← hexact]
    refine roundHalfEven_mono hunit hunit (Nat.mul_le_mul_right _ ?_)
    rw [Nat.mul_right_comm, ← units_largest]
    exact Nat.mul_le_mul_right _ (units_mono (by omega))
  have hlargest : nearest (largest * 10 ^ places) (10 ^ places) =
      infinityRank - 1 := by
    refine nearest_exact hgrid (by decide) ?_
    rw [Nat.mul_right_comm, ← units_largest]
  have hmono := nearest_mono hgrid hgrid (Nat.mul_le_mul_right (10 ^ places) hpoint)
  rw [hlargest] at hmono
  exact Nat.lt_of_le_of_lt hmono (by decide)

/-- **Rounding twice finds the same grid point**, as the first result is no farther from it than the
number itself. -/
theorem gridRank_gridRank (places : Nat) {r : Nat} (hr : r < infinityRank) :
    gridRank places (gridRank places r) = gridRank places r := by
  have hgrid : 0 < 10 ^ places := Nat.pow_pos (by decide)
  have hunit : 0 < 2 ^ 1074 := by decide +kernel
  have hpoint := (@roundHalfEven_eq_iff (units r * 10 ^ places) _ hunit _).1 rfl
  have hcloser := @nearest_closest (roundHalfEven (units r * 10 ^ places) (2 ^ 1074)) _ _ hgrid hr
  have hsame : roundHalfEven (units (gridRank places r) * 10 ^ places) (2 ^ 1074) =
      roundHalfEven (units r * 10 ^ places) (2 ^ 1074) := by
    rw [roundHalfEven_eq_iff hunit]
    rw [gridRank]
    generalize roundHalfEven (units r * 10 ^ places) (2 ^ 1074) = k at hpoint hcloser ⊢
    generalize k * 2 ^ 1074 = point at hpoint hcloser ⊢
    -- What is left is linear: two distances from one grid point, and half a step.
    generalize 2 ^ 1074 = step at hpoint ⊢
    simp only [gap] at hpoint hcloser ⊢
    omega
  rw [gridRank, hsame, ← gridRank]

/-! ## Doubles -/

/-- Rounding a finite double gives the double of the rounded rank, with the sign unless it is
zero. -/
theorem roundTo_eq (places : Nat) {x : Float} (h : x.isFinite = true) :
    roundTo places x =
      if gridRank places (rank x) = 0 then ofRank false 0
      else ofRank (hasSign x) (gridRank places (rank x)) := by
  exact if_pos h

theorem rank_roundTo (places : Nat) {x : Float} (h : x.isFinite = true) :
    rank (roundTo places x) = gridRank places (rank x) := by
  have hfinite := gridRank_lt places ((isFinite_iff x).1 h)
  rw [roundTo_eq places h]
  split
  · rename_i hzero
    rw [rank_ofRank (Nat.zero_le _), hzero]
  · exact rank_ofRank (Nat.le_of_lt hfinite)

theorem hasSign_roundTo (places : Nat) {x : Float} (h : x.isFinite = true) :
    hasSign (roundTo places x) = (hasSign x && gridRank places (rank x) != 0) := by
  have hfinite := gridRank_lt places ((isFinite_iff x).1 h)
  rw [roundTo_eq places h]
  by_cases hzero : gridRank places (rank x) = 0
  · rw [if_pos hzero, hasSign_ofRank (Nat.zero_le _), hzero]
    exact (Bool.and_false _).symm
  · rw [if_neg hzero, hasSign_ofRank (Nat.le_of_lt hfinite), bne_iff_ne.2 hzero, Bool.and_true]

/-- **Rounding a finite double gives a finite one.** -/
theorem isFinite_roundTo (places : Nat) {x : Float} (h : x.isFinite = true) :
    (roundTo places x).isFinite = true := by
  rw [isFinite_iff, rank_roundTo places h]
  exact gridRank_lt places ((isFinite_iff x).1 h)

theorem roundTo_of_not_isFinite (places : Nat) {x : Float} (h : x.isFinite = false) :
    roundTo places x = x := by
  rw [roundTo]
  rw [h]
  rfl

/-- **No double is rounded to the negative zero.** -/
theorem roundTo_ne_negative_zero (places : Nat) {x : Float} (h : x.isFinite = true) :
    roundTo places x ≠ ofRank true 0 := by
  intro heq
  have hrank := rank_roundTo places h
  have hsign := hasSign_roundTo places h
  rw [heq, rank_ofRank (Nat.zero_le _)] at hrank
  rw [heq, hasSign_ofRank (Nat.zero_le _), ← hrank] at hsign
  simp at hsign

theorem roundTo_roundTo_of_isFinite (places : Nat) {x : Float} (h : x.isFinite = true) :
    roundTo places (roundTo places x) = roundTo places x := by
  have hfinite := isFinite_roundTo places h
  have hstable := gridRank_gridRank places ((isFinite_iff x).1 h)
  refine ext_rank ?_ ?_
  · rw [hasSign_roundTo places hfinite, rank_roundTo places h, hstable,
      hasSign_roundTo places h, Bool.and_assoc, Bool.and_self]
  · rw [rank_roundTo places hfinite, rank_roundTo places h, hstable]

/-- **Rounding twice is rounding once**, for every double and every number of places. An infinity
and what is no number are not rounded at all. -/
theorem roundTo_roundTo (places : Nat) (x : Float) :
    roundTo places (roundTo places x) = roundTo places x := by
  cases h : x.isFinite with
  | false => rw [roundTo_of_not_isFinite places h, roundTo_of_not_isFinite places h]
  | true => exact roundTo_roundTo_of_isFinite places h

end DeskCalc.Binary64
