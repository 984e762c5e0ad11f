import DeskCalc.Number.Binary64

/-!
# The nearest of the doubles

Rounding is told by where it changes: a quotient goes to the lower of two neighbours if it lies
below the middle between them, or on the middle if the lower one is even. For whole numbers and for
ranks alike this one comparison decides whether the result is at most `k`, and everything else about
rounding follows from it.

* `roundHalfEven_le_iff`, `nearest_le_iff`: rounding as a comparison with the middles.
* `nearest_mono`: a greater quotient has no lower rank, so the rank depends on the quotient alone.
* `nearest_exact`: a quotient that is a double is its own nearest.
* `nearest_closest`: no double is closer than the nearest.
-/

namespace DeskCalc.Binary64

/-- A quotient goes to the lower one, `k`, of two neighbours with the given sum: twice the quotient
is less than the sum, or equal to it if `k` is even. -/
def RoundsDown (num den sum k : Nat) : Prop :=
  2 * num < sum * den ∨ 2 * num = sum * den ∧ k % 2 = 0

/-- A lesser quotient goes down where a greater one does. -/
theorem RoundsDown.of_le {num den num' den' sum k : Nat} (hden : 0 < den) (hden' : 0 < den')
    (hle : num * den' ≤ num' * den) (h : RoundsDown num' den' sum k) :
    RoundsDown num den sum k := by
  have hcross : 2 * num * den' ≤ 2 * num' * den := by
    calc 2 * num * den' = 2 * (num * den') := Nat.mul_assoc ..
      _ ≤ 2 * (num' * den) := Nat.mul_le_mul_left 2 hle
      _ = 2 * num' * den := (Nat.mul_assoc ..).symm
  have hswap : sum * den' * den = sum * den * den' := by grind
  rcases h with hlt | ⟨heq, heven⟩
  · left
    have hstep : 2 * num' * den < sum * den' * den := Nat.mul_lt_mul_of_pos_right hlt hden
    exact Nat.lt_of_mul_lt_mul_right (by rw [← hswap]; exact Nat.lt_of_le_of_lt hcross hstep)
  · have hle' : 2 * num ≤ sum * den := by
      refine Nat.le_of_mul_le_mul_right ?_ hden'
      rw [← hswap, ← heq]
      exact hcross
    rcases Nat.lt_or_eq_of_le hle' with hlt | heq'
    · exact .inl hlt
    · exact .inr ⟨heq', heven⟩

/-! ## Whole numbers -/

/-- **Half-even rounding as a comparison**: the result is at most `k` if the quotient goes down
between `k` and `k + 1`. -/
theorem roundHalfEven_le_iff {num den : Nat} (hden : 0 < den) (k : Nat) :
    roundHalfEven num den ≤ k ↔ RoundsDown num den (2 * k + 1) k := by
  have hdiv : den * (num / den) + num % den = num := Nat.div_add_mod num den
  have hmod : num % den < den := Nat.mod_lt num hden
  have hexpand : (2 * k + 1) * den = 2 * (k * den) + den := by grind
  simp only [RoundsDown, roundHalfEven, hexpand]
  -- Away from the quotient a whole step decides, at it the remainder does.
  rcases Nat.lt_trichotomy k (num / den) with hk | hk | hk
  · have hgap : (k + 1) * den ≤ den * (num / den) := by
      rw [Nat.mul_comm den]
      exact Nat.mul_le_mul_right den hk
    rw [Nat.succ_mul] at hgap
    split
    · omega
    · split <;> omega
  · have hsame : k * den = den * (num / den) := by rw [hk, Nat.mul_comm]
    split
    · omega
    · split <;> omega
  · have hgap : den * (num / den) + den ≤ k * den := by
      rw [← Nat.mul_succ, Nat.mul_comm]
      exact Nat.mul_le_mul_right den hk
    split
    · omega
    · split <;> omega

theorem roundHalfEven_exact {num den k : Nat} (hden : 0 < den) (h : num = k * den) :
    roundHalfEven num den = k := by
  apply Nat.le_antisymm
  · rw [roundHalfEven_le_iff hden, h]
    left
    have : (2 * k + 1) * den = 2 * (k * den) + den := by grind
    omega
  · refine Nat.le_of_not_lt fun hlt => ?_
    obtain ⟨j, rfl⟩ : ∃ j, k = j + 1 := ⟨k - 1, by omega⟩
    have hdown := (roundHalfEven_le_iff hden j).1 (Nat.lt_succ_iff.1 hlt)
    have hexpand : (2 * j + 1) * den = 2 * (j * den) + den := by grind
    rw [Nat.succ_mul] at h
    rcases hdown with hdown | ⟨hdown, -⟩
    · omega
    · omega

theorem roundHalfEven_mono {num den num' den' : Nat} (hden : 0 < den) (hden' : 0 < den')
    (hle : num * den' ≤ num' * den) : roundHalfEven num den ≤ roundHalfEven num' den' := by
  rw [roundHalfEven_le_iff hden]
  exact ((roundHalfEven_le_iff hden' _).1 (Nat.le_refl _)).of_le hden hden' hle

/-! ## Units -/

/-- The ranks of one binade have multiples of one step, `2^shift`, as their magnitudes, up to and
including the first rank of the next binade. -/
theorem units_binade {shift k : Nat} (hhigh : k ≤ 2 ^ 53) (hlow : 2 ^ 52 ≤ k ∨ shift = 0) :
    units (shift * 2 ^ 52 + k) = k * 2 ^ shift := by
  rw [units]
  rcases Nat.lt_or_ge k (2 ^ 52) with hk | hk
  · obtain rfl : shift = 0 := by omega
    rw [if_pos (by omega)]
    omega
  · rw [if_neg (by omega)]
    rcases Nat.eq_or_lt_of_le hhigh with rfl | hk'
    -- The upper end is the first rank of the next binade, whose step is twice as long.
    · have hmod : (shift * 2 ^ 52 + 2 ^ 53) % 2 ^ 52 = 0 := by omega
      have hdiv : (shift * 2 ^ 52 + 2 ^ 53) / 2 ^ 52 - 1 = shift + 1 := by omega
      rw [hmod, hdiv, Nat.pow_succ 2 shift]
      grind
    · have hmod : 2 ^ 52 + (shift * 2 ^ 52 + k) % 2 ^ 52 = k := by omega
      have hdiv : (shift * 2 ^ 52 + k) / 2 ^ 52 - 1 = shift := by omega
      rw [hmod, hdiv]

/-- Every rank lies in a binade. -/
theorem exists_binade (r : Nat) :
    ∃ shift k, r = shift * 2 ^ 52 + k ∧ k < 2 ^ 53 ∧ (2 ^ 52 ≤ k ∨ shift = 0) := by
  rcases Nat.lt_or_ge r (2 ^ 52) with hr | hr
  · exact ⟨0, r, by omega, by omega, .inr rfl⟩
  · exact ⟨r / 2 ^ 52 - 1, 2 ^ 52 + r % 2 ^ 52, by omega, by omega, .inl (by omega)⟩

theorem units_lt_succ (r : Nat) : units r < units (r + 1) := by
  obtain ⟨shift, k, rfl, hhigh, hlow⟩ := exists_binade r
  rw [Nat.add_assoc, units_binade (Nat.le_of_lt hhigh) hlow, units_binade hhigh (by omega)]
  exact Nat.mul_lt_mul_of_pos_right (Nat.lt_succ_self k) (Nat.two_pow_pos shift)

theorem units_mono {r s : Nat} (h : r ≤ s) : units r ≤ units s := by
  induction h with
  | refl => exact Nat.le_refl _
  | step _ ih => exact Nat.le_trans ih (Nat.le_of_lt (units_lt_succ _))

/-! ## Ranks -/

/-- The rank before it is cut off at infinity. -/
def unboundedRank (num den : Nat) : Nat :=
  let scaled := num * 2 ^ 1074
  let shift := (scaled / den).log2 - 52
  shift * 2 ^ 52 + roundHalfEven scaled (den * 2 ^ shift)

/-- The binade of a quotient: its step leaves at most 53 bits, and 53 unless the step is the
least. -/
theorem quotient_binade (scaled : Nat) {den : Nat} (hden : 0 < den) :
    scaled < 2 ^ 53 * (den * 2 ^ ((scaled / den).log2 - 52)) ∧
      ((scaled / den).log2 - 52 = 0 ∨
        2 ^ 52 * (den * 2 ^ ((scaled / den).log2 - 52)) ≤ scaled) := by
  have hhigh : scaled / den < 2 ^ ((scaled / den).log2 + 1) := Nat.lt_log2_self
  constructor
  · have hquotient : scaled / den < 2 ^ 53 * 2 ^ ((scaled / den).log2 - 52) := by
      rw [← Nat.pow_add]
      exact Nat.lt_of_lt_of_le hhigh (Nat.pow_le_pow_right (by decide) (by omega))
    rw [Nat.div_lt_iff_lt_mul hden] at hquotient
    calc scaled < 2 ^ 53 * 2 ^ ((scaled / den).log2 - 52) * den := hquotient
      _ = 2 ^ 53 * (den * 2 ^ ((scaled / den).log2 - 52)) := by grind
  · rcases Nat.eq_zero_or_pos ((scaled / den).log2 - 52) with hzero | hpos
    · exact .inl hzero
    · right
      have hne : scaled / den ≠ 0 := by
        intro h
        rw [h] at hpos
        exact absurd hpos (by decide)
      have hlow : 2 ^ 52 * 2 ^ ((scaled / den).log2 - 52) ≤ scaled / den := by
        rw [← Nat.pow_add]
        have hexponent : 52 + ((scaled / den).log2 - 52) = (scaled / den).log2 := by omega
        rw [hexponent]
        exact Nat.log2_self_le hne
      rw [Nat.le_div_iff_mul_le hden] at hlow
      calc 2 ^ 52 * (den * 2 ^ ((scaled / den).log2 - 52))
          = 2 ^ 52 * 2 ^ ((scaled / den).log2 - 52) * den := by grind
        _ ≤ scaled := hlow

/-- **Rounding to a rank as a comparison**, before the cut at infinity. -/
theorem unboundedRank_le_iff {num den : Nat} (hden : 0 < den) (r : Nat) :
    unboundedRank num den ≤ r ↔
      RoundsDown (num * 2 ^ 1074) den (units r + units (r + 1)) r := by
  simp only [unboundedRank]
  obtain ⟨hhigh, hlow⟩ := quotient_binade (num * 2 ^ 1074) hden
  generalize num * 2 ^ 1074 = scaled at hhigh hlow ⊢
  generalize (scaled / den).log2 - 52 = shift at hhigh hlow ⊢
  have hstep : 0 < den * 2 ^ shift := Nat.mul_pos hden (Nat.two_pow_pos shift)
  -- The rounded number of steps stays in the binade, its upper end included.
  have hmost : roundHalfEven scaled (den * 2 ^ shift) ≤ 2 ^ 53 := by
    rw [roundHalfEven_le_iff hstep]
    left
    have : (2 * 2 ^ 53 + 1) * (den * 2 ^ shift) =
        2 * (2 ^ 53 * (den * 2 ^ shift)) + den * 2 ^ shift := by grind
    omega
  have hleast : shift = 0 ∨ 2 ^ 52 ≤ roundHalfEven scaled (den * 2 ^ shift) := by
    rcases hlow with hzero | hlow
    · exact .inl hzero
    · right
      have hexact := roundHalfEven_exact (k := 2 ^ 52) hstep rfl
      rw [← hexact]
      exact roundHalfEven_mono hstep hstep (Nat.mul_le_mul_right _ hlow)
  rcases Nat.lt_or_ge r (shift * 2 ^ 52 + 2 ^ 53) with hr | hr
  · by_cases hbinade : shift = 0 ∨ shift * 2 ^ 52 + 2 ^ 52 ≤ r
    · -- Inside the binade the neighbours are one step apart.
      obtain ⟨k, rfl⟩ : ∃ k, r = shift * 2 ^ 52 + k := ⟨r - shift * 2 ^ 52, by omega⟩
      have hk : 2 ^ 52 ≤ k ∨ shift = 0 := by omega
      have hparity : (shift * 2 ^ 52 + k) % 2 = k % 2 := by omega
      have hsum : (k * 2 ^ shift + (k + 1) * 2 ^ shift) * den =
          (2 * k + 1) * (den * 2 ^ shift) := by grind
      rw [Nat.add_assoc, units_binade (by omega) hk, units_binade (by omega) (by omega),
        RoundsDown, hparity, hsum, Nat.add_le_add_iff_left, roundHalfEven_le_iff hstep, RoundsDown]
    · -- Below the binade lies no rank that is reached.
      have habove : ¬ shift * 2 ^ 52 + roundHalfEven scaled (den * 2 ^ shift) ≤ r := by omega
      refine iff_of_false habove ?_
      have hnext : units (r + 1) ≤ 2 ^ 52 * 2 ^ shift := by
        rw [← units_binade (by decide) (.inl (Nat.le_refl _))]
        exact units_mono (by omega)
      have hsum : (units r + units (r + 1)) * den < 2 * scaled := by
        have hlow' : 2 ^ 52 * (den * 2 ^ shift) ≤ scaled := by omega
        have hunits : units r + units (r + 1) < 2 * (2 ^ 52 * 2 ^ shift) := by
          have := units_lt_succ r
          omega
        calc (units r + units (r + 1)) * den < 2 * (2 ^ 52 * 2 ^ shift) * den :=
              Nat.mul_lt_mul_of_pos_right hunits hden
          _ = 2 * (2 ^ 52 * (den * 2 ^ shift)) := by grind
          _ ≤ 2 * scaled := Nat.mul_le_mul_left 2 hlow'
      rintro (hdown | ⟨hdown, -⟩)
      · omega
      · omega
  · -- Above the binade every rank is an upper bound.
    refine iff_of_true (by omega) (.inl ?_)
    have hunits : 2 ^ 53 * 2 ^ shift ≤ units r := by
      rw [← units_binade (Nat.le_refl _) (.inl (by decide))]
      exact units_mono hr
    have hsum : 2 * (2 ^ 53 * 2 ^ shift) ≤ units r + units (r + 1) := by
      have := units_lt_succ r
      omega
    calc 2 * scaled < 2 * (2 ^ 53 * (den * 2 ^ shift)) := by omega
      _ = 2 * (2 ^ 53 * 2 ^ shift) * den := by grind
      _ ≤ (units r + units (r + 1)) * den := Nat.mul_le_mul_right den hsum

/-- **Rounding to a rank as a comparison**: the rank is at most that of a finite double if the
quotient goes down between this double and the next. -/
theorem nearest_le_iff {num den r : Nat} (hden : 0 < den) (hr : r < infinityRank) :
    nearest num den ≤ r ↔ RoundsDown (num * 2 ^ 1074) den (units r + units (r + 1)) r := by
  rw [← unboundedRank_le_iff hden]
  show min infinityRank (unboundedRank num den) ≤ r ↔ _
  omega

theorem nearest_le_infinityRank (num den : Nat) : nearest num den ≤ infinityRank :=
  Nat.min_le_left ..

/-- **A greater quotient has no lower rank.** -/
theorem nearest_mono {num den num' den' : Nat} (hden : 0 < den) (hden' : 0 < den')
    (hle : num * den' ≤ num' * den) : nearest num den ≤ nearest num' den' := by
  rcases Nat.lt_or_ge (nearest num' den') infinityRank with hfinite | hinfinite
  · rw [nearest_le_iff hden hfinite]
    have hdown := (nearest_le_iff hden' hfinite).1 (Nat.le_refl _)
    refine hdown.of_le hden hden' ?_
    calc num * 2 ^ 1074 * den' = num * den' * 2 ^ 1074 := Nat.mul_right_comm ..
      _ ≤ num' * den * 2 ^ 1074 := Nat.mul_le_mul_right _ hle
      _ = num' * 2 ^ 1074 * den := Nat.mul_right_comm ..
  · exact Nat.le_trans (nearest_le_infinityRank num den) hinfinite

theorem nearest_congr {num den num' den' : Nat} (hden : 0 < den) (hden' : 0 < den')
    (heq : num * den' = num' * den) : nearest num den = nearest num' den' :=
  Nat.le_antisymm (nearest_mono hden hden' (Nat.le_of_eq heq))
    (nearest_mono hden' hden (Nat.le_of_eq heq.symm))

/-- Below the nearest rank the quotient does not go down. -/
theorem le_of_lt_nearest {num den r : Nat} (hden : 0 < den) (hr : r < nearest num den) :
    (units r + units (r + 1)) * den ≤ 2 * (num * 2 ^ 1074) := by
  have hfinite := Nat.lt_of_lt_of_le hr (nearest_le_infinityRank num den)
  have hnot := mt (nearest_le_iff hden hfinite).2 (Nat.not_le_of_lt hr)
  exact Nat.le_of_not_lt fun hlt => hnot (.inl hlt)

/-- **A double is its own nearest.** -/
theorem nearest_exact {num den r : Nat} (hden : 0 < den) (hr : r < infinityRank)
    (h : num * 2 ^ 1074 = units r * den) : nearest num den = r := by
  apply Nat.le_antisymm
  · rw [nearest_le_iff hden hr, h]
    left
    have hstep := Nat.mul_lt_mul_of_pos_right (units_lt_succ r) hden
    rw [Nat.add_mul]
    omega
  · refine Nat.le_of_not_lt fun hlt => ?_
    obtain ⟨s, rfl⟩ : ∃ s, r = s + 1 := ⟨r - 1, by omega⟩
    have hs : s < infinityRank := Nat.lt_of_succ_lt hr
    have hdown := (nearest_le_iff hden hs).1 (Nat.lt_succ_iff.1 hlt)
    have hstep := Nat.mul_lt_mul_of_pos_right (units_lt_succ s) hden
    rw [h, RoundsDown, Nat.add_mul] at hdown
    rcases hdown with hdown | ⟨hdown, -⟩
    · omega
    · omega

/-- How far two numbers lie apart. -/
def gap (a b : Nat) : Nat :=
  (a - b) + (b - a)

/-- **No finite double is closer than the nearest.** -/
theorem nearest_closest {num den s : Nat} (hden : 0 < den) (hs : s < infinityRank) :
    gap (num * 2 ^ 1074) (units (nearest num den) * den) ≤
      gap (num * 2 ^ 1074) (units s * den) := by
  simp only [gap]
  -- On either side the neighbour of the nearest double is the best candidate, and the middle is not
  -- passed.
  rcases Nat.lt_trichotomy s (nearest num den) with hlt | heq | hgt
  · obtain ⟨r, hr⟩ : ∃ r, nearest num den = r + 1 := ⟨nearest num den - 1, by omega⟩
    have hup : (units r + units (r + 1)) * den ≤ 2 * (num * 2 ^ 1074) :=
      le_of_lt_nearest hden (by omega)
    have hbelow : units s * den ≤ units r * den := Nat.mul_le_mul_right den (units_mono (by omega))
    have hstep : units r * den ≤ units (r + 1) * den :=
      Nat.mul_le_mul_right den (Nat.le_of_lt (units_lt_succ r))
    rw [Nat.add_mul] at hup
    rw [hr]
    omega
  · exact Nat.le_of_eq (by rw [heq])
  · have hdown := (nearest_le_iff hden (Nat.lt_trans hgt hs)).1 (Nat.le_refl _)
    have habove : units (nearest num den + 1) * den ≤ units s * den :=
      Nat.mul_le_mul_right den (units_mono hgt)
    have hstep : units (nearest num den) * den ≤ units (nearest num den + 1) * den :=
      Nat.mul_le_mul_right den (Nat.le_of_lt (units_lt_succ _))
    rw [RoundsDown, Nat.add_mul] at hdown
    omega

end DeskCalc.Binary64
