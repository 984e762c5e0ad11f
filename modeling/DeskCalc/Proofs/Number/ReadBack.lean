import DeskCalc.Number.Decimal
import DeskCalc.Proofs.Number.Bits
import DeskCalc.Proofs.Number.Nearest

/-!
# Decimal texts read back

The text of a finite magnitude is a decimal whose nearest double is that magnitude. The search for
the shortest one only returns what reads back, the text has the exact value of the parts it was
written for, and a text is read as the nearest double to its value.

* `nearest_shortest`: the shortest decimal has the rank it was searched for.
* `exists_digits`: the digits of a text and their value.
* `read_text`: reading a text rounds the parts it was written for.
* `display_eq`: the text of a finite double.
-/

namespace DeskCalc.Decimal

open Binary64

/-! ## The shortest decimal -/

theorem one_pos : 0 < one := by decide +kernel

/-- A part is 5^-1074 of a unit. -/
theorem units_parts : 5 ^ 1074 * 2 ^ 1074 = one := by decide +kernel

/-- The exact magnitude reads back. -/
theorem nearest_exact_one {r : Nat} (hr : r < infinityRank) : nearest (exact r) one = r := by
  refine nearest_exact one_pos hr ?_
  rw [exact, Nat.mul_assoc, units_parts]

/-- Only what is accepted is found on a grid. -/
theorem accepted_of_onGrid {accepted : Nat → Bool} {parts grid q : Nat}
    (h : onGrid accepted parts grid = some q) : accepted q = true := by
  rw [onGrid] at h
  split at h
  · rename_i hbelow habove
    split at h
    · cases h
      exact hbelow
    · cases h
      exact habove
  · rename_i hbelow habove
    cases h
    exact hbelow
  · rename_i hbelow habove
    cases h
    exact habove
  · cases h

/-- The search returns what is accepted if it starts from that. -/
theorem accepted_coarsest {accepted : Nat → Bool} {parts : Nat} (h : accepted parts = true)
    (k : Nat) : accepted (coarsest accepted parts k) = true := by
  induction k with
  | zero => exact h
  | succ k ih =>
      rw [coarsest]
      cases hgrid : onGrid accepted parts (10 ^ (k + 1)) with
      | some q => exact accepted_of_onGrid hgrid
      | none => exact ih

/-- **The shortest decimal reads back.** -/
theorem nearest_shortest {r : Nat} (hr : r < infinityRank) : nearest (shortest r) one = r := by
  have hexact : readsBack r (exact r) = true := by
    rw [readsBack, beq_iff_eq]
    exact nearest_exact_one hr
  have hfound := accepted_coarsest hexact ((exact r).log2 * 30103 / 100000 + 1)
  rw [readsBack, beq_iff_eq] at hfound
  exact hfound

/-! ## Digits -/

/-- The digits after the point, while there are places enough for all of them, have the value of the
parts. -/
theorem fractionDigits_spec (places : Nat) {parts : Nat} (hlt : parts < one)
    (hplaces : one ∣ parts * 10 ^ places) :
    (∀ c ∈ fractionDigits places parts, c.isDigit = true) ∧
      (fractionDigits places parts).length ≤ places ∧
      Nat.ofDigitChars 10 (fractionDigits places parts) 0 * one =
        parts * 10 ^ (fractionDigits places parts).length := by
  induction places generalizing parts with
  | zero =>
      obtain rfl : parts = 0 := by
        rw [Nat.pow_zero, Nat.mul_one] at hplaces
        exact Nat.eq_zero_of_dvd_of_lt hplaces hlt
      simp [fractionDigits]
  | succ places ih =>
      rw [fractionDigits]
      by_cases hzero : parts = 0
      · simp [hzero]
      · rw [if_neg hzero]
        have hdigit : 10 * parts / one < 10 := by
          rw [Nat.div_lt_iff_lt_mul one_pos]
          exact Nat.mul_lt_mul_of_pos_left hlt (by decide)
        have hdivide : one * (10 * parts / one) + 10 * parts % one = 10 * parts :=
          Nat.div_add_mod (10 * parts) one
        -- One place is used up, and the rest needs one less.
        have hrest : one ∣ 10 * parts % one * 10 ^ places := by
          have hall : one ∣ (one * (10 * parts / one) + 10 * parts % one) * 10 ^ places := by
            rw [hdivide, Nat.mul_comm 10, Nat.mul_assoc, ← Nat.pow_succ']
            exact hplaces
          rw [Nat.add_mul, Nat.mul_assoc] at hall
          exact (Nat.dvd_add_right (Nat.dvd_mul_right _ _)).1 hall
        obtain ⟨hdigits, hlength, hvalue⟩ := ih (Nat.mod_lt _ one_pos) hrest
        generalize fractionDigits places (10 * parts % one) = rest at hdigits hlength hvalue ⊢
        refine ⟨?_, Nat.succ_le_succ hlength, ?_⟩
        · intro c hc
          rcases List.mem_cons.1 hc with hfirst | htail
          · rw [hfirst, Nat.isDigit_digitChar]
            exact decide_eq_true hdigit
          · exact hdigits c htail
        · rw [Nat.ofDigitChars_cons_digitChar_of_lt_ten hdigit,
            Nat.ofDigitChars_eq_ofDigitChars_zero, Nat.mul_zero, Nat.zero_add, Nat.add_mul, hvalue,
            List.length_cons]
          calc 10 ^ rest.length * (10 * parts / one) * one + 10 * parts % one * 10 ^ rest.length
              = (one * (10 * parts / one) + 10 * parts % one) * 10 ^ rest.length := by grind
            _ = parts * 10 ^ (rest.length + 1) := by rw [hdivide, Nat.pow_succ]; grind

/-- A fraction with its point, nothing if there is no fraction. -/
def behindPoint : Text → Text
  | [] => []
  | digits => '.' :: digits

theorem text_eq (parts : Nat) :
    text parts =
      Nat.toDigits 10 (parts / one) ++ behindPoint (fractionDigits 1074 (parts % one)) := by
  rw [text]
  generalize fractionDigits 1074 (parts % one) = fraction
  cases fraction with
  | nil => exact (List.append_nil _).symm
  | cons d digits => rfl

/-- **The digits of a text** and their value. -/
theorem exists_digits (parts : Nat) :
    ∃ whole fraction, text parts = whole ++ behindPoint fraction ∧ whole ≠ [] ∧
      (∀ c ∈ whole, c.isDigit = true) ∧ (∀ c ∈ fraction, c.isDigit = true) ∧
      fraction.length ≤ 1074 ∧
      Nat.ofDigitChars 10 (whole ++ fraction) 0 * one = parts * 10 ^ fraction.length := by
  have hlt : parts % one < one := Nat.mod_lt parts one_pos
  have hplaces : one ∣ parts % one * 10 ^ 1074 := by
    rw [← one]
    exact Nat.dvd_mul_left one (parts % one)
  obtain ⟨hdigits, hlength, hvalue⟩ := fractionDigits_spec 1074 hlt hplaces
  refine ⟨Nat.toDigits 10 (parts / one), fractionDigits 1074 (parts % one),
    text_eq parts, Nat.toDigits_ne_nil, ?_, hdigits, hlength, ?_⟩
  · exact fun c hc => Nat.isDigit_of_mem_toDigits (by decide) (by decide) hc
  · have hdivide : one * (parts / one) + parts % one = parts := Nat.div_add_mod parts one
    generalize fractionDigits 1074 (parts % one) = fraction at hvalue ⊢
    rw [Nat.ofDigitChars_append, Nat.ofDigitChars_ten_toDigits,
      Nat.ofDigitChars_eq_ofDigitChars_zero, Nat.add_mul, hvalue]
    calc 10 ^ fraction.length * (parts / one) * one + parts % one * 10 ^ fraction.length
        = (one * (parts / one) + parts % one) * 10 ^ fraction.length := by grind
      _ = parts * 10 ^ fraction.length := by rw [hdivide]

/-! ## Reading -/

theorem nearest_zero {den : Nat} (hden : 0 < den) : nearest 0 den = 0 := by
  refine nearest_exact hden (by decide) ?_
  have hunits : units 0 = 0 := by decide
  simp only [hunits, Nat.zero_mul]

/-- A coefficient with its last digit at most 1074 places behind the point is rounded. -/
theorem scaledRank_neg (coefficient : Nat) {places : Nat} (hplaces : places ≤ 1074) :
    scaledRank coefficient (0 - places) = nearest coefficient (10 ^ places) := by
  unfold scaledRank
  by_cases hzero : coefficient = 0
  · rw [if_pos hzero, hzero, nearest_zero (Nat.pow_pos (by decide))]
  · rw [if_neg hzero]
    cases places with
    | zero =>
        have hpower : (0 : Int) - ((0 : Nat) : Int) = .ofNat 0 := rfl
        simp only [hpower, Nat.not_lt_zero, if_false, Nat.pow_zero, Nat.mul_one]
    | succ p =>
        have hpower : (0 : Int) - ((p + 1 : Nat) : Int) = .negSucc p := by omega
        have hnear : ¬ coefficient.log2 + 1100 < p + 1 := by omega
        simp only [hpower, hnear, if_false]

/-- A whole part and a fraction are read as what their digits denote. -/
theorem read_digits {whole fraction : Text} (hwhole : ∀ c ∈ whole, c.isDigit = true) :
    read (whole ++ behindPoint fraction) 0 =
      ofRank false (scaledRank (Nat.ofDigitChars 10 (whole ++ fraction) 0)
        (0 - fraction.length)) := by
  have hpoint : ∀ c ∈ whole, (c != '.') = true := by
    intro c hc
    rw [bne_iff_ne]
    rintro rfl
    cases hwhole _ hc
  rw [read, List.takeWhile_append_of_pos hpoint, List.dropWhile_append_of_pos hpoint]
  cases fraction with
  | nil => simp [behindPoint]
  | cons d digits => simp [behindPoint]

/-- **Reading the text of a number of parts gives the double nearest to it.** -/
theorem read_text (parts : Nat) : read (text parts) 0 = ofRank false (nearest parts one) := by
  obtain ⟨whole, fraction, htext, -, hwhole, -, hlength, hvalue⟩ := exists_digits parts
  rw [htext, read_digits hwhole, scaledRank_neg _ hlength]
  exact congrArg (ofRank false) (nearest_congr (Nat.pow_pos (by decide)) one_pos hvalue)

/-- The text of a finite magnitude reads back. -/
theorem read_text_shortest {r : Nat} (hr : r < infinityRank) :
    read (text (shortest r)) 0 = ofRank false r := by
  rw [read_text, nearest_shortest hr]

theorem text_shortest_zero : text (shortest 0) = ['0'] := by decide +kernel

/-- **The text of a finite double**: the shortest decimal of its magnitude, after a minus sign if it
is negative. -/
theorem display_eq {x : Float} (h : x.isFinite = true) :
    display x = if x < 0 then '-' :: text (shortest (rank x)) else text (shortest (rank x)) := by
  have hr := (isFinite_iff x).1 h
  rw [display]
  rw [isNaN_of_isFinite h, if_neg Bool.false_ne_true]
  by_cases hzero : rank x = 0
  -- Both zeros are written without a sign.
  · have hneg : ¬ x < 0 := fun hlt => ((lt_zero_iff h).1 hlt).2 hzero
    rw [if_pos hzero, if_neg hneg, hzero, text_shortest_zero]
  · rw [if_neg hzero, if_neg (Nat.ne_of_lt hr)]
    cases hsign : hasSign x with
    | false =>
        have hneg : ¬ x < 0 := fun hlt => by simp [lt_zero_iff h, hsign] at hlt
        simp only [if_neg hneg, Bool.false_eq_true, if_false]
    | true =>
        have hneg : x < 0 := (lt_zero_iff h).2 ⟨hsign, hzero⟩
        simp only [if_pos hneg, if_true]

end DeskCalc.Decimal
