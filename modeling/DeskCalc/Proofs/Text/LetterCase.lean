import DeskCalc.Canonical.Lexeme

/-!
# Letter case

No scanner looks at the case of a letter: what a numeral or a word is does not change when a text
is brought to lower case, and neither does where it ends. So splitting commutes with `Text.lower`,
and texts that differ in case alone fall into lexemes that differ in case alone.

* `toNat_toLower`: lower case as arithmetic on codes, from which the classes of characters follow.
* `trim_lower`, `splitNumeral_lower`, `lexemes_lower`: trimming and the scanners commute with lower
  case.
-/

namespace DeskCalc

namespace Text

/-! ## Characters -/

/-- Lower case moves the codes of the letters `A` to `Z` by 32. -/
theorem toNat_toLower (c : Char) :
    c.toLower.toNat = if 65 ≤ c.toNat ∧ c.toNat ≤ 90 then c.toNat + 32 else c.toNat := by
  have hrange : (c.val ≥ 'A'.val ∧ c.val ≤ 'Z'.val) ↔ (65 ≤ c.toNat ∧ c.toNat ≤ 90) := by
    rw [ge_iff_le, UInt32.le_iff_toNat_le, UInt32.le_iff_toNat_le]
    rfl
  by_cases h : c.val ≥ 'A'.val ∧ c.val ≤ 'Z'.val
  · have hcode := hrange.1 h
    have hmoved : c.toLower.val = c.val + 32 := congrArg Char.val (dif_pos h)
    rw [if_pos hcode, Char.toNat, hmoved, UInt32.toNat_add]
    show (c.toNat + 32) % 2 ^ 32 = c.toNat + 32
    omega
  · have hkept : c.toLower = c := dif_neg h
    rw [hkept, if_neg fun hcode => h (hrange.2 hcode)]

/-- The digits are the characters from 48 to 57. -/
theorem isDigit_iff (c : Char) : c.isDigit = true ↔ 48 ≤ c.toNat ∧ c.toNat ≤ 57 := by
  simp only [Char.isDigit, Bool.and_eq_true, decide_eq_true_eq, ge_iff_le, UInt32.le_iff_toNat_le]
  rfl

/-- The letters are the characters from 65 to 90 and from 97 to 122. -/
theorem isAlpha_iff (c : Char) :
    c.isAlpha = true ↔ (65 ≤ c.toNat ∧ c.toNat ≤ 90) ∨ (97 ≤ c.toNat ∧ c.toNat ≤ 122) := by
  have hcases : c.isAlpha = (decide (c.val ≥ 'A'.val ∧ c.val ≤ 'Z'.val) ||
      decide (c.val ≥ 'a'.val) && decide (c.val ≤ 'z'.val)) := rfl
  simp only [hcases, Bool.or_eq_true, Bool.and_eq_true, decide_eq_true_eq, ge_iff_le,
    UInt32.le_iff_toNat_le]
  rfl

/-- A character of a word is no blank. -/
theorem isBlank_of_isWordChar {c : Char} (h : isWordChar c = true) : isBlank c = false := by
  have hcode : (65 ≤ c.toNat ∧ c.toNat ≤ 90 ∨ 97 ≤ c.toNat ∧ c.toNat ≤ 122) ∨
      48 ≤ c.toNat ∧ c.toNat ≤ 57 ∨ c.toNat = 95 := by
    rw [isWordChar, Char.isAlphanum, Bool.or_eq_true, Bool.or_eq_true, isAlpha_iff, isDigit_iff,
      beq_iff_eq] at h
    rcases h with (hletter | hdigit) | rfl
    · exact .inl hletter
    · exact .inr (.inl hdigit)
    · exact .inr (.inr rfl)
  simp [isBlank, blankRanges]
  omega

/-- A character that is no letter has itself alone as its other case. -/
theorem toLower_eq_iff {c x : Char} (hx : x.isAlpha = false) : c.toLower = x ↔ c = x := by
  have hletter : ¬ (x.isAlpha = true) := by simp [hx]
  rw [isAlpha_iff] at hletter
  have hcode := toNat_toLower c
  rw [← Char.toNat_inj, ← Char.toNat_inj, hcode]
  split <;> omega

theorem toLower_beq {x : Char} (hx : x.isAlpha = false) (c : Char) :
    (c.toLower == x) = (c == x) := by
  rw [Bool.eq_iff_iff, beq_iff_eq, beq_iff_eq]
  exact toLower_eq_iff hx

@[simp] theorem isAlpha_toLower (c : Char) : c.toLower.isAlpha = c.isAlpha := by
  rw [Bool.eq_iff_iff, isAlpha_iff, isAlpha_iff, toNat_toLower]
  split <;> omega

@[simp] theorem isDigit_toLower (c : Char) : c.toLower.isDigit = c.isDigit := by
  rw [Bool.eq_iff_iff, isDigit_iff, isDigit_iff, toNat_toLower]
  split <;> omega

@[simp] theorem isAlphanum_toLower (c : Char) : c.toLower.isAlphanum = c.isAlphanum := by
  rw [Char.isAlphanum, isAlpha_toLower, isDigit_toLower, Char.isAlphanum]

/-- Lower case changes ASCII characters alone. -/
theorem toLower_of_ge {c : Char} (h : 128 ≤ c.toLower.toNat) : c.toLower = c := by
  rw [← Char.toNat_inj]
  rw [toNat_toLower] at h ⊢
  split at h <;> split <;> omega

/-- Lower case keeps the decimal digits apart from all else. -/
@[simp] theorem isDecimalDigit_toLower (c : Char) :
    isDecimalDigit c.toLower = isDecimalDigit c := by
  by_cases hascii : 128 ≤ c.toLower.toNat
  -- Lower case leaves every character past ASCII alone, and below it the decimal digits are the
  -- ASCII digits.
  · rw [toLower_of_ge hascii]
  · have hsmall : ¬ 128 ≤ c.toNat := by
      rw [toNat_toLower] at hascii
      split at hascii <;> omega
    simp only [isDecimalDigit, isDigit_toLower, hascii, hsmall, decide_false, Bool.false_and]

@[simp] theorem startsWord_toLower (c : Char) : startsWord c.toLower = startsWord c := by
  rw [startsWord, isAlpha_toLower, toLower_beq rfl]
  rfl

@[simp] theorem isWordChar_toLower (c : Char) : isWordChar c.toLower = isWordChar c := by
  rw [isWordChar, isAlphanum_toLower, toLower_beq rfl]
  rfl

@[simp] theorem isBlank_toLower (c : Char) : isBlank c.toLower = isBlank c := by
  cases hletter : c.isAlpha with
  | false => rw [(toLower_eq_iff hletter).2 rfl]
  | true =>
      have hword : ∀ x : Char, x.isAlpha = true → isBlank x = false := fun x hx =>
        isBlank_of_isWordChar (by rw [isWordChar, Char.isAlphanum, hx]; rfl)
      rw [hword c hletter, hword c.toLower ((isAlpha_toLower c).trans hletter)]

/-- Lower case keeps the two letters that start an exponent. -/
theorem isExponentLetter_toLower (c : Char) :
    (c.toLower == 'e' || c.toLower == 'E') = (c == 'e' || c == 'E') := by
  rw [Bool.eq_iff_iff]
  simp only [Bool.or_eq_true, beq_iff_eq, ← Char.toNat_inj, toNat_toLower]
  have he : 'e'.toNat = 101 := rfl
  have hE : 'E'.toNat = 69 := rfl
  split <;> omega

@[simp] theorem lower_lower (t : Text) : lower (lower t) = lower t := by
  have hchar : ∀ c : Char, c.toLower.toLower = c.toLower := by
    intro c
    rw [← Char.toNat_inj, toNat_toLower c.toLower, toNat_toLower c]
    split
    · rw [if_neg (by omega)]
    · rfl
  simp [lower, hchar]

@[simp] theorem isEmpty_lower (t : Text) : (lower t).isEmpty = t.isEmpty := by
  simp [lower]

/-- A text without letters is its own lower case. -/
theorem lower_eq_self {t : Text} (h : ∀ c ∈ t, c.isAlpha = false) : lower t = t := by
  have hchar : ∀ c ∈ t, c.toLower = id c := fun c hc => (toLower_eq_iff (h c hc)).2 rfl
  rw [lower, List.map_congr_left hchar, List.map_id]

theorem length_eq_of_lower_eq {t u : Text} (h : lower t = lower u) : t.length = u.length := by
  have hlength := congrArg List.length h
  rwa [lower, lower, List.length_map, List.length_map] at hlength

/-! ## Splitting -/

/-- Taking and dropping by a class that knows no case commutes with lower case. -/
theorem takeWhile_lower {p : Char → Bool} (hp : ∀ c, p c.toLower = p c) (t : Text) :
    (lower t).takeWhile p = lower (t.takeWhile p) := by
  have hcomp : p ∘ Char.toLower = p := funext hp
  rw [lower, List.takeWhile_map, hcomp, lower]

theorem dropWhile_lower {p : Char → Bool} (hp : ∀ c, p c.toLower = p c) (t : Text) :
    (lower t).dropWhile p = lower (t.dropWhile p) := by
  have hcomp : p ∘ Char.toLower = p := funext hp
  rw [lower, List.dropWhile_map, hcomp, lower]

/-- The blanks around a text are trimmed alike in lower case. -/
theorem trim_lower (t : Text) : trim (lower t) = lower (trim t) := by
  have hreverse : ∀ u : Text, (lower u).reverse = lower u.reverse := fun u => List.map_reverse.symm
  rw [trim, trim, trimEnd, trimEnd, dropWhile_lower isBlank_toLower, hreverse,
    dropWhile_lower isBlank_toLower, hreverse]

theorem splitSign_lower (t : Text) :
    splitSign (lower t) = (lower (splitSign t).1, lower (splitSign t).2) := by
  fun_cases splitSign t with
  | case1 t => rfl
  | case2 t => rfl
  | case3 t hplus hminus =>
      cases t with
      | nil => rfl
      | cons c t =>
          have hplus' : c.toLower ≠ '+' := fun h =>
            hplus t (by rw [(toLower_eq_iff rfl).1 h])
          have hminus' : c.toLower ≠ '-' := fun h =>
            hminus t (by rw [(toLower_eq_iff rfl).1 h])
          simp [lower, splitSign, hplus', hminus']

/-- The exponent part is split off alike in lower case. -/
theorem splitExponent_lower {digit : Char → Bool} (hdigit : ∀ c, digit c.toLower = digit c)
    (t : Text) : splitExponent digit (lower t) =
      (lower (splitExponent digit t).1, lower (splitExponent digit t).2) := by
  cases t with
  | nil => rfl
  | cons c t =>
      show splitExponent digit (c.toLower :: lower t) = _
      simp only [splitExponent, splitSign_lower, takeWhile_lower hdigit, dropWhile_lower hdigit,
        isExponentLetter_toLower, isEmpty_lower]
      split <;> simp [lower]

theorem splitMantissa_lower (t : Text) :
    splitMantissa (lower t) = (lower (splitMantissa t).1, lower (splitMantissa t).2) := by
  simp only [splitMantissa, takeWhile_lower isDecimalDigit_toLower,
    dropWhile_lower isDecimalDigit_toLower]
  cases t.dropWhile isDecimalDigit with
  | nil => rfl
  | cons c rest =>
      by_cases hpoint : c = '.'
      · subst hpoint
        have hlower : lower ('.' :: rest) = '.' :: lower rest := rfl
        simp only [hlower, takeWhile_lower isDecimalDigit_toLower,
          dropWhile_lower isDecimalDigit_toLower, isEmpty_lower]
        split <;> simp [lower]
      · have hpoint' : c.toLower ≠ '.' := fun h => hpoint ((toLower_eq_iff rfl).1 h)
        simp [lower, hpoint, hpoint']

theorem splitNumeral_lower (t : Text) :
    splitNumeral (lower t) = (lower (splitNumeral t).1, lower (splitNumeral t).2) := by
  simp only [splitNumeral, splitMantissa_lower, splitExponent_lower isDecimalDigit_toLower,
    isEmpty_lower]
  split <;> simp [lower]

end Text

open Text

/-- The lexeme with its letters in lower case. -/
def Lexeme.lower : Lexeme → Lexeme
  | .numeral t => .numeral (Text.lower t)
  | .word t => .word (Text.lower t)
  | .other c => .other c.toLower

/-- A text falls into lexemes alike in lower case. -/
theorem lexemes_lower (t : Text) : lexemes (lower t) = (lexemes t).map Lexeme.lower := by
  have hsplit : ∀ c t, splitNumeral (c.toLower :: lower t) =
      (lower (splitNumeral (c :: t)).1, lower (splitNumeral (c :: t)).2) :=
    fun c t => splitNumeral_lower (c :: t)
  fun_induction lexemes t with
  | case1 => simp [lower, lexemes]
  | case2 c t hnumeral hstart ih =>
      show lexemes (c.toLower :: lower t) = _
      rw [lexemes]
      simp only [hsplit, isEmpty_lower, hnumeral, startsWord_toLower, hstart, if_true,
        takeWhile_lower isWordChar_toLower, dropWhile_lower isWordChar_toLower, ih]
      rfl
  | case3 c t hnumeral hstart ih =>
      show lexemes (c.toLower :: lower t) = _
      rw [lexemes]
      simp only [hsplit, isEmpty_lower, hnumeral, startsWord_toLower, hstart, if_true, ih]
      rfl
  | case4 c t hnumeral ih =>
      show lexemes (c.toLower :: lower t) = _
      rw [lexemes]
      simp only [hsplit, isEmpty_lower, hnumeral, ih]
      rfl

end DeskCalc
