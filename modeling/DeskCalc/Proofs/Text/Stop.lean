import DeskCalc.Proofs.Text.LetterCase
import DeskCalc.Proofs.Text.Numeral

/-!
# Characters that stop every scanner

Texts that are put one after the other fall into the pieces of both, if nothing goes on across the
place where they meet. An operator, a parenthesis, a comma or a blank sees to that: no numeral and
no word has one inside. Only a sign can stand inside a numeral, and only where it follows the letter
of an exponent and a digit follows it.

* `Stops`: nothing goes on across the character, whatever is in front of it.
* `Parts`: nothing goes on across the character between two given texts.
* `expectsExponent`, `Detached`: texts between which nothing goes on, whatever comes later.
* `takeWhile_stop`, `splitExponent_parts`, `splitNumeral_parts`: what is split off before it.
* `lexemes_parts`, `lexemes_stop`: the lexemes before and after it.
-/

namespace DeskCalc

namespace Text

/-- Nothing goes on across the character `c` in front of the text `t`: it is in no run of digits and
in no word, it is no point, and if it is a sign, it is not that of an exponent. -/
structure Stops (c : Char) (t : Text) : Prop where
  not_digit : isDecimalDigit c = false
  not_wordChar : isWordChar c = false
  ne_point : c ≠ '.'
  no_exponent : c = '+' ∨ c = '-' → t.head?.any isDecimalDigit = false

theorem Stops.alone {c : Char} {t : Text} (h : Stops c t) : Stops c [] :=
  ⟨h.not_digit, h.not_wordChar, h.ne_point, fun _ => rfl⟩

/-- Nothing goes on across the character `c` between the texts `t` and `u`: it stops what is in
front of it, and where that can be a mantissa with the letter of an exponent, also in front of `u`.
-/
structure Parts (t : Text) (c : Char) (u : Text) : Prop where
  alone : Stops c []
  no_exponent : ∀ v d e, t = v ++ [d, e] → isDecimalDigit d = true ∨ d = '.' → e = 'e' ∨ e = 'E' →
    Stops c u

theorem Stops.parts {c : Char} {u : Text} (h : Stops c u) (t : Text) : Parts t c u :=
  ⟨h.alone, fun _ _ _ _ _ _ => h⟩

theorem Parts.of_append {t u v : Text} {c : Char} (h : Parts (v ++ t) c u) : Parts t c u :=
  ⟨h.alone, fun w d e ht => h.no_exponent (v ++ w) d e (by rw [ht, List.append_assoc])⟩

/-! ## Runs -/

theorem takeWhile_stop {p : Char → Bool} {c : Char} (hc : p c = false) (t u : Text) :
    (t ++ c :: u).takeWhile p = t.takeWhile p := by
  induction t with
  | nil => simp [hc]
  | cons d t ih => rw [List.cons_append, List.takeWhile_cons, List.takeWhile_cons, ih]

theorem dropWhile_stop {p : Char → Bool} {c : Char} (hc : p c = false) (t u : Text) :
    (t ++ c :: u).dropWhile p = t.dropWhile p ++ c :: u := by
  induction t with
  | nil => simp [hc]
  | cons d t ih =>
      rw [List.cons_append, List.dropWhile_cons, List.dropWhile_cons, ih]
      split <;> rfl

/-! ## Numerals -/

theorem splitSign_append_of_ne_nil {t : Text} (ht : t ≠ []) (u : Text) :
    splitSign (t ++ u) = ((splitSign t).1, (splitSign t).2 ++ u) := by
  cases t with
  | nil => exact absurd rfl ht
  | cons c t =>
      by_cases hplus : c = '+'
      · subst hplus
        rfl
      · by_cases hminus : c = '-'
        · subst hminus
          rfl
        · rw [List.cons_append, splitSign_of_ne hplus hminus, splitSign_of_ne hplus hminus]
          rfl

/-- Behind a sign that stops there are no digits. -/
theorem Stops.takeWhile_splitSign {c : Char} {u : Text} (h : Stops c u) {digit : Char → Bool}
    (hdigit : ∀ x, digit x = true → isDecimalDigit x = true) :
    (splitSign (c :: u)).2.takeWhile digit = [] := by
  have hdigits : ∀ v : Text, v.head?.any isDecimalDigit = false → v.takeWhile digit = [] := by
    intro v hv
    cases v with
    | nil => rfl
    | cons x v =>
        refine List.takeWhile_cons_of_neg fun hx => ?_
        have hnone : isDecimalDigit x = false := hv
        rw [hdigit x hx] at hnone
        cases hnone
  by_cases hplus : c = '+'
  · subst hplus
    exact hdigits u (h.no_exponent (.inl rfl))
  · by_cases hminus : c = '-'
    · subst hminus
      exact hdigits u (h.no_exponent (.inr rfl))
    · rw [splitSign_of_ne hplus hminus]
      exact hdigits (c :: u) h.not_digit

theorem splitExponent_parts {digit : Char → Bool}
    (hdigit : ∀ x, digit x = true → isDecimalDigit x = true) {c : Char} {t u : Text}
    (h : Stops c []) (hexponent : ∀ e, t = [e] → e = 'e' ∨ e = 'E' → Stops c u) :
    splitExponent digit (t ++ c :: u) =
      ((splitExponent digit t).1, (splitExponent digit t).2 ++ c :: u) := by
  have hc : digit c = false := by
    rw [← Bool.not_eq_true]
    intro hc
    have hnone := h.not_digit
    rw [hdigit c hc] at hnone
    cases hnone
  have hother : ∀ e v, ¬ (e = 'e' ∨ e = 'E') → splitExponent digit (e :: v) = ([], e :: v) := by
    intro e v he
    have hletter : (e == 'e' || e == 'E') = false := by simpa using he
    simp only [splitExponent, hletter, Bool.false_and, Bool.false_eq_true, if_false]
  cases t with
  | nil =>
      refine hother c u ?_
      rintro (rfl | rfl)
      · cases h.not_wordChar
      · cases h.not_wordChar
  | cons e t =>
      -- The sign, if there is one, stands before the character or is the character itself.
      by_cases hnil : t = []
      · subst hnil
        by_cases he : e = 'e' ∨ e = 'E'
        · have hnone : ∀ v : Text, (splitSign v).2.takeWhile digit = [] →
              splitExponent digit (e :: v) = ([], e :: v) := by
            intro v hv
            simp only [splitExponent, hv, List.isEmpty_nil, Bool.not_true, Bool.and_false,
              Bool.false_eq_true, if_false]
          rw [hnone [] rfl]
          exact hnone (c :: u) ((hexponent e rfl he).takeWhile_splitSign hdigit)
        · rw [hother e [] he]
          exact hother e (c :: u) he
      · rw [List.cons_append]
        simp only [splitExponent, splitSign_append_of_ne_nil hnil, takeWhile_stop hc,
          dropWhile_stop hc]
        split <;> rfl

theorem splitMantissa_stop {c : Char} (h : Stops c []) (t u : Text) :
    splitMantissa (t ++ c :: u) = ((splitMantissa t).1, (splitMantissa t).2 ++ c :: u) := by
  simp only [splitMantissa, takeWhile_stop h.not_digit, dropWhile_stop h.not_digit]
  cases t.dropWhile isDecimalDigit with
  | nil => simp [h.ne_point]
  | cons d rest =>
      by_cases hpoint : d = '.'
      · subst hpoint
        simp only [List.cons_append, takeWhile_stop h.not_digit, dropWhile_stop h.not_digit]
        split <;> rfl
      · simp [hpoint]

/-- **The numeral in front of a character that parts two texts** is that of the first. -/
theorem splitNumeral_parts {t u : Text} {c : Char} (h : Parts t c u) :
    splitNumeral (t ++ c :: u) = ((splitNumeral t).1, (splitNumeral t).2 ++ c :: u) := by
  simp only [splitNumeral, splitMantissa_stop h.alone]
  split
  · rfl
  · rename_i hmantissa
    -- The letter of an exponent stands behind the digit or the point in which the mantissa ends.
    have hexponent : ∀ e, (splitMantissa t).2 = [e] → e = 'e' ∨ e = 'E' → Stops c u := by
      intro e he
      have happend := splitMantissa_append t
      obtain ⟨v, d, hd, hends⟩ := splitMantissa_ends (t := t) (by simpa using hmantissa)
      rw [he] at happend
      rcases hends with hends | hends
      · exact h.no_exponent v d e (by rw [← happend, hends]; simp) (.inl hd)
      · exact h.no_exponent (v ++ [d]) '.' e (by rw [← happend, hends]; simp) (.inr rfl)
    rw [splitExponent_parts (fun _ hx => hx) h.alone hexponent]

/-! ## Texts that do not run together -/

/-- Whether a text ends as a mantissa with the letter of an exponent behind it. -/
def expectsExponent (t : Text) : Bool :=
  match t.reverse with
  | e :: d :: _ => (e == 'e' || e == 'E') && (isDecimalDigit d || d == '.')
  | _ => false

theorem expectsExponent_concat {x : Char} (hx : x ≠ 'e' ∧ x ≠ 'E') (t : Text) :
    expectsExponent (t ++ [x]) = false := by
  rw [expectsExponent, List.reverse_concat]
  cases t.reverse with
  | nil => rfl
  | cons d u => simp [hx]

theorem expectsExponent_lower (t : Text) : expectsExponent (lower t) = expectsExponent t := by
  rw [expectsExponent, lower, ← List.map_reverse, expectsExponent]
  rcases t.reverse with - | ⟨e, - | ⟨d, u⟩⟩
  · rfl
  · rfl
  · show ((e.toLower == 'e' || e.toLower == 'E') &&
      (isDecimalDigit d.toLower || d.toLower == '.')) = _
    rw [isExponentLetter_toLower, isDecimalDigit_toLower, toLower_beq rfl]

theorem parts_of_expectsExponent {t : Text} (ht : expectsExponent t = false) {c : Char}
    (hc : Stops c []) (u : Text) : Parts t c u := by
  refine ⟨hc, ?_⟩
  rintro v d e rfl hd he
  have hends : ((e == 'e' || e == 'E') && (isDecimalDigit d || d == '.')) = true := by
    simpa using ⟨he, hd⟩
  rw [expectsExponent, List.reverse_append] at ht
  exact absurd (hends.symm.trans ht) (by decide)

/-- The text is empty, or its first character stops every scanner that is not in the middle of an
exponent. -/
def Detached (t : Text) : Prop :=
  ∀ c ∈ t.head?, Stops c []

/-- What is in front of a detached text can be cut off, if it expects no exponent: the text is
empty, or its first character parts them. -/
theorem Detached.cases {t u : Text} (hu : Detached u) (ht : expectsExponent t = false) :
    u = [] ∨ ∃ c v, u = c :: v ∧ ∀ w, Parts t c w := by
  cases u with
  | nil => exact .inl rfl
  | cons c v => exact .inr ⟨c, v, rfl, parts_of_expectsExponent ht (hu c rfl)⟩

theorem splitNumeral_detached {t u : Text} (ht : expectsExponent t = false) (hu : Detached u) :
    splitNumeral (t ++ u) = ((splitNumeral t).1, (splitNumeral t).2 ++ u) := by
  rcases hu.cases ht with rfl | ⟨c, v, rfl, hparts⟩
  · simp only [List.append_nil]
  · exact splitNumeral_parts (hparts v)

theorem Stops.not_startsWord {c : Char} {u : Text} (h : Stops c u) : startsWord c = false := by
  rw [← Bool.not_eq_true]
  intro hc
  have hnone := h.not_wordChar
  rw [isWordChar_of_startsWord hc] at hnone
  cases hnone

end Text

open Text

/-- **The lexemes before and after a character that parts two texts**: it is a lexeme by itself. -/
theorem lexemes_parts {t u : Text} {c : Char} (h : Parts t c u) :
    lexemes (t ++ c :: u) = lexemes t ++ .other c :: lexemes u := by
  fun_induction lexemes t with
  | case1 =>
      rw [List.nil_append, lexemes]
      simp only [splitNumeral_of_head h.alone.not_digit h.alone.ne_point, h.alone.not_startsWord,
        List.isEmpty_nil, if_true, Bool.false_eq_true, if_false]
      rw [List.nil_append]
  | case2 d t hnumeral hstart ih =>
      have hsplit := splitNumeral_parts h
      have hrest : Parts (t.dropWhile isWordChar) c u := by
        rw [← List.takeWhile_append_dropWhile (p := isWordChar) (l := t)] at h
        exact h.of_append (v := d :: t.takeWhile isWordChar)
      rw [List.cons_append] at hsplit ⊢
      rw [lexemes]
      simp only [hsplit, hnumeral, hstart, if_true, takeWhile_stop h.alone.not_wordChar,
        dropWhile_stop h.alone.not_wordChar, ih hrest, List.cons_append]
  | case3 d t hnumeral hstart ih =>
      have hsplit := splitNumeral_parts h
      have hrest : Parts t c u := h.of_append (v := [d])
      rw [List.cons_append] at hsplit ⊢
      rw [lexemes]
      simp only [hsplit, hnumeral, hstart, if_true, Bool.false_eq_true, if_false, ih hrest,
        List.cons_append]
  | case4 d t hnumeral ih =>
      have hsplit := splitNumeral_parts h
      have hrest : Parts (splitNumeral (d :: t)).2 c u := by
        rw [← splitNumeral_append (d :: t)] at h
        exact h.of_append
      rw [List.cons_append] at hsplit ⊢
      rw [lexemes]
      simp only [hsplit, hnumeral, ih hrest, List.cons_append]
      rfl

theorem lexemes_stop {c : Char} {u : Text} (h : Stops c u) (t : Text) :
    lexemes (t ++ c :: u) = lexemes t ++ .other c :: lexemes u :=
  lexemes_parts (h.parts t)

theorem words_stop {c : Char} {u : Text} (h : Stops c u) (t : Text) :
    words (t ++ c :: u) = words t ++ words u := by
  rw [words, lexemes_stop h, List.filterMap_append]
  rfl

/-- A text in which no word can start has no words. -/
theorem words_eq_nil {t : Text} (h : ∀ c ∈ t, startsWord c = false) : words t = [] := by
  rw [words]
  fun_induction lexemes t with
  | case1 => rfl
  | case2 c t hnumeral hstart ih =>
      rw [h c List.mem_cons_self] at hstart
      cases hstart
  | case3 c t hnumeral hstart ih => exact ih fun x hx => h x (List.mem_cons_of_mem c hx)
  | case4 c t hnumeral ih =>
      refine ih fun x hx => h x ?_
      rw [← splitNumeral_append (c :: t)]
      exact List.mem_append_right _ hx

/-- No decimal digit of any script is a blank. -/
theorem Text.isDecimalDigit_of_isBlank {c : Char} (h : isBlank c = true) :
    isDecimalDigit c = false := by
  -- No range of blanks meets a run of ten digits.
  have htables : (blankRanges.all fun run => (48 :: zeroCodes).all fun first =>
      run.2 < first || first + 9 < run.1) = true := by decide +kernel
  simp only [isBlank, List.any_eq_true, Bool.and_eq_true, decide_eq_true_eq] at h
  obtain ⟨run, hrun, hlow, hhigh⟩ := h
  have hapart : ∀ first ∈ 48 :: zeroCodes, ¬ (first ≤ c.toNat ∧ c.toNat ≤ first + 9) := by
    intro first hfirst
    have hrow := List.all_eq_true.1 (List.all_eq_true.1 htables run hrun) first hfirst
    simp only [Bool.or_eq_true, decide_eq_true_eq] at hrow
    omega
  have hascii := hapart 48 List.mem_cons_self
  rw [← Bool.not_eq_true, isDecimalDigit, Bool.or_eq_true, isDigit_iff]
  rintro (hdigit | htable)
  · exact hascii hdigit
  · simp only [Bool.and_eq_true, List.any_eq_true, decide_eq_true_eq] at htable
    obtain ⟨-, first, hfirst, hcode⟩ := htable
    exact hapart first (List.mem_cons_of_mem _ hfirst) hcode

/-- Digits of all scripts are no letters and no underscores. -/
theorem Text.isDecimalDigit_of_startsWord {c : Char} (h : startsWord c = true) :
    isDecimalDigit c = false := by
  have hcode : (65 ≤ c.toNat ∧ c.toNat ≤ 90 ∨ 97 ≤ c.toNat ∧ c.toNat ≤ 122) ∨ c.toNat = 95 := by
    rw [startsWord, Bool.or_eq_true, isAlpha_iff, beq_iff_eq] at h
    exact h.imp_right fun hc => congrArg Char.toNat hc
  have hdigit : c.isDigit = false := by
    rw [← Bool.not_eq_true, isDigit_iff]
    omega
  have hascii : ¬ 128 ≤ c.toNat := by omega
  simp only [isDecimalDigit, hdigit, hascii, decide_false, Bool.false_and, Bool.or_false]

theorem Text.isAlpha_of_isDecimalDigit {c : Char} (h : isDecimalDigit c = true) :
    c.isAlpha = false := by
  rw [← Bool.not_eq_true]
  intro hletter
  rw [isDecimalDigit_of_startsWord (by rw [startsWord, hletter, Bool.true_or])] at h
  cases h

end DeskCalc
