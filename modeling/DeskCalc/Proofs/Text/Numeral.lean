import DeskCalc.Canonical.Lexeme

/-!
# Runs and numerals

Scanners take runs of characters of one class. From what is true of a run follows what the numeral
at the front of a text looks like: where there is one, of which characters it is made, and how it
ends.

* `takeWhile_run`, `dropWhile_run`: where a run ends.
* `splitNumeral_of_digit`: every digit starts a numeral.
* `splitMantissa_digits`, `splitMantissa_point`: the mantissas.
* `mem_splitNumeral`: the characters of a numeral.
* `splitNumeral_ends`: a numeral ends in a digit, or in a point after a digit.
-/

namespace DeskCalc.Text

/-! ## Runs -/

theorem of_mem_takeWhile {p : Char → Bool} {t : Text} {x : Char} (h : x ∈ t.takeWhile p) :
    p x = true :=
  List.all_eq_true.1 List.all_takeWhile x h

/-- A run with the character that it starts with. -/
theorem of_mem_run {p : Char → Bool} {c x : Char} {t : Text} (hc : p c = true)
    (h : x ∈ c :: t.takeWhile p) : p x = true := by
  rw [← List.takeWhile_cons_of_pos hc] at h
  exact of_mem_takeWhile h

/-- Where nothing is left behind a run, it is the whole text. -/
theorem of_dropWhile_eq_nil {p : Char → Bool} {t : Text} (h : t.dropWhile p = []) :
    ∀ x ∈ t, p x = true := by
  intro x hx
  have happend := List.takeWhile_append_dropWhile (p := p) (l := t)
  rw [h, List.append_nil] at happend
  rw [← happend] at hx
  exact of_mem_takeWhile hx

/-- A run that is not empty ends in a character with its property. -/
theorem takeWhile_ends {p : Char → Bool} {t : Text} (h : t.takeWhile p ≠ []) :
    ∃ u x, t.takeWhile p = u ++ [x] ∧ p x = true := by
  rcases List.eq_nil_or_concat (t.takeWhile p) with hnil | ⟨u, x, hconcat⟩
  · exact absurd hnil h
  · rw [List.concat_eq_append] at hconcat
    exact ⟨u, x, hconcat, of_mem_takeWhile (by rw [hconcat]; simp)⟩

/-- What stands after a run does not go on with it. -/
theorem head?_dropWhile_any (p : Char → Bool) (t : Text) : (t.dropWhile p).head?.any p = false := by
  have hhead := List.head?_dropWhile_not p t
  cases h : (t.dropWhile p).head? with
  | none => rfl
  | some x =>
      rw [h] at hhead
      simpa using hhead

/-- A run ends where the next character does not go on with it. -/
theorem takeWhile_run {p : Char → Bool} {u t : Text} (hu : ∀ x ∈ u, p x = true)
    (ht : t.head?.any p = false) : (u ++ t).takeWhile p = u := by
  rw [List.takeWhile_append_of_pos hu]
  cases t with
  | nil => simp
  | cons c t => rw [List.takeWhile_cons_of_neg (by simpa using ht), List.append_nil]

theorem dropWhile_run {p : Char → Bool} {u t : Text} (hu : ∀ x ∈ u, p x = true)
    (ht : t.head?.any p = false) : (u ++ t).dropWhile p = t := by
  rw [List.dropWhile_append_of_pos hu]
  cases t with
  | nil => rfl
  | cons c t => rw [List.dropWhile_cons_of_neg (by simpa using ht)]

/-- Classes that agree on the characters of a text take the same run from it. -/
theorem run_congr {p q : Char → Bool} {t : Text} (h : ∀ x ∈ t, p x = q x) :
    t.takeWhile p = t.takeWhile q ∧ t.dropWhile p = t.dropWhile q := by
  induction t with
  | nil => exact ⟨rfl, rfl⟩
  | cons c t ih =>
      obtain ⟨htake, hdrop⟩ := ih fun x hx => h x (List.mem_cons_of_mem c hx)
      rw [List.takeWhile_cons, List.takeWhile_cons, List.dropWhile_cons, List.dropWhile_cons,
        h c List.mem_cons_self, htake, hdrop]
      exact ⟨rfl, rfl⟩

/-! ## Numerals -/

theorem splitSign_of_ne {c : Char} (hplus : c ≠ '+') (hminus : c ≠ '-') (t : Text) :
    splitSign (c :: t) = ([], c :: t) := by
  rw [splitSign]
  · exact fun u h => hplus (List.cons.inj h).1
  · exact fun u h => hminus (List.cons.inj h).1

theorem splitNumeral_of_digit {c : Char} (h : isDecimalDigit c = true) (t : Text) :
    (splitNumeral (c :: t)).1.isEmpty = false := by
  have hmantissa : (splitMantissa (c :: t)).1.isEmpty = false := by
    simp only [splitMantissa, List.takeWhile_cons_of_pos h, List.dropWhile_cons_of_pos h]
    split <;> simp
  simp only [splitNumeral, hmantissa, Bool.false_eq_true, if_false]
  cases hm : (splitMantissa (c :: t)).1 with
  | nil => rw [hm] at hmantissa; cases hmantissa
  | cons x u => rfl

/-- No numeral starts with a character that is no digit and no point. -/
theorem splitNumeral_of_head {c : Char} (hdigit : isDecimalDigit c = false) (hpoint : c ≠ '.')
    (t : Text) : splitNumeral (c :: t) = ([], c :: t) := by
  have hmantissa : splitMantissa (c :: t) = ([], c :: t) := by
    simp [splitMantissa, hdigit, hpoint]
  simp only [splitNumeral, hmantissa, List.isEmpty_nil, if_true]

/-- A run of digits is a mantissa, where no digit and no point follows. -/
theorem splitMantissa_digits {whole t : Text} (hwhole : ∀ x ∈ whole, isDecimalDigit x = true)
    (hdigit : t.head?.any isDecimalDigit = false) (hpoint : t.head? ≠ some '.') :
    splitMantissa (whole ++ t) = (whole, t) := by
  simp only [splitMantissa, takeWhile_run hwhole hdigit, dropWhile_run hwhole hdigit]
  cases t with
  | nil => rfl
  | cons c t =>
      have hc : c ≠ '.' := fun h => hpoint (congrArg some h)
      simp [hc]

/-- Digits around a point are a mantissa, where no digit follows. -/
theorem splitMantissa_point {whole fraction t : Text}
    (hwhole : ∀ x ∈ whole, isDecimalDigit x = true)
    (hfraction : ∀ x ∈ fraction, isDecimalDigit x = true) (hsome : whole ++ fraction ≠ [])
    (hdigit : t.head?.any isDecimalDigit = false) :
    splitMantissa (whole ++ '.' :: (fraction ++ t)) = (whole ++ '.' :: fraction, t) := by
  have hpoint : ('.' :: (fraction ++ t)).head?.any isDecimalDigit = false := rfl
  have hnot_both : (whole.isEmpty && fraction.isEmpty) = false := by
    rw [← Bool.not_eq_true, Bool.and_eq_true, List.isEmpty_iff, List.isEmpty_iff]
    rintro ⟨rfl, rfl⟩
    exact hsome rfl
  simp only [splitMantissa, takeWhile_run hwhole hpoint, dropWhile_run hwhole hpoint,
    takeWhile_run hfraction hdigit, dropWhile_run hfraction hdigit, hnot_both, Bool.false_eq_true,
    if_false]

theorem mem_splitMantissa {t : Text} {x : Char} (h : x ∈ (splitMantissa t).1) :
    isDecimalDigit x = true ∨ x = '.' := by
  simp only [splitMantissa] at h
  split at h
  · split at h
    · cases h
    · rcases List.mem_append.1 h with hwhole | hrest
      · exact .inl (of_mem_takeWhile hwhole)
      · rcases List.mem_cons.1 hrest with hpoint | hfraction
        · exact .inr hpoint
        · exact .inl (of_mem_takeWhile hfraction)
  · exact .inl (of_mem_takeWhile h)

/-- Classes of digits that agree on the characters of a text take the same exponent part from it. -/
theorem splitExponent_congr {p q : Char → Bool} {t : Text} (h : ∀ x ∈ t, p x = q x) :
    splitExponent p t = splitExponent q t := by
  cases t with
  | nil => rfl
  | cons c t =>
      have hdigits : ∀ x ∈ (splitSign t).2, p x = q x := fun x hx =>
        h x (List.mem_cons_of_mem c (splitSign_append t ▸ List.mem_append_right _ hx))
      simp only [splitExponent, (run_congr hdigits).1, (run_congr hdigits).2]

theorem mem_splitSign {t : Text} {x : Char} (h : x ∈ (splitSign t).1) : x = '+' ∨ x = '-' := by
  fun_cases splitSign t with
  | case1 t => exact .inl (List.mem_singleton.1 h)
  | case2 t => exact .inr (List.mem_singleton.1 h)
  | case3 t hplus hminus => simp [splitSign] at h

theorem mem_splitExponent {digit : Char → Bool} {t : Text} {x : Char}
    (h : x ∈ (splitExponent digit t).1) : digit x = true ∨ x ∈ ['e', 'E', '+', '-'] := by
  cases t with
  | nil => cases h
  | cons c t =>
      simp only [splitExponent] at h
      split at h
      · rename_i hletter
        rcases List.mem_cons.1 h with hc | hrest
        · have hc' : c = 'e' ∨ c = 'E' := by
            simp only [Bool.and_eq_true, Bool.or_eq_true, beq_iff_eq] at hletter
            exact hletter.1
          rcases hc' with hc' | hc' <;> exact .inr (by simp [hc, hc'])
        · rcases List.mem_append.1 hrest with hsign | hdigits
          · rcases mem_splitSign hsign with hx | hx <;> exact .inr (by simp [hx])
          · exact .inl (of_mem_takeWhile hdigits)
      · cases h

/-- The characters of a numeral. -/
theorem mem_splitNumeral {t : Text} {x : Char} (h : x ∈ (splitNumeral t).1) :
    isDecimalDigit x = true ∨ x ∈ ['.', 'e', 'E', '+', '-'] := by
  simp only [splitNumeral] at h
  split at h
  · cases h
  · rcases List.mem_append.1 h with hmantissa | hexponent
    · exact (mem_splitMantissa hmantissa).imp_right fun hx => by simp [hx]
    · exact (mem_splitExponent hexponent).imp_right fun hx => List.mem_cons_of_mem _ hx

/-- The mantissa ends in a digit, or in a point after a digit. -/
theorem splitMantissa_ends {t : Text} (h : (splitMantissa t).1.isEmpty = false) :
    ∃ u d, isDecimalDigit d = true ∧
      ((splitMantissa t).1 = u ++ [d] ∨ (splitMantissa t).1 = u ++ [d, '.']) := by
  revert h
  simp only [splitMantissa]
  split
  · rename_i rest hrest
    split
    · exact fun h => by cases h
    · rename_i hdigits
      intro _
      -- With nothing behind the point, a digit stands right before it.
      by_cases hfraction : rest.takeWhile isDecimalDigit = []
      · have hwhole : t.takeWhile isDecimalDigit ≠ [] := by
          intro hnil
          simp [hnil, hfraction] at hdigits
        obtain ⟨u, d, hu, hd⟩ := takeWhile_ends hwhole
        exact ⟨u, d, hd, .inr (by rw [hu, hfraction, List.append_assoc]; rfl)⟩
      · obtain ⟨u, d, hu, hd⟩ := takeWhile_ends hfraction
        exact ⟨t.takeWhile isDecimalDigit ++ '.' :: u, d, hd, .inl (by rw [hu]; simp)⟩
  · intro h
    have hwhole : t.takeWhile isDecimalDigit ≠ [] := by simpa using h
    obtain ⟨u, d, hu, hd⟩ := takeWhile_ends hwhole
    exact ⟨u, d, hd, .inl hu⟩

/-- An exponent part that is not empty ends in a digit. -/
theorem splitExponent_ends {digit : Char → Bool} {t : Text} (h : (splitExponent digit t).1 ≠ []) :
    ∃ u d, digit d = true ∧ (splitExponent digit t).1 = u ++ [d] := by
  cases t with
  | nil => exact absurd rfl h
  | cons c t =>
      simp only [splitExponent] at h ⊢
      split
      · rename_i hletter
        have hdigits : (splitSign t).2.takeWhile digit ≠ [] := by
          intro hnil
          simp [hnil] at hletter
        obtain ⟨u, d, hu, hd⟩ := takeWhile_ends hdigits
        exact ⟨c :: (splitSign t).1 ++ u, d, hd, by rw [hu, List.append_assoc]⟩
      · rename_i hletter
        rw [if_neg hletter] at h
        exact absurd rfl h

/-- A numeral ends in a digit, or in a point after a digit. -/
theorem splitNumeral_ends {t : Text} (h : (splitNumeral t).1.isEmpty = false) :
    ∃ u d, isDecimalDigit d = true ∧
      ((splitNumeral t).1 = u ++ [d] ∨ (splitNumeral t).1 = u ++ [d, '.']) := by
  revert h
  simp only [splitNumeral]
  split
  · exact fun h => by cases h
  · rename_i hmantissa
    intro _
    by_cases hexponent : (splitExponent isDecimalDigit (splitMantissa t).2).1 = []
    · rw [hexponent, List.append_nil]
      exact splitMantissa_ends (by simpa using hmantissa)
    · obtain ⟨u, d, hd, hu⟩ := splitExponent_ends hexponent
      exact ⟨(splitMantissa t).1 ++ u, d, hd, .inl (by rw [hu, List.append_assoc])⟩

end DeskCalc.Text
