import DeskCalc.Canonical
import DeskCalc.Proofs.Text.LetterCase
import DeskCalc.Proofs.Text.Numeral

/-!
# What the first three passes remove

Each of the first three passes removes something for good: the glyphs, the percent signs of
numerals, the pairs of stars. For each there is a predicate on texts that the pass establishes, that
the later passes keep, and under which the pass has nothing to do. None of them looks at the case of
a letter, so the last pass keeps them as well.
-/

namespace DeskCalc

open Text

namespace Canonical

/-! ## Glyphs -/

/-- The characters that the first pass replaces. -/
def glyphs : List Char := ['×', '÷', '−', 'π']

/-- There is no glyph in the text. -/
def GlyphFree (t : Text) : Prop :=
  ∀ c ∈ t, c ∉ glyphs

theorem not_mem_glyphs_of_mem_ofGlyph {c x : Char} (h : x ∈ ofGlyph c) : x ∉ glyphs := by
  unfold ofGlyph at h
  split at h
  · rw [List.mem_singleton.1 h]; decide
  · rw [List.mem_singleton.1 h]; decide
  · rw [List.mem_singleton.1 h]; decide
  · rcases List.mem_cons.1 h with hx | hx
    · rw [hx]; decide
    · rw [List.mem_singleton.1 hx]; decide
  · rw [List.mem_singleton.1 h]
    simp_all [glyphs]

theorem ofGlyph_of_not_mem {c : Char} (h : c ∉ glyphs) : ofGlyph c = [c] := by
  unfold ofGlyph
  split <;> simp_all [glyphs]

theorem glyphFree_replaceGlyphs (t : Text) : GlyphFree (replaceGlyphs t) := by
  intro x hx
  obtain ⟨c, -, hc⟩ := List.mem_flatMap.1 hx
  exact not_mem_glyphs_of_mem_ofGlyph hc

theorem replaceGlyphs_eq_self {t : Text} (h : GlyphFree t) : replaceGlyphs t = t := by
  induction t with
  | nil => rfl
  | cons c t ih =>
      have hc := ofGlyph_of_not_mem (h c List.mem_cons_self)
      have ht := ih fun x hx => h x (List.mem_cons_of_mem c hx)
      show ofGlyph c ++ replaceGlyphs t = c :: t
      rw [hc, ht]
      rfl

/-- The second pass adds parentheses and the divisor, and else copies. -/
theorem mem_expandPercents {t : Text} {x : Char} (h : x ∈ expandPercents t) :
    x ∈ t ∨ x ∈ '(' :: hundredth := by
  fun_induction expandPercents t with
  | case1 => cases h
  | case2 c t hnumeral ih =>
      rcases List.mem_cons.1 h with hx | hx
      · exact .inl (hx ▸ List.mem_cons_self)
      · exact (ih hx).imp_left (List.mem_cons_of_mem c)
  | case3 c t hnumeral hpercent ih =>
      have happ := splitNumeral_append (c :: t)
      simp only [List.cons_append, List.mem_cons, List.mem_append] at h
      rcases h with hx | (hx | hx) | hx
      · exact .inr (hx ▸ List.mem_cons_self)
      · exact .inl (happ ▸ List.mem_append_left _ hx)
      · exact .inr (List.mem_cons_of_mem _ hx)
      · refine (ih hx).imp_left fun hrest => ?_
        exact happ ▸ List.mem_append_right _ (List.mem_of_mem_tail hrest)
  | case4 c t hnumeral hpercent ih =>
      rcases List.mem_cons.1 h with hx | hx
      · exact .inl (hx ▸ List.mem_cons_self)
      · exact (ih hx).imp_left (List.mem_cons_of_mem c)

theorem GlyphFree.expandPercents {t : Text} (h : GlyphFree t) : GlyphFree (expandPercents t) := by
  have hadded : ∀ x ∈ '(' :: hundredth, x ∉ glyphs := by simp [hundredth, glyphs]
  intro x hx
  exact (mem_expandPercents hx).elim (h x) (hadded x)

/-- A character that starts no pair of stars stays. -/
theorem joinStars_cons {c : Char} {t : Text} (h : ∀ r, c = '*' → t = '*' :: r → False) :
    joinStars (c :: t) = c :: joinStars t := by
  rw [joinStars]
  exact h

theorem GlyphFree.joinStars {t : Text} (h : GlyphFree t) : GlyphFree (joinStars t) := by
  fun_induction Canonical.joinStars t with
  | case1 t ih =>
      intro x hx
      rcases List.mem_cons.1 hx with hx | hx
      · rw [hx]; decide
      · exact ih (fun y hy => h y (by simp [hy])) x hx
  | case2 c t hstars ih =>
      intro x hx
      rcases List.mem_cons.1 hx with hx | hx
      · exact hx ▸ h c List.mem_cons_self
      · exact ih (fun y hy => h y (List.mem_cons_of_mem c hy)) x hx
  | case3 => exact h

/-- No glyph is a letter of ASCII. -/
theorem isAlpha_of_mem_glyphs {x : Char} (h : x ∈ glyphs) : x.isAlpha = false := by
  simp only [glyphs, List.mem_cons, List.not_mem_nil, or_false] at h
  rcases h with rfl | rfl | rfl | rfl <;> rfl

/-- Texts that differ in case alone have the same glyphs. -/
theorem GlyphFree.of_lower_eq {t u : Text} (hlower : lower u = lower t) (h : GlyphFree t) :
    GlyphFree u := by
  have hsame : ∀ v : Text, ∀ x ∈ glyphs, x ∈ lower v ↔ x ∈ v := by
    intro v x hx
    simp only [lower, List.mem_map, toLower_eq_iff (isAlpha_of_mem_glyphs hx), exists_eq_right]
  intro x hx hglyph
  rw [← hsame u x hglyph, hlower, hsame t x hglyph] at hx
  exact h x hx hglyph

/-! ## Percent signs -/

/-- Whether a text starts with a percent sign, or with one behind a point. -/
def startsPercent : Text → Bool
  | [] => false
  | c :: t => c == '%' || c == '.' && t.head? == some '%'

/-- No percent sign stands directly after a decimal digit, nor after a point that does. -/
def PercentFree : Text → Prop
  | [] => True
  | c :: t => (isDecimalDigit c = true → startsPercent t = false) ∧ PercentFree t

/-- A percent sign after a digit is that of a numeral. -/
theorem head?_splitNumeral_of_startsPercent {c : Char} {t : Text}
    (hc : isDecimalDigit c = true) (ht : startsPercent t = true) :
    (splitNumeral (c :: t)).2.head? = some '%' := by
  have hpoint : isDecimalDigit '.' = false := by decide
  have hpercent : isDecimalDigit '%' = false := by decide
  cases t with
  | nil => cases ht
  | cons d t =>
      simp only [startsPercent, Bool.or_eq_true, Bool.and_eq_true, beq_iff_eq] at ht
      rcases ht with hd | ⟨hd, hhead⟩
      · subst hd
        simp [splitNumeral, splitMantissa, hc, hpercent, splitExponent]
      · subst hd
        obtain ⟨t, rfl⟩ : ∃ r, t = '%' :: r := by
          cases t with
          | nil => cases hhead
          | cons x r => exact ⟨r, by rw [Option.some.inj hhead]⟩
        simp [splitNumeral, splitMantissa, hc, hpoint, hpercent, splitExponent]

/-- The second pass starts with what the text starts with, or with a parenthesis. -/
theorem head?_expandPercents {t : Text} {x : Char} (h : (expandPercents t).head? = some x)
    (hx : x ≠ '(') : t.head? = some x := by
  cases t with
  | nil => simp [expandPercents] at h
  | cons c t =>
      rw [expandPercents] at h
      split at h
      · exact h
      · split at h
        · exact absurd (Option.some.inj h).symm hx
        · exact h

/-- The second pass puts no percent sign in front. -/
theorem startsPercent_of_expandPercents {t : Text} (h : startsPercent (expandPercents t) = true) :
    startsPercent t = true := by
  have hcopied : ∀ c u, startsPercent (c :: expandPercents u) = true →
      startsPercent (c :: u) = true := by
    intro c u hu
    simp only [startsPercent, Bool.or_eq_true, Bool.and_eq_true, beq_iff_eq] at hu ⊢
    exact hu.imp_right fun hpoint => ⟨hpoint.1, head?_expandPercents hpoint.2 (by decide)⟩
  cases t with
  | nil => simp [expandPercents, startsPercent] at h
  | cons c t =>
      rw [expandPercents] at h
      split at h
      · exact hcopied c t h
      · split at h
        · cases h
        · exact hcopied c t h

/-- Text without a percent sign may stand before a text that does not start with one. -/
theorem PercentFree.append {u t : Text} (hu : ∀ x ∈ u, x ≠ '%') (ht : PercentFree t)
    (hstart : startsPercent t = false) : PercentFree (u ++ t) ∧ startsPercent (u ++ t) = false := by
  have hhead : t.head? ≠ some '%' := by
    intro h
    cases t with
    | nil => cases h
    | cons c t =>
        rw [Option.some.inj h] at hstart
        cases hstart
  induction u with
  | nil => exact ⟨ht, hstart⟩
  | cons c u ih =>
      have hrest := ih fun x hx => hu x (List.mem_cons_of_mem c hx)
      refine ⟨⟨fun _ => hrest.2, hrest.1⟩, ?_⟩
      have hc : c ≠ '%' := hu c List.mem_cons_self
      have hnext : (u ++ t).head? ≠ some '%' := by
        cases u with
        | nil => exact hhead
        | cons d u => exact fun h => hu d (by simp) (Option.some.inj h)
      show (c == '%' || c == '.' && (u ++ t).head? == some '%') = false
      rw [beq_false_of_ne hc, beq_false_of_ne hnext, Bool.and_false, Bool.or_false]

/-- **The second pass leaves no percent sign after a numeral.** -/
theorem percentFree_expandPercents (t : Text) : PercentFree (expandPercents t) := by
  fun_induction expandPercents t with
  | case1 => trivial
  | case2 c t hnumeral ih =>
      refine ⟨fun hc => ?_, ih⟩
      rw [splitNumeral_of_digit hc] at hnumeral
      cases hnumeral
  | case3 c t hnumeral hpercent ih =>
      -- Behind the divisor stands a parenthesis, so what comes after it may start with anything.
      have hclose : PercentFree (')' :: expandPercents (splitNumeral (c :: t)).2.tail) :=
        ⟨fun h => (by cases h), ih⟩
      have hpieces : ∀ x ∈ '(' :: (splitNumeral (c :: t)).1 ++ ['/', '1', '0', '0'], x ≠ '%' := by
        have hmarks : ∀ x ∈ ['.', 'e', 'E', '+', '-'], x ≠ '%' := by simp
        have hsigns : ∀ x ∈ ['/', '1', '0', '0'], x ≠ '%' := by simp
        intro x hx
        rcases List.mem_append.1 hx with hx | hx
        · rcases List.mem_cons.1 hx with hx | hx
          · rw [hx]; decide
          · rcases mem_splitNumeral hx with hdigit | hmark
            · rintro rfl
              cases hdigit
            · exact hmarks x hmark
        · exact hsigns x hx
      have happ := (PercentFree.append hpieces hclose rfl).1
      simpa [hundredth, List.append_assoc] using happ
  | case4 c t hnumeral hpercent ih =>
      refine ⟨fun hc => ?_, ih⟩
      -- A percent sign that is still there after the pass was there before it.
      cases hstart : startsPercent (expandPercents t) with
      | false => rfl
      | true =>
          have hhead := startsPercent_of_expandPercents hstart
          exact absurd (head?_splitNumeral_of_startsPercent hc hhead) hpercent

/-- A text without percent signs after digits has none behind a digit inside. -/
theorem PercentFree.of_append {u t : Text} {d : Char} (h : PercentFree (u ++ d :: t))
    (hd : isDecimalDigit d = true) : startsPercent t = false := by
  induction u with
  | nil => exact h.1 hd
  | cons c u ih => exact ih h.2

/-- Without percent signs after numerals the second pass has nothing to do. -/
theorem expandPercents_eq_self {t : Text} (h : PercentFree t) : expandPercents t = t := by
  fun_induction expandPercents t with
  | case1 => rfl
  | case2 c t hnumeral ih => rw [ih h.2]
  | case3 c t hnumeral hpercent ih =>
      have happ := splitNumeral_append (c :: t)
      obtain ⟨rest, hrest⟩ : ∃ rest, (splitNumeral (c :: t)).2 = '%' :: rest := by
        cases htail : (splitNumeral (c :: t)).2 with
        | nil => rw [htail] at hpercent; cases hpercent
        | cons x rest => rw [htail] at hpercent; exact ⟨rest, by rw [Option.some.inj hpercent]⟩
      -- The numeral ends in a digit or in a point after one, so its percent sign is one of those
      -- that the hypothesis excludes.
      obtain ⟨u, d, hd, hends | hends⟩ := splitNumeral_ends (by simpa using hnumeral)
      · rw [hends, hrest, List.append_assoc] at happ
        rw [← happ] at h
        cases h.of_append hd
      · rw [hends, hrest, List.append_assoc] at happ
        rw [← happ] at h
        cases h.of_append hd
  | case4 c t hnumeral hpercent ih => rw [ih h.2]

theorem startsPercent_lower (t : Text) : startsPercent (lower t) = startsPercent t := by
  cases t with
  | nil => rfl
  | cons c t =>
      have hpercent : ∀ x : Char, x.toLower = '%' ↔ x = '%' := fun x => toLower_eq_iff rfl
      have hpoint : c.toLower = '.' ↔ c = '.' := toLower_eq_iff rfl
      rw [Bool.eq_iff_iff]
      simp [lower, startsPercent, hpercent, hpoint]

theorem percentFree_lower (t : Text) : PercentFree (lower t) ↔ PercentFree t := by
  induction t with
  | nil => exact Iff.rfl
  | cons c t ih =>
      show (isDecimalDigit c.toLower = true → startsPercent (lower t) = false) ∧
        PercentFree (lower t) ↔ _
      rw [isDecimalDigit_toLower, startsPercent_lower, ih]
      exact Iff.rfl

/-! ## Stars -/

/-- No star stands directly after a star. -/
def StarFree : Text → Prop
  | [] => True
  | c :: t => (c = '*' → t.head? ≠ some '*') ∧ StarFree t

theorem head?_joinStars {t : Text} {x : Char} (h : (joinStars t).head? = some x) (hx : x ≠ '^') :
    t.head? = some x := by
  fun_cases joinStars t with
  | case1 t => exact absurd (Option.some.inj h).symm hx
  | case2 c t hstars =>
      rw [joinStars_cons hstars] at h
      exact h
  | case3 => exact h

/-- **The third pass leaves no pair of stars.** -/
theorem starFree_joinStars (t : Text) : StarFree (joinStars t) := by
  fun_induction joinStars t with
  | case1 t ih => exact ⟨fun h => (by cases h), ih⟩
  | case2 c t hstars ih =>
      refine ⟨fun hc hhead => ?_, ih⟩
      have hnext := head?_joinStars hhead (by decide)
      cases t with
      | nil => cases hnext
      | cons d t => exact hstars t hc (by rw [Option.some.inj hnext])
  | case3 => trivial

theorem joinStars_eq_self {t : Text} (h : StarFree t) : joinStars t = t := by
  fun_induction joinStars t with
  | case1 t ih => exact absurd rfl (h.1 rfl)
  | case2 c t hstars ih => rw [ih h.2]
  | case3 => rfl

theorem starFree_lower (t : Text) : StarFree (lower t) ↔ StarFree t := by
  induction t with
  | nil => exact Iff.rfl
  | cons c t ih =>
      have hstar : ∀ x : Char, x.toLower = '*' ↔ x = '*' := fun x => toLower_eq_iff rfl
      show (c.toLower = '*' → (lower t).head? ≠ some '*') ∧ StarFree (lower t) ↔ _
      rw [hstar, ih, StarFree]
      cases t with
      | nil => simp [lower]
      | cons d t => simp [lower, hstar]

theorem startsPercent_of_joinStars {t : Text} (h : startsPercent (joinStars t) = true) :
    startsPercent t = true := by
  fun_cases joinStars t with
  | case1 t => cases h
  | case2 c t hstars =>
      rw [joinStars_cons hstars] at h
      simp only [startsPercent, Bool.or_eq_true, Bool.and_eq_true, beq_iff_eq] at h ⊢
      exact h.imp_right fun hpoint => ⟨hpoint.1, head?_joinStars hpoint.2 (by decide)⟩
  | case3 => cases h

theorem PercentFree.joinStars {t : Text} (h : PercentFree t) : PercentFree (joinStars t) := by
  fun_induction Canonical.joinStars t with
  | case1 t ih => exact ⟨fun hc => (by cases hc), ih h.2.2⟩
  | case2 c t hstars ih =>
      refine ⟨fun hc => ?_, ih h.2⟩
      cases hstart : startsPercent (Canonical.joinStars t) with
      | false => rfl
      | true =>
          have hhead := startsPercent_of_joinStars hstart
          rw [h.1 hc] at hhead
          cases hhead
  | case3 => trivial

end Canonical

end DeskCalc
