import DeskCalc.Proofs.Canonical.Appending
import DeskCalc.Proofs.Canonical.Readable

/-!
# What the canonical notation keeps

The passes leave in the text what they do not look for: what has no glyphs, no stars and no letters
is still there in canonical notation. The second pass is the one that parts what touches. Of two
points the second can be the start of a numeral that it puts in parentheses, but then the first
stands right before the parenthesis. And it takes a percent sign away from a numeral and from
nothing else.

* `infix_replaceGlyphs`, `infix_joinStars`, `infix_spellWords`: what the other passes keep.
* `admitCharacters_of_mem`: a character that is never admitted.
* `points_expandPercents`, `points_canonical`: two points.
* `percent_expandPercents`, `percent_canonical`: percent signs that are taken away.
-/

namespace DeskCalc

open Text Token

/-- A character of a text is a part of it. -/
theorem Text.infix_of_mem {c : Char} {t : Text} (h : c ∈ t) : [c] <:+: t := by
  obtain ⟨a, b, rfl⟩ := List.append_of_mem h
  exact ⟨a, b, by simp⟩

namespace Canonical

/-! ## Passes that keep what they do not look for -/

section
variable {w t : Text}

theorem infix_replaceGlyphs (hw : GlyphFree w) (h : w <:+: t) : w <:+: replaceGlyphs t := by
  obtain ⟨a, b, rfl⟩ := h
  rw [replaceGlyphs_append, replaceGlyphs_append, replaceGlyphs_eq_self hw]
  exact List.infix_append _ _ _

theorem infix_joinStars (hw : ∀ c ∈ w, c ≠ '*') (h : w <:+: t) : w <:+: joinStars t := by
  obtain ⟨a, b, rfl⟩ := h
  cases w with
  | nil => exact List.nil_infix
  | cons c w =>
      have hfirst : a.getLast? = some '*' → (c :: w).head? ≠ some '*' :=
        fun _ hhead => hw c List.mem_cons_self (Option.some.inj hhead)
      have hlast : (a ++ c :: w).getLast? = some '*' → b.head? ≠ some '*' := by
        intro hstar
        rw [List.getLast?_append, List.getLast?_cons, Option.some_or, ← List.getLast?_cons] at hstar
        exact absurd rfl (hw '*' (List.mem_of_getLast? hstar))
      rw [joinStars_append hlast, joinStars_append hfirst, joinStars_eq_self (starFree_of_ne hw)]
      exact List.infix_append _ _ _

/-- Texts that differ in case alone agree where they have no letters. -/
theorem infix_of_lower_eq (hw : ∀ c ∈ w, c.isAlpha = false) {u : Text} (hlower : lower u = lower t)
    (h : w <:+: t) : w <:+: u := by
  have hsame : lower w <:+: lower u := by
    rw [hlower]
    exact h.map Char.toLower
  rw [lower_eq_self hw] at hsame
  obtain ⟨v, hv, rfl⟩ := List.infix_map_iff.1 hsame
  have hchar : ∀ c ∈ v, c.toLower = id c := by
    intro c hc
    have hnone := hw c.toLower (List.mem_map_of_mem hc)
    exact ((toLower_eq_iff hnone).1 rfl).symm
  rwa [List.map_congr_left hchar, List.map_id]

theorem infix_spellWords (hw : ∀ c ∈ w, c.isAlpha = false) (h : w <:+: t) : w <:+: spellWords t :=
  infix_of_lower_eq hw (lower_spellWords t) h

end

/-- **What has no stars and no letters is kept** behind the second pass. -/
theorem infix_canonical {w raw : Text} (hstars : ∀ c ∈ w, c ≠ '*')
    (hletters : ∀ c ∈ w, c.isAlpha = false)
    (h : w <:+: expandPercents (replaceGlyphs raw)) : w <:+: canonical raw :=
  infix_spellWords hletters (infix_joinStars hstars h)

/-- The second pass takes away percent signs alone. -/
theorem mem_expandPercents_of_mem {c : Char} {t : Text} (hpercent : c ≠ '%') (h : c ∈ t) :
    c ∈ expandPercents t := by
  fun_induction expandPercents t with
  | case1 => exact h
  | case2 d t hnumeral ih =>
      rcases List.mem_cons.1 h with rfl | hrest
      · exact List.mem_cons_self
      · exact List.mem_cons_of_mem d (ih hrest)
  | case3 d t hnumeral hhead ih =>
      obtain ⟨rest, hrest⟩ := List.head?_eq_some_iff.1 hhead
      rw [hrest, List.tail_cons] at ih ⊢
      rw [← splitNumeral_append (d :: t), hrest] at h
      rcases List.mem_append.1 h with hmem | hmem
      · simp [hmem]
      · exact List.mem_append_right _ (ih ((List.mem_cons.1 hmem).resolve_left hpercent))
  | case4 d t hnumeral hhead ih =>
      rcases List.mem_cons.1 h with rfl | hrest
      · exact List.mem_cons_self
      · exact List.mem_cons_of_mem d (ih hrest)

theorem mem_canonical {c : Char} {raw : Text} (hstar : c ≠ '*') (hletter : c.isAlpha = false)
    (h : c ∈ expandPercents (replaceGlyphs raw)) : c ∈ canonical raw := by
  have hkept :=
    infix_canonical (List.forall_mem_singleton.2 hstar) (List.forall_mem_singleton.2 hletter)
    (infix_of_mem h)
  exact hkept.subset (List.mem_singleton_self c)

/-- **A character that is no glyph and is not admitted is kept**, so that what was typed with it is
refused. -/
theorem admitCharacters_of_mem {c : Char} {raw : Text} (h : c ∈ raw) (hglyph : c ∉ glyphs)
    (hadmitted : isAdmitted c = false) :
    admitCharacters (canonical raw) = .error .invalidCharacters := by
  have hother : ∀ x, isAdmitted x = true → c ≠ x := by
    rintro x hx rfl
    rw [hx] at hadmitted
    cases hadmitted
  have hletter : c.isAlpha = false := by
    rw [← Bool.not_eq_true]
    intro hletter
    exact hother c (by rw [isAdmitted, Char.isAlphanum, hletter]; rfl) rfl
  have hreplaced := infix_replaceGlyphs (List.forall_mem_singleton.2 hglyph) (infix_of_mem h)
  have hexpanded :=
    mem_expandPercents_of_mem (hother '%' rfl) (hreplaced.subset (List.mem_singleton_self c))
  have hkept := mem_canonical (hother '*' rfl) hletter hexpanded
  have hall : (canonical raw).all isAdmitted = false := by
    rw [List.all_eq_false]
    exact ⟨c, hkept, by rw [hadmitted]; exact Bool.false_ne_true⟩
  rw [admitCharacters, hall]
  rfl

/-! ## Two points -/

/-- Two points are at the front of a text or behind it. -/
theorem points_cons {c : Char} {t : Text} (h : ['.', '.'] <:+: c :: t) :
    (c = '.' ∧ t.head? = some '.') ∨ ['.', '.'] <:+: t := by
  rcases List.infix_cons_iff.1 h with ⟨u, hu⟩ | hrest
  · cases hu
    exact .inl ⟨rfl, rfl⟩
  · exact .inr hrest

theorem points_iff (t : Text) : ['.', '.'] <:+: t ↔ hasTwoPoints t = true := by
  induction t with
  | nil => exact iff_of_false (by simp) Bool.false_ne_true
  | cons c t ih =>
      rw [hasTwoPoints_cons, Bool.or_eq_true, Bool.and_eq_true, beq_iff_eq, beq_iff_eq, ← ih]
      constructor
      · exact points_cons
      · rintro (⟨rfl, hhead⟩ | hrest)
        · obtain ⟨b, rfl⟩ := List.head?_eq_some_iff.1 hhead
          exact ⟨[], b, rfl⟩
        · exact List.infix_cons hrest

/-- A numeral has one point at most. -/
theorem count_splitNumeral_le (t : Text) : (splitNumeral t).1.count '.' ≤ 1 := by
  have hdigits : ∀ u : Text, (u.takeWhile isDecimalDigit).count '.' = 0 := by
    intro u
    rw [List.count_eq_zero]
    intro hpoint
    cases of_mem_takeWhile hpoint
  have hmantissa : (splitMantissa t).1.count '.' ≤ 1 := by
    simp only [splitMantissa]
    split
    · split
      · exact Nat.zero_le 1
      · exact Nat.le_of_eq (by rw [List.count_append, List.count_cons_self, hdigits, hdigits])
    · rw [hdigits]
      exact Nat.zero_le 1
  have hexponent : ∀ u, (splitExponent isDecimalDigit u).1.count '.' = 0 := by
    intro u
    rw [List.count_eq_zero]
    intro hpoint
    rcases mem_splitExponent hpoint with hdigit | hmark
    · cases hdigit
    · exact absurd hmark (by decide)
  simp only [splitNumeral]
  split
  · exact Nat.zero_le 1
  · rw [List.count_append, hexponent]
    exact hmantissa

/-- The second pass starts with the first character of the text, or with a parenthesis. -/
theorem head?_expandPercents_cons (c : Char) (t : Text) :
    (expandPercents (c :: t)).head? = some c ∨ (expandPercents (c :: t)).head? = some '(' := by
  rw [expandPercents]
  split
  · exact .inl rfl
  · split
    · exact .inr rfl
    · exact .inl rfl

/-- Where a character is copied, two points still touch, or the second of them is behind a
parenthesis. -/
theorem points_copied {c : Char} {t : Text} (h : ['.', '.'] <:+: c :: t)
    (hlater : ['.', '.'] <:+: t → ['.', '.'] <:+: expandPercents t ∨
      ['.', '('] <:+: expandPercents t) :
    ['.', '.'] <:+: c :: expandPercents t ∨ ['.', '('] <:+: c :: expandPercents t := by
  rcases points_cons h with ⟨rfl, hhead⟩ | hrest
  · obtain ⟨u, rfl⟩ := List.head?_eq_some_iff.1 hhead
    rcases head?_expandPercents_cons '.' u with hpoint | hparen
    · obtain ⟨v, hv⟩ := List.head?_eq_some_iff.1 hpoint
      exact .inl ⟨[], v, by rw [hv]; rfl⟩
    · obtain ⟨v, hv⟩ := List.head?_eq_some_iff.1 hparen
      exact .inr ⟨[], v, by rw [hv]; rfl⟩
  · exact (hlater hrest).imp List.infix_cons List.infix_cons

/-- **Two points that touch** are not parted by the second pass, or it puts a parenthesis between
them. -/
theorem points_expandPercents {t : Text} (h : ['.', '.'] <:+: t) :
    ['.', '.'] <:+: expandPercents t ∨ ['.', '('] <:+: expandPercents t := by
  fun_induction expandPercents t with
  | case1 => exact .inl h
  | case2 c t hnumeral ih => exact points_copied h ih
  | case3 c t hnumeral hpercent ih =>
      have hsplit := splitNumeral_append (c :: t)
      obtain ⟨rest, hrest⟩ := List.head?_eq_some_iff.1 hpercent
      have hone : hasTwoPoints (splitNumeral (c :: t)).1 = false := by
        have happend :=
          hasTwoPoints_append (t := []) (count_splitNumeral_le (c :: t)) fun _ h => by cases h
        rwa [List.append_nil] at happend
      have hlater : ['.', '.'] <:+: rest := by
        rw [points_iff, ← hsplit, hrest, hasTwoPoints_stop (by decide), hone, Bool.false_or,
          ← points_iff] at h
        exact h
      rw [hrest, List.tail_cons] at ih ⊢
      exact (ih hlater).imp List.infix_append_of_infix_right List.infix_append_of_infix_right
  | case4 c t hnumeral hpercent ih => exact points_copied h ih

/-- **Two points of the raw text** still touch in canonical notation, or the first touches a
parenthesis. -/
theorem points_canonical {raw : Text} (h : ['.', '.'] <:+: raw) :
    ['.', '.'] <:+: canonical raw ∨ ['.', '('] <:+: canonical raw := by
  have hglyphs : GlyphFree ['.', '.'] :=
    List.forall_mem_cons.2 ⟨by decide, List.forall_mem_singleton.2 (by decide)⟩
  have hkept : ∀ c, c ≠ '*' → c.isAlpha = false →
      ['.', c] <:+: expandPercents (replaceGlyphs raw) → ['.', c] <:+: canonical raw :=
    fun c hstar hletter => infix_canonical
      (List.forall_mem_cons.2 ⟨by decide, List.forall_mem_singleton.2 hstar⟩)
      (List.forall_mem_cons.2 ⟨by decide, List.forall_mem_singleton.2 hletter⟩)
  refine (points_expandPercents (infix_replaceGlyphs hglyphs h)).imp ?_ ?_
  · exact hkept '.' (by decide) (by decide)
  · exact hkept '(' (by decide) (by decide)

/-! ## Percent signs -/

/-- A text ends as a numeral does, in a digit or in a point behind one, and this digit is kept. -/
def EndsInKept (kept before : Text) : Prop :=
  ∃ u d, isDecimalDigit d = true ∧ d ∈ kept ∧ (before = u ++ [d] ∨ before = u ++ [d, '.'])

theorem EndsInKept.append_left {kept all before : Text} (h : EndsInKept kept before)
    (hall : kept ⊆ all) (v : Text) : EndsInKept all (v ++ before) := by
  obtain ⟨u, d, hd, hmem, hends⟩ := h
  refine ⟨v ++ u, d, hd, hall hmem, ?_⟩
  rcases hends with rfl | rfl
  · exact .inl (List.append_assoc v u _).symm
  · exact .inr (List.append_assoc v u _).symm

/-- A numeral ends in this way, if it is kept. -/
theorem endsInKept_numeral {kept t : Text} (h : (splitNumeral t).1.isEmpty = false)
    (hkept : (splitNumeral t).1 ⊆ kept) : EndsInKept kept (splitNumeral t).1 := by
  obtain ⟨u, d, hd, hends⟩ := splitNumeral_ends h
  refine ⟨u, d, hd, hkept ?_, hends⟩
  rcases hends with hends | hends <;> rw [hends] <;> simp

/-- A character that is copied is not the percent sign that is taken away. -/
theorem percent_copied {c : Char} {t before after : Text} (h : '%' ∉ c :: expandPercents t)
    (ht : c :: t = before ++ '%' :: after)
    (hlater : ∀ before, '%' ∉ expandPercents t → t = before ++ '%' :: after →
      EndsInKept (expandPercents t) before) : EndsInKept (c :: expandPercents t) before := by
  obtain ⟨hne, hnone⟩ := not_or.1 (mt List.mem_cons.2 h)
  cases before with
  | nil =>
      cases ht
      exact absurd rfl hne
  | cons x before =>
      cases ht
      exact (hlater before hnone rfl).append_left (List.subset_cons_self c _) [c]

/-- **A percent sign that the second pass takes away** stands behind a digit, or behind a point that
does, and the digit stays. -/
theorem percent_expandPercents {t : Text} (h : '%' ∉ expandPercents t) {before after : Text}
    (ht : t = before ++ '%' :: after) : EndsInKept (expandPercents t) before := by
  fun_induction expandPercents t generalizing before with
  | case1 => cases before <;> cases ht
  | case2 c t hnumeral ih => exact percent_copied h ht fun _ hnone ht => ih hnone ht
  | case3 c t hnumeral hpercent ih =>
      obtain ⟨rest, hrest⟩ := List.head?_eq_some_iff.1 hpercent
      rw [hrest, List.tail_cons] at ih h ⊢
      rw [← splitNumeral_append (c :: t), hrest] at ht
      -- The numeral has no percent sign, so this is the one behind it or a later one.
      have hnone : '%' ∉ (splitNumeral (c :: t)).1 := by
        intro hmem
        rcases mem_splitNumeral hmem with hdigit | hmark
        · cases hdigit
        · exact absurd hmark (by decide)
      rcases List.append_eq_append_iff.1 ht with ⟨w, rfl, hlater⟩ | ⟨w, hinside, hhere⟩
      · cases w with
        | nil =>
            rw [List.append_nil]
            exact endsInKept_numeral (by simpa using hnumeral) fun d hd => by simp [hd]
        | cons x w =>
            cases hlater
            have hlast := ih (fun hmem => h (List.mem_append_right _ hmem)) rfl
            exact (hlast.append_left (List.subset_append_right _ _) ['%']).append_left
              (List.Subset.refl _) _
      · cases w with
        | nil =>
            rw [List.append_nil] at hinside
            rw [← hinside]
            exact endsInKept_numeral (by simpa using hnumeral) fun d hd => by simp [hd]
        | cons x w =>
            cases hhere
            exact absurd (by rw [hinside]; simp) hnone
  | case4 c t hnumeral hpercent ih => exact percent_copied h ht fun _ hnone ht => ih hnone ht

/-- The characters in which the replacement of a glyph ends. -/
def glyphEnds : List Char := ['*', '/', '-', 'I']

theorem replaceGlyphs_glyph {c : Char} (h : c ∈ glyphs) :
    ∃ u x, replaceGlyphs [c] = u ++ [x] ∧ x ∈ glyphEnds := by
  simp only [glyphs, List.mem_cons, List.not_mem_nil, or_false] at h
  rcases h with rfl | rfl | rfl | rfl
  · exact ⟨[], '*', rfl, by decide⟩
  · exact ⟨[], '/', rfl, by decide⟩
  · exact ⟨[], '-', rfl, by decide⟩
  · exact ⟨['P'], 'I', rfl, by decide⟩

/-- What no replacement ends in, and a text does after the first pass, it ended in before. -/
theorem concat_of_replaceGlyphs {t u : Text} {d : Char} (hd : d ∉ glyphEnds)
    (h : replaceGlyphs t = u ++ [d]) : ∃ v, t = v ++ [d] ∧ replaceGlyphs v = u := by
  rcases List.eq_nil_or_concat t with rfl | ⟨v, c, rfl⟩
  · exact absurd h.symm (List.append_ne_nil_of_right_ne_nil u (List.cons_ne_nil d []))
  · rw [List.concat_eq_append] at h ⊢
    rw [replaceGlyphs_append] at h
    by_cases hglyph : c ∈ glyphs
    · obtain ⟨w, x, hx, hends⟩ := replaceGlyphs_glyph hglyph
      rw [hx, ← List.append_assoc] at h
      cases (List.append_inj' h rfl).2
      exact absurd hends hd
    · rw [replaceGlyphs_eq_self (List.forall_mem_singleton.2 hglyph)] at h
      obtain ⟨hv, hc⟩ := List.append_inj' h rfl
      cases hc
      exact ⟨v, rfl, hv⟩

/-- No replacement ends in a digit or a point. -/
theorem not_mem_glyphEnds {d : Char} (hd : isDecimalDigit d = true ∨ d = '.') : d ∉ glyphEnds := by
  intro hends
  simp only [glyphEnds, List.mem_cons, List.not_mem_nil, or_false] at hends
  rcases hends with rfl | rfl | rfl | rfl <;> exact absurd hd (by decide)

/-- **A percent sign of the raw text that is taken away** stands behind a digit, or behind a point
that does, and the digit stays. -/
theorem percent_canonical {raw : Text} (h : '%' ∉ canonical raw) {before after : Text}
    (hraw : raw = before ++ '%' :: after) : EndsInKept (canonical raw) before := by
  have hnone : '%' ∉ expandPercents (replaceGlyphs raw) := fun hmem =>
    h (mem_canonical (by decide) (by decide) hmem)
  have hglyphs : replaceGlyphs raw = replaceGlyphs before ++ '%' :: replaceGlyphs after := by
    rw [hraw, replaceGlyphs_append]
    rfl
  obtain ⟨u, d, hd, hmem, hends⟩ := percent_expandPercents hnone hglyphs
  have hstar : d ≠ '*' := by
    rintro rfl
    cases hd
  have hkept := mem_canonical hstar (isAlpha_of_isDecimalDigit hd) hmem
  rcases hends with hends | hends
  · obtain ⟨v, rfl, -⟩ := concat_of_replaceGlyphs (not_mem_glyphEnds (.inl hd)) hends
    exact ⟨v, d, hd, hkept, .inl rfl⟩
  · rw [show u ++ [d, '.'] = (u ++ [d]) ++ ['.'] by simp] at hends
    obtain ⟨v, rfl, hv⟩ := concat_of_replaceGlyphs (not_mem_glyphEnds (.inr rfl)) hends
    obtain ⟨v, rfl, -⟩ := concat_of_replaceGlyphs (not_mem_glyphEnds (.inl hd)) hv
    exact ⟨v, d, hd, hkept, .inr (by simp)⟩

end Canonical

end DeskCalc
