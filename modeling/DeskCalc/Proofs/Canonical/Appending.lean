import DeskCalc.Proofs.Canonical.Passes
import DeskCalc.Proofs.Canonical.Spelling
import DeskCalc.Proofs.Text.Ending
import DeskCalc.Proofs.Text.Stop

/-!
# The canonical notation of a text and what follows it

Texts with an operator between them are brought to canonical notation one by one, for no numeral and
no word goes on across the operator. Only a times sign must not meet another one, which would make
it a power. How a text ends, in a value or not, is the same in canonical notation, with one
exception: pi has a glyph, and no value ends in it, while one does end in its name.

* `expandPercents_parts`, `joinStars_append`, `spellWords_parts`: one pass.
* `canonical_stop`: all of them.
* `ending_canonical`: how the canonical notation ends.
-/

namespace DeskCalc

open Text

namespace Canonical

/-! ## One pass on two texts -/

theorem replaceGlyphs_append (t u : Text) :
    replaceGlyphs (t ++ u) = replaceGlyphs t ++ replaceGlyphs u :=
  List.flatMap_append

/-- **Numerals with percent signs do not reach across a character that parts two texts.** -/
theorem expandPercents_parts {t u : Text} {c : Char} (h : Parts t c u) (hc : c ≠ '%') :
    expandPercents (t ++ c :: u) = expandPercents t ++ c :: expandPercents u := by
  -- The percent sign of a numeral stands before the character.
  have hhead : ∀ v : Text, (v ++ c :: u).head? = some '%' ↔ v.head? = some '%' := by
    intro v
    cases v with
    | nil => simp [hc]
    | cons d v => exact Iff.rfl
  fun_induction expandPercents t with
  | case1 =>
      rw [List.nil_append, expandPercents]
      simp only [splitNumeral_of_head h.alone.not_digit h.alone.ne_point, List.isEmpty_nil, if_true]
      rfl
  | case2 d t hnumeral ih =>
      have hsplit := splitNumeral_parts h
      have hrest : Parts t c u := h.of_append (v := [d])
      rw [List.cons_append] at hsplit ⊢
      rw [expandPercents]
      simp only [hsplit, hnumeral, if_true, ih hrest, List.cons_append]
  | case3 d t hnumeral hpercent ih =>
      have hsplit := splitNumeral_parts h
      obtain ⟨rest, hbehind⟩ := List.head?_eq_some_iff.1 hpercent
      have hrest : Parts rest c u := by
        rw [← splitNumeral_append (d :: t), hbehind, List.append_cons] at h
        exact h.of_append
      rw [List.cons_append] at hsplit ⊢
      rw [hbehind, List.tail_cons] at ih ⊢
      rw [expandPercents]
      simp only [hsplit, hnumeral, hbehind, List.cons_append, List.head?_cons, List.tail_cons,
        if_true, Bool.false_eq_true, if_false, ih hrest, List.append_assoc]
  | case4 d t hnumeral hpercent ih =>
      have hsplit := splitNumeral_parts h
      have hrest : Parts t c u := h.of_append (v := [d])
      rw [List.cons_append] at hsplit ⊢
      rw [expandPercents]
      simp only [hsplit, hnumeral, hhead, hpercent, Bool.false_eq_true, if_false, ih hrest,
        List.cons_append]

/-- Two texts are joined one by one, if no star of the first meets one of the second. -/
theorem joinStars_append {t u : Text} (h : t.getLast? = some '*' → u.head? ≠ some '*') :
    joinStars (t ++ u) = joinStars t ++ joinStars u := by
  fun_induction joinStars t with
  | case1 t ih =>
      have hrest : t.getLast? = some '*' → u.head? ≠ some '*' := fun hlast => h (by
        rw [List.getLast?_cons, List.getLast?_cons, hlast]
        rfl)
      show '^' :: joinStars (t ++ u) = _
      rw [ih hrest]
      rfl
  | case2 c t hstars ih =>
      have hrest : t.getLast? = some '*' → u.head? ≠ some '*' := fun hlast => h (by
        rw [List.getLast?_cons, hlast]
        rfl)
      have hmeet : ∀ r, c = '*' → t ++ u = '*' :: r → False := by
        intro r hc hr
        cases t with
        | nil =>
            refine h (by rw [hc]; rfl) ?_
            rw [List.nil_append] at hr
            rw [hr]
            rfl
        | cons d t => exact hstars t hc (by rw [(List.cons.inj hr).1])
      rw [List.cons_append, joinStars_cons hmeet, ih hrest, List.cons_append]
  | case3 => rfl

theorem respell_append (previous : Option Char) (ls ms : List Lexeme) (c : Char) :
    respell previous (ls ++ .other c :: ms) =
      respell previous ls ++ .other c :: respell (some c) ms := by
  induction ls generalizing previous with
  | nil => rfl
  | cons l ls ih => rw [List.cons_append, respell, respell, ih, List.cons_append]

theorem respell_of_not_glues {c : Char} (h : glues c = false) (ls : List Lexeme) :
    respell (some c) ls = respell none ls := by
  have hone : ∀ l, respellOne (some c) l = respellOne none l := by
    intro l
    cases l with
    | word w => simp only [respellOne, Option.any_some, h, Option.any_none]
    | numeral t => rfl
    | other d => rfl
  cases ls with
  | nil => rfl
  | cons l ls => rw [respell, respell, hone]

theorem glues_of_stops {c : Char} {t : Text} (h : Stops c t) : glues c = false := by
  rw [glues, Bool.or_eq_false_iff]
  exact ⟨h.not_wordChar, by simpa using h.ne_point⟩

theorem spellWords_parts {t u : Text} {c : Char} (h : Parts t c u) :
    spellWords (t ++ c :: u) = spellWords t ++ c :: spellWords u := by
  simp only [spellWords, spell_eq_flatMap, lexemes_parts h, respell_append,
    respell_of_not_glues (glues_of_stops h.alone), List.flatMap_append, List.flatMap_cons]
  rfl

/-! ## How a pass ends a text -/

theorem ending_ofGlyph {c : Char} (h : c ≠ 'π') : ending (ofGlyph c) = ending [c] := by
  unfold ofGlyph
  split
  · rfl
  · rfl
  · rfl
  · exact absurd rfl h
  · rfl

theorem ending_replaceGlyphs {t : Text} (h : lastSolid t ≠ some 'π') :
    ending (replaceGlyphs t) = ending t := by
  induction t with
  | nil => rfl
  | cons c t ih =>
      rw [lastSolid] at h
      have hrest : lastSolid t ≠ some 'π' := by
        intro hlast
        rw [hlast] at h
        exact h rfl
      show ending (ofGlyph c ++ replaceGlyphs t) = _
      rw [ending_append, ih hrest, ending_cons]
      cases hlast : lastSolid t with
      | some x =>
          rw [ending, hlast]
          rfl
      | none =>
          -- Nothing solid follows, so the character itself is not the glyph of pi.
          have hc : c ≠ 'π' := by
            rintro rfl
            rw [hlast] at h
            exact h rfl
          rw [ending_ofGlyph hc]

theorem ending_expandPercents (t : Text) : ending (expandPercents t) = ending t := by
  fun_induction expandPercents t with
  | case1 => rfl
  | case2 c t hnumeral ih => rw [ending_cons, ih, ← ending_cons]
  | case3 c t hnumeral hpercent ih =>
      have hsplit := splitNumeral_append (c :: t)
      obtain ⟨rest, hrest⟩ := List.head?_eq_some_iff.1 hpercent
      rw [hrest, List.tail_cons] at ih ⊢
      rw [hrest, List.append_cons] at hsplit
      have hclosed : '(' :: (splitNumeral (c :: t)).1 ++ hundredth =
          ('(' :: (splitNumeral (c :: t)).1 ++ ['/', '1', '0', '0']) ++ [')'] := by
        simp [hundredth]
      rw [ending_append, ih, hclosed, ending_concat rfl, ← hsplit, ending_append, ending_concat rfl]
      rfl
  | case4 c t hnumeral hpercent ih => rw [ending_cons, ih, ← ending_cons]

theorem ending_joinStars (t : Text) : ending (joinStars t) = ending t := by
  fun_induction joinStars t with
  | case1 t ih =>
      have hstars := ending_append ['*', '*'] t
      rw [ending_cons, ih]
      exact hstars.symm
  | case2 c t hstars ih => rw [ending_cons, ih, ← ending_cons]
  | case3 => rfl

theorem ending_spellWords (t : Text) : ending (spellWords t) = ending t := by
  rw [← ending_lower, lower_spellWords, ending_lower]

end Canonical

open Canonical

/-- **Texts with an operator between them are brought to canonical notation one by one**, if no two
times signs meet. The operator must be no sign, for that could be the sign of an exponent. -/
theorem canonical_stop {c : Char} (hglyph : c ∉ glyphs) (hpercent : c ≠ '%')
    (hstops : ∀ v, Stops c v)
    {t u : Text} (hleft : c = '*' → (expandPercents (replaceGlyphs t)).getLast? ≠ some '*')
    (hright : c = '*' → (expandPercents (replaceGlyphs u)).head? ≠ some '*') :
    canonical (t ++ c :: u) = canonical t ++ c :: canonical u := by
  have hglyphs : replaceGlyphs (c :: u) = c :: replaceGlyphs u := by
    show ofGlyph c ++ replaceGlyphs u = _
    rw [ofGlyph_of_not_mem hglyph]
    rfl
  have hmeet : ∀ r, c = '*' → expandPercents (replaceGlyphs u) = '*' :: r → False := by
    intro r hc hr
    refine hright hc ?_
    rw [hr]
    rfl
  have hjoin : (expandPercents (replaceGlyphs t)).getLast? = some '*' →
      (c :: expandPercents (replaceGlyphs u)).head? ≠ some '*' := by
    rintro hlast ⟨⟩
    exact hleft rfl hlast
  rw [canonical, replaceGlyphs_append, hglyphs, expandPercents_parts ((hstops _).parts _) hpercent,
    joinStars_append hjoin, joinStars_cons hmeet, spellWords_parts ((hstops _).parts _)]
  rfl

/-- **The canonical notation ends as the text does**, if that does not end in the glyph of pi. -/
theorem ending_canonical {raw : Text} (h : lastSolid raw ≠ some 'π') :
    ending (canonical raw) = ending raw := by
  rw [canonical, ending_spellWords, ending_joinStars, ending_expandPercents, ending_replaceGlyphs h]

end DeskCalc
