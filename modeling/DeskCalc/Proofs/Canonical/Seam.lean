import DeskCalc.Proofs.Canonical.Marks

/-!
# What is typed further

A text that is typed further keeps its canonical notation, if nothing goes on across the place where
the new part starts: if it ends in no digit, no word and no point, nor in the sign of an exponent.
The passes add nothing to the end of a text but parentheses and powers, so what is the last
character before they run parts the two texts in every pass. A times sign is the exception, for two
of them become one power; but nothing goes on across either.

* `suffix_expandPercents`, `suffix_joinStars`: what a text ends in after a pass.
* `joinStars_concat_star`: the pass over stars behind which a text is typed further.
* `exists_canonical_append`: the canonical notation of a text that is typed further.
-/

namespace DeskCalc

open Text

/-- What ends two texts in a row and does not have the first character of the second ends the rest
of it. -/
theorem Text.suffix_of_suffix_append {s t u : Text} {c : Char} (hs : c ∉ s)
    (h : s <:+ t ++ c :: u) : s <:+ u := by
  rcases List.suffix_or_suffix_of_suffix h (List.suffix_append t (c :: u)) with hinside | houtside
  · rcases List.suffix_cons_iff.1 hinside with rfl | hrest
    · exact absurd List.mem_cons_self hs
    · exact hrest
  · exact absurd (houtside.mem List.mem_cons_self) hs

namespace Canonical

/-! ## What a text ends in after a pass -/

/-- Where the second pass puts no parentheses it changes nothing. -/
theorem expandPercents_of_not_mem {t : Text} (h : ')' ∉ expandPercents t) :
    expandPercents t = t := by
  fun_induction expandPercents t with
  | case1 => rfl
  | case2 c t hnumeral ih => rw [ih fun hmem => h (List.mem_cons_of_mem c hmem)]
  | case3 c t hnumeral hpercent ih => exact absurd (by simp [hundredth]) h
  | case4 c t hnumeral hpercent ih => rw [ih fun hmem => h (List.mem_cons_of_mem c hmem)]

/-- What a text ends in after the second pass, without a parenthesis, it ended in before. -/
theorem suffix_expandPercents {s t : Text} (hs : ')' ∉ s) (h : s <:+ expandPercents t) :
    s <:+ t := by
  have hcopied : ∀ c u, (s <:+ expandPercents u → s <:+ u) → s <:+ c :: expandPercents u →
      s <:+ c :: u := by
    intro c u hlater h
    rcases List.suffix_cons_iff.1 h with rfl | hrest
    · have hsame := expandPercents_of_not_mem fun hmem => hs (List.mem_cons_of_mem c hmem)
      exact ⟨[], congrArg (c :: ·) hsame⟩
    · exact List.suffix_cons_iff.2 (.inr (hlater hrest))
  fun_induction expandPercents t with
  | case1 => exact h
  | case2 c t hnumeral ih => exact hcopied c t ih h
  | case3 c t hnumeral hpercent ih =>
      obtain ⟨rest, hrest⟩ := List.head?_eq_some_iff.1 hpercent
      rw [hrest, List.tail_cons] at ih h
      have hclosed : '(' :: (splitNumeral (c :: t)).1 ++ hundredth ++ expandPercents rest =
          ('(' :: (splitNumeral (c :: t)).1 ++ ['/', '1', '0', '0']) ++
            ')' :: expandPercents rest := by
        simp [hundredth]
      rw [hclosed] at h
      have hlater := ih (suffix_of_suffix_append hs h)
      rw [← splitNumeral_append (c :: t), hrest]
      exact hlater.trans ((List.suffix_cons '%' rest).trans (List.suffix_append _ _))
  | case4 c t hnumeral hpercent ih => exact hcopied c t ih h

theorem joinStars_of_not_mem {t : Text} (h : '^' ∉ joinStars t) : joinStars t = t := by
  fun_induction joinStars t with
  | case1 t ih => exact absurd List.mem_cons_self h
  | case2 c t hstars ih => rw [ih fun hmem => h (List.mem_cons_of_mem c hmem)]
  | case3 => rfl

/-- What a text ends in after the third pass, without a power, it ended in before. -/
theorem suffix_joinStars {s t : Text} (hs : '^' ∉ s) (h : s <:+ joinStars t) : s <:+ t := by
  fun_induction joinStars t with
  | case1 t ih =>
      have hlater := ih (suffix_of_suffix_append (t := []) hs h)
      exact hlater.trans (List.suffix_append ['*', '*'] t)
  | case2 c t hstars ih =>
      rcases List.suffix_cons_iff.1 h with rfl | hrest
      · have hsame := joinStars_of_not_mem fun hmem => hs (List.mem_cons_of_mem c hmem)
        exact ⟨[], congrArg (c :: ·) hsame⟩
      · exact (ih hrest).trans (List.suffix_cons c t)
  | case3 => exact h

/-! ## A character that parts two texts -/

/-- A character still parts two texts when a pass has changed the first of them, unless that makes
it end in the letter of an exponent. -/
theorem parts_of_suffix {t t' u : Text} {c : Char} (h : Parts t c u)
    (hsuffix : ∀ d e, isDecimalDigit d = true ∨ d = '.' → e = 'e' ∨ e = 'E' → [d, e] <:+ t' →
      [d, e] <:+ t) : Parts t' c u := by
  refine ⟨h.alone, ?_⟩
  rintro v d e rfl hd he
  obtain ⟨w, rfl⟩ := hsuffix d e hd he (List.suffix_append v [d, e])
  exact h.no_exponent w d e rfl hd he

/-- A mantissa and the letter of an exponent have no other character in them. -/
theorem not_mem_exponent {x d e : Char} (hdigit : isDecimalDigit x = false) (hpoint : x ≠ '.')
    (hletter : x ≠ 'e' ∧ x ≠ 'E') (hd : isDecimalDigit d = true ∨ d = '.')
    (he : e = 'e' ∨ e = 'E') : x ∉ [d, e] := by
  intro hmem
  rcases List.mem_cons.1 hmem with rfl | hmem
  · rw [hdigit] at hd
    exact hpoint (hd.resolve_left Bool.false_ne_true)
  · rw [List.mem_singleton.1 hmem] at hletter
    exact he.elim hletter.1 hletter.2

/-- A character that parts two texts still does so behind the second and the third pass. -/
theorem parts_passes {t u : Text} {c : Char} (h : Parts t c u) :
    Parts (expandPercents t) c u ∧ Parts (joinStars (expandPercents t)) c u := by
  have hexpanded : Parts (expandPercents t) c u := parts_of_suffix h fun d e hd he =>
    suffix_expandPercents (not_mem_exponent (by decide) (by decide) (by decide) hd he)
  exact ⟨hexpanded, parts_of_suffix hexpanded fun d e hd he =>
    suffix_joinStars (not_mem_exponent (by decide) (by decide) (by decide) hd he)⟩

/-- A text that ends in a star ends in a star or a power after the third pass. -/
theorem joinStars_concat_star (t : Text) :
    ∃ j x, joinStars (t ++ ['*']) = j ++ [x] ∧ (x = '*' ∨ x = '^') := by
  fun_induction joinStars t with
  | case1 t ih =>
      obtain ⟨j, x, hj, hx⟩ := ih
      exact ⟨'^' :: j, x, congrArg ('^' :: ·) hj, hx⟩
  | case2 c t hstars ih =>
      obtain ⟨j, x, hj, hx⟩ := ih
      by_cases hpair : c = '*' ∧ t = []
      · obtain ⟨rfl, rfl⟩ := hpair
        exact ⟨[], '^', rfl, .inr rfl⟩
      · have hmeet : ∀ r, c = '*' → t ++ ['*'] = '*' :: r → False := by
          intro r hc hr
          cases t with
          | nil => exact hpair ⟨hc, rfl⟩
          | cons d t => exact hstars t hc (by rw [(List.cons.inj hr).1])
        refine ⟨c :: j, x, ?_, hx⟩
        rw [List.cons_append, joinStars_cons hmeet, hj, List.cons_append]
  | case3 => exact ⟨[], '*', rfl, .inl rfl⟩

theorem stops_power (t : Text) : Stops '^' t :=
  ⟨by decide, by decide, by decide, fun h => by simp at h⟩

/-- After the third pass a text ends in a character that parts what the last one parted before. -/
theorem exists_parts_joinStars {t : Text} {c : Char} (halone : Stops c []) :
    ∃ j x, joinStars (t ++ [c]) = j ++ [x] ∧ Stops x [] ∧
      ∀ u, Parts (joinStars t) c u → Parts j x u := by
  by_cases hc : c = '*'
  · subst hc
    obtain ⟨j, x, hj, rfl | rfl⟩ := joinStars_concat_star t
    · exact ⟨j, '*', hj, stops_star [], fun u _ => (stops_star u).parts j⟩
    · exact ⟨j, '^', hj, stops_power [], fun u _ => (stops_power u).parts j⟩
  · have hone : t.getLast? = some '*' → [c].head? ≠ some '*' :=
      fun _ hhead => hc (Option.some.inj hhead)
    refine ⟨joinStars t, c, ?_, halone, fun _ h => h⟩
    rw [joinStars_append hone, joinStars_cons fun _ h => absurd h hc]
    rfl

/-- Texts that are spelled one by one fall into the words of both. -/
theorem words_spellWords_parts {t u : Text} {c : Char} (h : Parts t c u) :
    words (spellWords t ++ c :: spellWords u) = words (spellWords t) ++ words (spellWords u) := by
  rw [← spellWords_parts h, words, lexemes_spellWords, lexemes_parts h, respell_append,
    respell_of_not_glues (glues_of_stops h.alone), ← lexemes_spellWords, ← lexemes_spellWords,
    List.filterMap_append]
  rfl

/-- **A text in normal form that is typed further stays as it is**, and what stands before it does
not depend on it, if the last character before it parts them once the glyphs are replaced. Its words
are then added to those before it. -/
theorem exists_canonical_append {t v : Text} {c : Char} (hglyphs : replaceGlyphs t = v ++ [c])
    (halone : Stops c []) (hpercent : c ≠ '%') :
    ∃ k x, Stops x [] ∧ ∀ u, Normal u → u.head? ≠ some '*' → Parts v c u →
      canonical (t ++ u) = k ++ x :: u ∧ words (k ++ x :: u) = words k ++ words u := by
  obtain ⟨j, x, hjoined, hx, hparts⟩ := exists_parts_joinStars (t := expandPercents v) halone
  refine ⟨spellWords j, x, hx, fun u hu hhead hv => ?_⟩
  obtain ⟨hexpanded, hlast⟩ := parts_passes hv
  have hwords := words_spellWords_parts (hparts u hlast)
  rw [hu.spelled] at hwords
  refine ⟨?_, hwords⟩
  have hstars : (expandPercents v ++ [c]).getLast? = some '*' → u.head? ≠ some '*' := fun _ => hhead
  calc canonical (t ++ u)
      = spellWords (joinStars (expandPercents (v ++ c :: u))) := by
        rw [canonical, replaceGlyphs_append, hglyphs, replaceGlyphs_eq_self hu.glyphFree,
          List.append_assoc, List.singleton_append]
    _ = spellWords (joinStars (expandPercents v ++ [c] ++ u)) := by
        rw [expandPercents_parts hv hpercent, expandPercents_eq_self hu.percentFree,
          List.append_assoc, List.singleton_append]
    _ = spellWords (j ++ x :: u) := by
        rw [joinStars_append hstars, hjoined, joinStars_eq_self hu.starFree, List.append_assoc,
          List.singleton_append]
    _ = spellWords j ++ x :: u := by
        rw [spellWords_parts (hparts u hlast), hu.spelled]

end Canonical

end DeskCalc
