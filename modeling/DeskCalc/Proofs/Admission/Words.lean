import DeskCalc.Admission
import DeskCalc.Proofs.Canonical.Spelling
import DeskCalc.Proofs.Text.Stop
import DeskCalc.Proofs.Token.Names

/-!
# What admission says of a text

Admission looks at the words of a text as the canonical notation finds them, before any token is
read. A character that is let through either goes on with a number or a word or stops both kinds of
scanner. So a word that stands alone is one of those that are looked at.

* `admitCharacters_eq_ok`, `admitNumbers_eq_ok`: what is let through.
* `stops_of_isAdmitted`: the characters that stop every scanner.
* `lexemes_alone`: a word that stands alone is a lexeme.
* `isAdmittedWord_of_alone`: it is an admitted word.
-/

namespace DeskCalc

open Text Token

theorem admitCharacters_eq_ok {t : Text} :
    admitCharacters t = .ok () ↔
      (∀ c ∈ t, isAdmitted c = true) ∧ ∀ w ∈ words t, isAdmittedWord w = true := by
  rw [admitCharacters, ← List.all_eq_true, ← List.all_eq_true, ← Bool.and_eq_true]
  split
  · rename_i h
    exact iff_of_true rfl h
  · rename_i h
    exact iff_of_false (fun h => by cases h) h

theorem admitNumbers_eq_ok {t : Text} : admitNumbers t = .ok () ↔ hasTwoPoints t = false := by
  rw [admitNumbers]
  cases hasTwoPoints t with
  | true => exact iff_of_false (fun h => by cases h) (fun h => by cases h)
  | false => exact iff_of_true rfl rfl

/-- The admitted characters are those that go on with a number or a word, the blanks, the symbols
and the percent sign. -/
theorem isAdmitted_iff {c : Char} :
    isAdmitted c = true ↔
      goesOn c = true ∨ isBlank c = true ∨ (∃ token, ofSymbol? c = some token) ∨ c = '%' := by
  constructor
  · intro h
    rw [isAdmitted, Bool.or_eq_true, Bool.or_eq_true] at h
    rcases h with (halphanum | hblank) | hlist
    · exact .inl (goesOn_iff.2 (.inl halphanum))
    · exact .inr (.inl hblank)
    · simp only [List.contains_iff_mem, List.mem_cons, List.not_mem_nil, or_false] at hlist
      rcases hlist with rfl | rfl | rfl | rfl | rfl | rfl | rfl | rfl | rfl | rfl | rfl
      · exact .inl rfl
      iterate 8 exact .inr (.inr (.inl ⟨_, rfl⟩))
      · exact .inr (.inr (.inr rfl))
      · exact .inl rfl
  · rintro (hgoes | hblank | ⟨token, hsymbol⟩ | rfl)
    · rcases goesOn_iff.1 hgoes with halphanum | rfl | rfl
      · rw [isAdmitted, halphanum, Bool.true_or, Bool.true_or]
      · rfl
      · rfl
    · rw [isAdmitted, hblank, Bool.or_true, Bool.true_or]
    · cases isSymbol hsymbol with
      | operator op => cases op <;> rfl
      | openParen => rfl
      | closeParen => rfl
      | comma => rfl
    · rfl

/-- An admitted character that does not go on with a number or a word stops every scanner, unless it
is the sign of an exponent. -/
theorem stops_of_isAdmitted {c : Char} (h : isAdmitted c = true) (hgoes : goesOn c = false)
    {t : Text} (ht : t.head?.any isDecimalDigit = false) : Stops c t := by
  have hnone := Bool.or_eq_false_iff.1 hgoes
  refine ⟨?_, hnone.1, by simpa using hnone.2, fun _ => ht⟩
  rcases isAdmitted_iff.1 h with hgoes' | hblank | ⟨token, hsymbol⟩ | rfl
  · rw [hgoes'] at hgoes
    cases hgoes
  · exact isDecimalDigit_of_isBlank hblank
  · exact isDecimalDigit_of_ofSymbol? hsymbol
  · decide

/-- A word is a lexeme, where nothing goes on with it. -/
theorem lexemes_word {w t : Text} (hw : isWord w = true) (ht : t.head?.any isWordChar = false) :
    lexemes (w ++ t) = .word w :: lexemes t := by
  cases w with
  | nil => cases hw
  | cons c w =>
      obtain ⟨hstarts, hrest⟩ := isWord_cons hw
      have hpoint : c ≠ '.' := by
        rintro rfl
        cases hstarts
      have hnumeral := splitNumeral_of_head (isDecimalDigit_of_startsWord hstarts) hpoint (w ++ t)
      rw [List.cons_append, lexemes]
      simp only [hnumeral, List.isEmpty_nil, hstarts, if_true, takeWhile_run hrest ht,
        dropWhile_run hrest ht]

/-- **A word that stands alone in an admitted text is one of its lexemes.** -/
theorem lexemes_alone {w before after : Text} (hbefore : ∀ c ∈ before, isAdmitted c = true)
    (h : Alone w before after) :
    lexemes (before ++ (w ++ after)) = lexemes before ++ .word w :: lexemes after := by
  rcases List.eq_nil_or_concat before with rfl | ⟨u, c, rfl⟩
  · rw [List.nil_append, lexemes_word h.isWord h.after]
    simp [lexemes]
  · have hgoes : goesOn c = false := by simpa using h.before
    have hadmitted := hbefore c (by simp)
    have hstop : Stops c (w ++ after) := by
      refine stops_of_isAdmitted hadmitted hgoes ?_
      cases w with
      | nil => cases h.isWord
      | cons d w => exact isDecimalDigit_of_startsWord (isWord_cons h.isWord).1
    have hnothing : Stops c [] :=
      ⟨hstop.not_digit, hstop.not_wordChar, hstop.ne_point, fun _ => rfl⟩
    rw [List.concat_eq_append, List.append_assoc, List.singleton_append, lexemes_stop hstop,
      lexemes_stop hnothing, lexemes_word h.isWord h.after]
    simp [lexemes]

/-- **A word that stands alone in an admitted text is an admitted word.** -/
theorem isAdmittedWord_of_alone {t w before after : Text} (ht : admitCharacters t = .ok ())
    (hsplit : t = before ++ (w ++ after)) (h : Alone w before after) : isAdmittedWord w = true := by
  obtain ⟨hcharacters, hwords⟩ := admitCharacters_eq_ok.1 ht
  refine hwords w ?_
  have hbefore : ∀ c ∈ before, isAdmitted c = true := fun c hc =>
    hcharacters c (by rw [hsplit]; exact List.mem_append_left _ hc)
  rw [words, hsplit, lexemes_alone hbefore h, List.filterMap_append]
  simp [Lexeme.word?]

end DeskCalc
