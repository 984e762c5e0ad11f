import DeskCalc.Canonical
import DeskCalc.Proofs.Text.LetterCase

/-!
# What the last pass changes

The last pass writes words in another case and changes nothing else. So its result falls into the
same lexemes as the text did, up to case, and the words that it has spelled once it spells in the
same way again.

* `lower_spellWords`: the last pass changes the case of letters alone.
* `lexemes_spellWords`: the lexemes of the result are those of the text, respelled.
* `spellWords_spellWords`: spelling twice is spelling once.
-/

namespace DeskCalc

open Text

/-! ## Lexemes up to case -/

@[simp] theorem Lexeme.text_lower (l : Lexeme) : l.lower.text = Text.lower l.text := by
  cases l <;> rfl

theorem flatMap_text_lexemes (t : Text) : (lexemes t).flatMap Lexeme.text = t := by
  fun_induction lexemes t with
  | case1 => rfl
  | case2 c t hnumeral hstart ih =>
      show c :: t.takeWhile isWordChar ++ (lexemes (t.dropWhile isWordChar)).flatMap Lexeme.text = _
      rw [ih, List.cons_append, List.takeWhile_append_dropWhile]
  | case3 c t hnumeral hstart ih =>
      show [c] ++ (lexemes t).flatMap Lexeme.text = _
      rw [ih]
      rfl
  | case4 c t hnumeral ih =>
      show (splitNumeral (c :: t)).1 ++ (lexemes (splitNumeral (c :: t)).2).flatMap Lexeme.text = _
      rw [ih, splitNumeral_append]

theorem lower_flatMap_text (ls : List Lexeme) :
    Text.lower (ls.flatMap Lexeme.text) = (ls.map Lexeme.lower).flatMap Lexeme.text := by
  induction ls with
  | nil => rfl
  | cons l ls ih =>
      rw [List.flatMap_cons, List.map_cons, List.flatMap_cons, ← ih, Lexeme.text_lower]
      exact List.map_append

/-- Lexemes that differ in case alone and have the same text are the same. -/
theorem Lexeme.eq_of_lower_eq {l m : Lexeme} (hlower : l.lower = m.lower)
    (htext : l.text = m.text) : l = m := by
  cases l <;> cases m <;> simp_all [Lexeme.lower, Lexeme.text]

/-- Lists of lexemes that differ in case alone and make up the same text are the same. -/
theorem lexemes_eq_of_lower_eq {ls ms : List Lexeme}
    (hlower : ls.map Lexeme.lower = ms.map Lexeme.lower)
    (htext : ls.flatMap Lexeme.text = ms.flatMap Lexeme.text) : ls = ms := by
  induction ls generalizing ms with
  | nil => exact (List.map_eq_nil_iff.1 hlower.symm).symm
  | cons l ls ih =>
      cases ms with
      | nil => cases hlower
      | cons m ms =>
          obtain ⟨hhead, htail⟩ := List.cons.inj hlower
          -- Case keeps lengths, so the common text is cut at the same places.
          have hlength : l.text.length = m.text.length := by
            have := congrArg (fun x => (Lexeme.text x).length) hhead
            simpa [Lexeme.text_lower, Text.lower] using this
          obtain ⟨hfirst, hrest⟩ := List.append_inj htext hlength
          rw [Lexeme.eq_of_lower_eq hhead hfirst, ih htail hrest]

namespace Canonical

/-! ## One word -/

/-- **Spelling a word changes the case of its letters alone.** -/
@[simp] theorem lower_spelling (w : Text) : lower (spelling w) = lower w := by
  rw [spelling]
  split
  · rename_i h
    rw [h]
    rfl
  · split
    · rename_i h
      rw [h]
      rfl
    · split
      · rename_i h
        rw [h]
        rfl
      · rw [Vocabulary.functionName?]
        split
        · exact lower_lower w
        · rfl

@[simp] theorem spelling_spelling (w : Text) : spelling (spelling w) = spelling w := by
  -- Which spelling a word takes depends on its lower case, which is the same for both.
  have hcase := lower_spelling w
  rw [spelling, hcase]
  by_cases hpi : lower w = ['p', 'i']
  · simp only [spelling, hpi, if_true]
  by_cases he : lower w = ['e']
  · simp only [spelling, he, if_true]
  by_cases hans : lower w = ['a', 'n', 's']
  · simp only [spelling, hans, if_true]
  have hname : Vocabulary.functionName? (spelling w) = Vocabulary.functionName? w := by
    simp only [Vocabulary.functionName?, hcase]
  rw [if_neg hpi, if_neg he, if_neg hans, hname]
  simp only [spelling, hpi, he, hans, if_false]
  cases Vocabulary.functionName? w <;> rfl

@[simp] theorem glues_toLower (c : Char) : glues c.toLower = glues c := by
  rw [glues, isAlphanum_toLower, toLower_beq rfl, toLower_beq rfl]
  rfl

/-- Whether the next word is glued is not a matter of case. -/
theorem any_glues_of_map_eq {p q : Option Char} (h : p.map Char.toLower = q.map Char.toLower) :
    p.any glues = q.any glues := by
  have hlower : ∀ o : Option Char, o.any glues = (o.map Char.toLower).any glues := by
    intro o
    cases o with
    | none => rfl
    | some c => exact (glues_toLower c).symm
  rw [hlower p, hlower q, h]

/-! ## All words -/

/-- A lexeme after the character `previous`, in canonical spelling if it is a word that is not
glued. -/
def respellOne (previous : Option Char) : Lexeme → Lexeme
  | .word w => .word (if previous.any glues then w else spelling w)
  | l => l

/-- Lexemes after the character `previous`, with the words that are not glued in canonical
spelling. -/
def respell (previous : Option Char) : List Lexeme → List Lexeme
  | [] => []
  | l :: ls => respellOne previous l :: respell l.text.getLast? ls

theorem spell_eq_flatMap (previous : Option Char) (ls : List Lexeme) :
    spell previous ls = (respell previous ls).flatMap Lexeme.text := by
  induction ls generalizing previous with
  | nil => rfl
  | cons l ls ih =>
      rw [respell, List.flatMap_cons, ← ih]
      cases l with
      | numeral t => rfl
      | word w => rfl
      | other c => rfl

theorem lower_respellOne (previous : Option Char) (l : Lexeme) :
    (respellOne previous l).lower = l.lower := by
  cases l with
  | numeral t => rfl
  | other c => rfl
  | word w =>
      show Lexeme.word (lower (if _ then w else spelling w)) = .word (lower w)
      split
      · rfl
      · rw [lower_spelling]

theorem map_lower_respell (previous : Option Char) (ls : List Lexeme) :
    (respell previous ls).map Lexeme.lower = ls.map Lexeme.lower := by
  induction ls generalizing previous with
  | nil => rfl
  | cons l ls ih => rw [respell, List.map_cons, List.map_cons, lower_respellOne, ih]

/-- Spelling words changes the case of letters alone, whatever stands before them. -/
theorem lower_spell (previous : Option Char) (t : Text) :
    lower (spell previous (lexemes t)) = lower t := by
  rw [spell_eq_flatMap, lower_flatMap_text, map_lower_respell, ← lower_flatMap_text,
    flatMap_text_lexemes]

/-- **The last pass changes the case of letters alone.** -/
theorem lower_spellWords (t : Text) : lower (spellWords t) = lower t :=
  lower_spell none t

/-- **The result of the last pass falls into the respelled lexemes.** -/
theorem lexemes_spellWords (t : Text) : lexemes (spellWords t) = respell none (lexemes t) := by
  refine lexemes_eq_of_lower_eq ?_ ?_
  · rw [← lexemes_lower, lower_spellWords, lexemes_lower, map_lower_respell]
  · rw [flatMap_text_lexemes, spellWords, spell_eq_flatMap]

/-- A respelled lexeme stays as it is, after any character that differs in case alone. -/
theorem respellOne_respellOne {p q : Option Char} (h : q.map Char.toLower = p.map Char.toLower)
    (l : Lexeme) : respellOne q (respellOne p l) = respellOne p l := by
  cases l with
  | numeral t => rfl
  | other c => rfl
  | word w =>
      simp only [respellOne, any_glues_of_map_eq h]
      split
      · rfl
      · rw [spelling_spelling]

theorem respell_respell {p q : Option Char} (h : q.map Char.toLower = p.map Char.toLower)
    (ls : List Lexeme) : respell q (respell p ls) = respell p ls := by
  induction ls generalizing p q with
  | nil => rfl
  | cons l ls ih =>
      have hlast : (respellOne p l).text.getLast?.map Char.toLower =
          l.text.getLast?.map Char.toLower := by
        have htext := congrArg Lexeme.text (lower_respellOne p l)
        rw [Lexeme.text_lower, Lexeme.text_lower] at htext
        rw [← List.getLast?_map, ← List.getLast?_map]
        exact congrArg List.getLast? htext
      rw [respell, respell, respellOne_respellOne h, ih hlast]

/-- **Spelling twice is spelling once.** -/
theorem spellWords_spellWords (t : Text) : spellWords (spellWords t) = spellWords t := by
  have hagain := respell_respell (p := none) (q := none) rfl (lexemes t)
  rw [spellWords, lexemes_spellWords, spell_eq_flatMap, hagain, ← spell_eq_flatMap, ← spellWords]

end Canonical

end DeskCalc
