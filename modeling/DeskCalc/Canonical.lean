import DeskCalc.Canonical.Lexeme
import DeskCalc.Vocabulary

/-!
# The canonical notation

Raw text is brought to canonical notation by four passes, each on the result of the one before.

1. `replaceGlyphs`: the glyphs of a keyboard become operators and the name of the constant.
2. `expandPercents`: a numeral with a percent sign becomes a division by 100 in parentheses.
3. `joinStars`: two stars are the power operator.
4. `spellWords`: the names of constants and functions, in any case, take the case of the vocabulary,
   except where they are glued to what precedes them.

No text is refused here; what makes no sense is left for later checks.
-/

namespace DeskCalc

open Text

namespace Canonical

/-- What a character becomes when the glyphs are replaced. -/
def ofGlyph : Char → Text
  | '×' => ['*']
  | '÷' => ['/']
  | '−' => ['-']
  | 'π' => ['P', 'I']
  | c => [c]

/-- The text with the glyphs for times, divide, minus and pi replaced. -/
def replaceGlyphs (t : Text) : Text :=
  t.flatMap ofGlyph

/-- What follows the numeral when its percent sign is expanded. -/
def hundredth : Text := ['/', '1', '0', '0', ')']

/-- The text with each numeral that a percent sign follows divided by 100. The search goes on at
the next character where no such numeral starts, so it can start inside a longer numeral. -/
def expandPercents : Text → Text
  | [] => []
  | c :: t =>
    if (splitNumeral (c :: t)).1.isEmpty then c :: expandPercents t
    else if (splitNumeral (c :: t)).2.head? = some '%' then
      '(' :: (splitNumeral (c :: t)).1 ++ hundredth ++
        expandPercents (splitNumeral (c :: t)).2.tail
    else c :: expandPercents t
termination_by t => t.length
decreasing_by
  · simp
  · have := length_splitNumeral_lt (t := c :: t) (by simp_all)
    simp only [List.length_tail]
    omega
  · simp

/-- The text with every two stars, from the left, joined to a power operator. -/
def joinStars : Text → Text
  | '*' :: '*' :: t => '^' :: joinStars t
  | c :: t => c :: joinStars t
  | [] => []

/-- The word for the last answer. -/
def answerWord : Text := ['A', 'N', 'S']

/-- The spelling of a word in canonical notation; an unknown word keeps its own. -/
def spelling (word : Text) : Text :=
  if lower word = ['p', 'i'] then ['P', 'I']
  else if lower word = ['e'] then ['E']
  else if lower word = ['a', 'n', 's'] then answerWord
  else (Vocabulary.functionName? word).getD word

/-- Whether a word right after the character is glued to it. -/
def glues (c : Char) : Bool :=
  c.isAlphanum || c == '_' || c == '.'

/-- The text of lexemes that follow the character `previous`, with the words that are not glued in
their canonical spelling. -/
def spell (previous : Option Char) : List Lexeme → Text
  | [] => []
  | lexeme :: ls =>
    let text := match lexeme with
      | .word w => if previous.any glues then w else spelling w
      | _ => lexeme.text
    text ++ spell lexeme.text.getLast? ls

/-- The text with its words in their canonical spelling. -/
def spellWords (t : Text) : Text :=
  spell none (lexemes t)

end Canonical

open Canonical in
/-- The canonical notation of a text. -/
def canonical (raw : Text) : Text :=
  spellWords (joinStars (expandPercents (replaceGlyphs raw)))

end DeskCalc
