import DeskCalc.Text.DecimalDigit
import DeskCalc.Text.Exponent
import DeskCalc.Text.Word

/-!
# Lexemes

Raw text falls into numerals, words and single characters, read from the left and each as long as
possible. A numeral has its digits from any script and takes its exponent with it, so the letter of
an exponent is no word. Nothing is lost: the lexemes of a text make it up again.
-/

namespace DeskCalc

namespace Text

/-- The digits at the front of a text, with a point among them or beside them if there is one, and
the text after them. A point alone is not split off. -/
def splitMantissa (t : Text) : Text × Text :=
  let whole := t.takeWhile isDecimalDigit
  match t.dropWhile isDecimalDigit with
  | '.' :: rest =>
    let fraction := rest.takeWhile isDecimalDigit
    if whole.isEmpty && fraction.isEmpty then ([], t)
    else (whole ++ '.' :: fraction, rest.dropWhile isDecimalDigit)
  | rest => (whole, rest)

/-- The numeral at the front of a text, empty if there is none, and the text after it. -/
def splitNumeral (t : Text) : Text × Text :=
  let (mantissa, rest) := splitMantissa t
  if mantissa.isEmpty then ([], t)
  else (mantissa ++ (splitExponent isDecimalDigit rest).1, (splitExponent isDecimalDigit rest).2)

/-- The digits with their point and the text after them make up the text. -/
theorem splitMantissa_append (t : Text) : (splitMantissa t).1 ++ (splitMantissa t).2 = t := by
  have happ := List.takeWhile_append_dropWhile (p := isDecimalDigit) (l := t)
  simp only [splitMantissa]
  split
  · rename_i rest hrest
    split
    · rfl
    · have := List.takeWhile_append_dropWhile (p := isDecimalDigit) (l := rest)
      simp only [List.append_assoc, List.cons_append, this, ← hrest, happ]
  · exact happ

/-- The numeral and the text after it make up the text. -/
theorem splitNumeral_append (t : Text) : (splitNumeral t).1 ++ (splitNumeral t).2 = t := by
  simp only [splitNumeral]
  split
  · rfl
  · rw [List.append_assoc, splitExponent_append, splitMantissa_append]

/-- The text after a numeral is shorter than the text. -/
theorem length_splitNumeral_lt {t : Text} (h : (splitNumeral t).1.isEmpty = false) :
    (splitNumeral t).2.length < t.length := by
  have hlen := congrArg List.length (splitNumeral_append t)
  have hpos : 0 < (splitNumeral t).1.length :=
    List.length_pos_iff.2 (by simpa using h)
  rw [List.length_append] at hlen
  omega

end Text

/-- A piece of raw text. -/
inductive Lexeme where
  | numeral (text : Text)
  | word (text : Text)
  | other (c : Char)
  deriving DecidableEq

namespace Lexeme

/-- The text of a lexeme. -/
def text : Lexeme → Text
  | .numeral t => t
  | .word t => t
  | .other c => [c]

/-- The text of a word, nothing for other lexemes. -/
def word? : Lexeme → Option Text
  | .word t => some t
  | _ => none

end Lexeme

open Text in
/-- The lexemes of a text. -/
def lexemes : Text → List Lexeme
  | [] => []
  | c :: t =>
    if (splitNumeral (c :: t)).1.isEmpty then
      if startsWord c then
        .word (c :: t.takeWhile isWordChar) :: lexemes (t.dropWhile isWordChar)
      else .other c :: lexemes t
    else .numeral (splitNumeral (c :: t)).1 :: lexemes (splitNumeral (c :: t)).2
termination_by t => t.length
decreasing_by
  · have := (List.dropWhile_sublist isWordChar (l := t)).length_le
    simp only [List.length_cons]
    omega
  · simp
  · exact length_splitNumeral_lt (by simp_all)

/-- The words of a text. -/
def words (t : Text) : List Text :=
  (lexemes t).filterMap Lexeme.word?

end DeskCalc
