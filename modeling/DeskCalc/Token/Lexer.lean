import DeskCalc.Fault
import DeskCalc.Text.Exponent
import DeskCalc.Text.Word
import DeskCalc.Token

/-!
# Tokens of a text

The text is read from the left, blanks are skipped, and each token takes as many characters as it
can: a word runs on while the characters are word characters, a number takes a run of ASCII digits
and points and then an exponent if digits follow its letter. A run with two points, or without a
digit, is refused with its exponent.
-/

namespace DeskCalc

namespace Token

/-- Whether a character can stand in the mantissa of a number. -/
def isMantissaChar (c : Char) : Bool :=
  c.isDigit || c == '.'

/-- Whether a run of digits and points is a mantissa. -/
def isMantissa (run : Text) : Bool :=
  run.count '.' ≤ 1 && run.any Char.isDigit

/-- The number token at the front of a text that starts with a digit or a point, and the text after
it. -/
def scanNumber (t : Text) : Except Fault Token × Text :=
  let run := t.takeWhile isMantissaChar
  let (exponent, rest) := Text.splitExponent Char.isDigit (t.dropWhile isMantissaChar)
  if isMantissa run then
    (.ok (.number (Decimal.read run (Text.exponentValue exponent))), rest)
  else (.error (.badNumber (run ++ exponent)), rest)

/-- The rest after a number is shorter than the text. -/
theorem length_scanNumber_lt {c : Char} (h : isMantissaChar c = true) (t : Text) :
    (scanNumber (c :: t)).2.length < (c :: t).length := by
  have happ := Text.splitExponent_append Char.isDigit (t.dropWhile isMantissaChar)
  have hlen := congrArg List.length happ
  have hdrop := (List.dropWhile_sublist isMantissaChar (l := t)).length_le
  have hrest : (scanNumber (c :: t)).2 =
      (Text.splitExponent Char.isDigit (t.dropWhile isMantissaChar)).2 := by
    simp only [scanNumber, List.dropWhile_cons, h, if_true]
    split <;> rfl
  simp only [List.length_append] at hlen
  simp only [hrest, List.length_cons]
  omega

end Token

open Token Text in
/-- The tokens of a text, or the first fault from the left. -/
def tokenize : Text → Except Fault (List Token)
  | [] => .ok []
  | c :: t =>
    if isBlank c then tokenize t
    else match ofSymbol? c with
      | some token => do return token :: (← tokenize t)
      | none =>
        if startsWord c then do
          let word := c :: t.takeWhile isWordChar
          return .name (String.ofList word) :: (← tokenize (t.dropWhile isWordChar))
        else if isMantissaChar c then do
          let token ← (scanNumber (c :: t)).1
          return token :: (← tokenize (scanNumber (c :: t)).2)
        else .error (.unexpectedChar c)
termination_by t => t.length
decreasing_by
  all_goals simp only [List.length_cons]
  · omega
  · omega
  · have := (List.dropWhile_sublist isWordChar (l := t)).length_le
    omega
  · exact length_scanNumber_lt (by assumption) t

end DeskCalc
