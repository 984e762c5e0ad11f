import DeskCalc.Canonical
import DeskCalc.Number.Decimal

/-!
# The last answer in a text

The last answer enters an expression as text: `substitute` writes it in place of the word for it,
and `insert` appends it to what the user is typing. A negative answer has parentheses, so that its
square is positive.
-/

namespace DeskCalc.Answer

open Text

/-- The text that stands for the last answer, `0` if there is none. -/
def literal : Option Float → Text
  | none => ['0']
  | some v => if v < 0 then '(' :: Decimal.display v ++ [')'] else Decimal.display v

/-- The text with every run of word characters that is the word for the last answer replaced. A run
may start with digits, and `3ANS` is not replaced. The text is an admitted one. In other texts a run
would also have to go on over letters and digits beyond ASCII, and these are never admitted. -/
def substitute (answer : Text) : Text → Text
  | [] => []
  | c :: t =>
    if isWordChar c then
      let run := c :: t.takeWhile isWordChar
      (if run = Canonical.answerWord then answer else run) ++
        substitute answer (t.dropWhile isWordChar)
    else c :: substitute answer t
termination_by t => t.length
decreasing_by
  · have := (List.dropWhile_sublist isWordChar (l := t)).length_le
    simp only [List.length_cons]
    omega
  · simp

/-- Whether what is typed so far ends in a value, trailing blanks apart: in a letter, a digit, an
underscore, a point, a closing parenthesis or a percent sign. -/
def endsInValue (buffer : Text) : Bool :=
  (trimEnd buffer).getLast?.any fun c => c.isAlphanum || ['_', '.', ')', '%'].contains c

/-- The buffer with the last answer appended, as a factor if a value stands before it. Without a
last answer the buffer stays as it is. -/
def insert (answer : Option Float) (buffer : Text) : Text :=
  if answer.isSome then
    (if endsInValue buffer then buffer ++ ['*'] else buffer) ++ literal answer
  else buffer

end DeskCalc.Answer
