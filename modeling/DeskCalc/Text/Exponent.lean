import DeskCalc.Text.Blank

/-!
# Exponent parts

A numeral may end in an exponent: the letter `e` or `E`, an optional sign and at least one digit.
Without a digit there is no exponent, and the letter is left for a word to start with. What a digit
is differs between readers, so it is a parameter here.
-/

namespace DeskCalc.Text

/-- The sign at the front of a text, if there is one, and the text after it. -/
def splitSign : Text → Text × Text
  | '+' :: t => (['+'], t)
  | '-' :: t => (['-'], t)
  | t => ([], t)

/-- The exponent part at the front of a text, empty if there is none, and the text after it. -/
def splitExponent (digit : Char → Bool) : Text → Text × Text
  | [] => ([], [])
  | c :: t =>
    let (sign, digits) := splitSign t
    if (c == 'e' || c == 'E') && !(digits.takeWhile digit).isEmpty then
      (c :: sign ++ digits.takeWhile digit, digits.dropWhile digit)
    else ([], c :: t)

/-- The sign and the text after it make up the text. -/
theorem splitSign_append (t : Text) : (splitSign t).1 ++ (splitSign t).2 = t := by
  fun_cases splitSign t <;> rfl

/-- The exponent part and the text after it make up the text. -/
theorem splitExponent_append (digit : Char → Bool) (t : Text) :
    (splitExponent digit t).1 ++ (splitExponent digit t).2 = t := by
  fun_cases splitExponent digit t with
  | case1 => rfl
  | case2 c t sign digits hsplit h =>
    have := splitSign_append t
    simp_all [List.takeWhile_append_dropWhile]
  | case3 c t sign digits hsplit h => rfl

/-- The number that an exponent part denotes; an empty one denotes zero. -/
def exponentValue : Text → Int
  | _ :: '-' :: digits => -(Nat.ofDigitChars 10 digits 0)
  | _ :: '+' :: digits => Nat.ofDigitChars 10 digits 0
  | _ :: digits => Nat.ofDigitChars 10 digits 0
  | [] => 0

end DeskCalc.Text
