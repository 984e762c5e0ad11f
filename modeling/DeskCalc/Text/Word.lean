import DeskCalc.Text.Blank

/-!
# Words

A word is a run of ASCII letters, ASCII digits and underscores that does not start with a digit.
Case is folded for ASCII letters alone, as `Char.toLower` does.
-/

namespace DeskCalc.Text

/-- Whether a word can start with the character. -/
def startsWord (c : Char) : Bool :=
  c.isAlpha || c == '_'

/-- Whether a word can go on with the character. -/
def isWordChar (c : Char) : Bool :=
  c.isAlphanum || c == '_'

/-- A character that can start a word can also go on with one. -/
theorem isWordChar_of_startsWord {c : Char} (h : startsWord c = true) : isWordChar c = true := by
  simp only [startsWord, isWordChar, Char.isAlphanum, Bool.or_eq_true] at h ⊢
  exact h.elim (fun h => Or.inl (Or.inl h)) Or.inr

/-- The text with its ASCII letters in lower case. -/
def lower (t : Text) : Text :=
  t.map Char.toLower

end DeskCalc.Text
