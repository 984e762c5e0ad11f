import DeskCalc.Canonical

/-!
# Admission

Before an expression is read, its canonical text has to pass two tests. `admitCharacters` lets
through a fixed set of characters and, of the words, the names of the vocabulary and the word for
the last answer, also where a word is glued to a number. `admitNumbers` refuses two points in a row.
-/

namespace DeskCalc

open Text

/-- Whether a character is admitted. -/
def isAdmitted (c : Char) : Bool :=
  c.isAlphanum || isBlank c ||
    ['.', '+', '-', '*', '/', '^', '(', ')', ',', '%', '_'].contains c

/-- Whether a word is admitted. -/
def isAdmittedWord (w : Text) : Bool :=
  w == Canonical.answerWord || Vocabulary.contains (String.ofList w)

/-- Refuses a text with a character or a word that is not admitted. -/
def admitCharacters (t : Text) : Except Refusal Unit :=
  if t.all isAdmitted && (words t).all isAdmittedWord then .ok ()
  else .error .invalidCharacters

/-- Whether two points follow one another in a text. -/
def hasTwoPoints : Text → Bool
  | '.' :: '.' :: _ => true
  | _ :: t => hasTwoPoints t
  | [] => false

/-- Refuses a text in which two points follow one another. -/
def admitNumbers (t : Text) : Except Refusal Unit :=
  if hasTwoPoints t then .error .badNumberFormat else .ok ()

end DeskCalc
