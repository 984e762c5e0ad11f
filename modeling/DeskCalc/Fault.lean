import DeskCalc.Text.Blank

/-!
# Why an expression has no value

A `Fault` is the diagnosis made while an expression is split, ordered, built or evaluated. The user
of a session sees only a `Refusal`: one of five classes, of which `badExpression` stands for every
fault.
-/

namespace DeskCalc

/-- What is wrong with an expression. -/
inductive Fault where
  /-- The character starts no token. -/
  | unexpectedChar (c : Char)
  /-- The digits and points do not make a number. -/
  | badNumber (literal : Text)
  /-- A parenthesis is not closed. -/
  | unclosedParen
  /-- A closing parenthesis has no opening one. -/
  | unopenedParen
  /-- A comma stands outside the parentheses of a call. -/
  | strayComma
  /-- Nothing has this name. -/
  | unknownName (name : String)
  /-- The function takes another number of arguments. -/
  | wrongArity (name : String) (expected got : Nat)
  /-- A constant is called. -/
  | notFunction (name : String)
  /-- A function stands without arguments where a value is needed. -/
  | notValue (name : String)
  /-- The tree is higher than the limit. -/
  | tooDeep (limit : Nat)
  /-- Values and operators do not alternate as they should. -/
  | malformed
  deriving DecidableEq

/-- The wording of a diagnosis. -/
def Fault.message : Fault → Text
  | .unexpectedChar c => "caractère inattendu: '".toList ++ [c] ++ "'".toList
  | .badNumber literal => "nombre invalide: \"".toList ++ literal ++ "\"".toList
  | .unclosedParen => "parenthèses non fermées".toList
  | .unopenedParen => "parenthèse fermante sans ouvrante".toList
  | .strayComma => "virgule hors d'un appel de fonction".toList
  | .unknownName name => "identifiant inconnu: ".toList ++ name.toList
  | .wrongArity name expected got =>
    name.toList ++ " attend ".toList ++ Nat.toDigits 10 expected ++
      " argument(s), reçu ".toList ++ Nat.toDigits 10 got
  | .notFunction name => name.toList ++ " n'est pas une fonction".toList
  | .notValue name => name.toList ++ " est une fonction, pas une valeur".toList
  | .tooDeep limit => "expression trop profonde (max ".toList ++ Nat.toDigits 10 limit ++ [')']
  | .malformed => "expression invalide".toList

/-- The classes of failure that a session answers. -/
inductive Refusal where
  /-- There is nothing but blanks. -/
  | emptyExpression
  /-- A character or a word is not admitted. -/
  | invalidCharacters
  /-- Two points follow one another. -/
  | badNumberFormat
  /-- The value is infinite or not a number. -/
  | nonFiniteResult
  /-- The expression is too long, or has a `Fault`. -/
  | badExpression
  deriving DecidableEq

namespace Refusal

/-- The wording of a class. -/
def message : Refusal → Text
  | .emptyExpression => "expression vide".toList
  | .invalidCharacters => "caractères non autorisés".toList
  | .badNumberFormat => "nombre mal formé".toList
  | .nonFiniteResult => "résultat non fini".toList
  | .badExpression => "expression invalide".toList

/-- The short name of a class. -/
def code : Refusal → Text
  | .emptyExpression => "EmptyExpression".toList
  | .invalidCharacters => "InvalidCharacters".toList
  | .badNumberFormat => "BadNumberFormat".toList
  | .nonFiniteResult => "NonFiniteResult".toList
  | .badExpression => "BadExpression".toList

/-- The one word shown for every class. -/
def uniform : Text := "Erreur".toList

end Refusal

end DeskCalc
