import DeskCalc.Number.Decimal
import DeskCalc.Operator

/-!
# Tokens

The tokens of an expression and their text: numbers in their shortest form, the tokens of a list
one space apart.
-/

namespace DeskCalc

/-- A token of an expression. -/
inductive Token where
  | number (value : Float)
  | name (word : String)
  | operator (op : Operator)
  | openParen
  | closeParen
  | comma
  deriving DecidableEq

namespace Token

/-- The token that a single character makes by itself. -/
def ofSymbol? : Char → Option Token
  | '(' => some .openParen
  | ')' => some .closeParen
  | ',' => some .comma
  | '+' => some (.operator .add)
  | '-' => some (.operator .sub)
  | '*' => some (.operator .mul)
  | '/' => some (.operator .div)
  | '^' => some (.operator .pow)
  | _ => none

/-- The text of a token. -/
def text : Token → Text
  | .number x => Decimal.display x
  | .name w => w.toList
  | .operator op => [op.symbol]
  | .openParen => ['(']
  | .closeParen => [')']
  | .comma => [',']

/-- The text of a list of tokens. -/
def listText (ts : List Token) : Text :=
  Text.spaced (ts.map text)

end Token

end DeskCalc
