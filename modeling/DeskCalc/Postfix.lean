import DeskCalc.Number.Decimal
import DeskCalc.Operator

/-!
# Postfix notation

An expression in postfix notation is a list of items: values, actions on the values before them,
and calls that say how many values they take.
-/

namespace DeskCalc

/-- An item of postfix notation. -/
inductive Item where
  | number (value : Float)
  | constant (name : String)
  | action (act : Action)
  | call (name : String) (arity : Nat)
  deriving DecidableEq

namespace Item

/-- The text of an item: `neg` is the unary minus, and a call shows its arity. -/
def text : Item → Text
  | .number x => Decimal.display x
  | .constant name => name.toList
  | .action .negate => "neg".toList
  | .action (.apply op) => [op.symbol]
  | .call name arity => name.toList ++ '/' :: Nat.toDigits 10 arity

/-- The text of a list of items. -/
def listText (items : List Item) : Text :=
  Text.spaced (items.map text)

end Item

end DeskCalc
