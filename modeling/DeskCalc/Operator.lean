import DeskCalc.Number.Elementary

/-!
# Operators

The five binary operators, with the level at which each binds and the side on which equals group.
Unary minus is an *action* like them and binds between the products and the power, so that
`-2^2` is `-(2^2)` and `-2*3` is `(-2)*3`.
-/

namespace DeskCalc

/-- A binary operator. -/
inductive Operator where
  | add
  | sub
  | mul
  | div
  | pow
  deriving DecidableEq

namespace Operator

/-- The character that writes the operator. -/
def symbol : Operator → Char
  | .add => '+'
  | .sub => '-'
  | .mul => '*'
  | .div => '/'
  | .pow => '^'

/-- The operator on doubles. -/
def apply : Operator → Float → Float → Float
  | .add, a, b => a + b
  | .sub, a, b => a - b
  | .mul, a, b => a * b
  | .div, a, b => a / b
  | .pow, a, b => Elementary.pow a b

/-- How tightly the operator binds. -/
def level : Operator → Nat
  | .add | .sub => 1
  | .mul | .div => 2
  | .pow => 4

/-- Whether equals group from the right, as in `2^3^2`. -/
def groupsRight : Operator → Bool
  | .pow => true
  | _ => false

end Operator

/-- What is done to the values at hand: negation of one, or an operator on two. -/
inductive Action where
  | negate
  | apply (op : Operator)
  deriving DecidableEq

/-- How tightly the action binds. -/
def Action.level : Action → Nat
  | .negate => 3
  | .apply op => op.level

/-- Whether an action that is pending on the left of `op` is carried out before `op` takes its
left operand. -/
def Operator.yieldsTo (op : Operator) (pending : Action) : Bool :=
  if op.groupsRight then op.level < pending.level else op.level ≤ pending.level

end DeskCalc
