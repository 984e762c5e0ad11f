import DeskCalc.Expr
import DeskCalc.Vocabulary

/-!
# The value of a tree

Operands and arguments are evaluated from the left, before what is done to them, and the first
fault is the answer. The value may be infinite or no number.
-/

namespace DeskCalc.Expr

mutual

/-- The value of a tree. -/
def eval : Expr → Except Fault Float
  | .number x => .ok x
  | .constant name => Vocabulary.constantValue name
  | .negate e => do
    let x ← e.eval
    return -x
  | .apply op a b => do
    let x ← a.eval
    let y ← b.eval
    return op.apply x y
  | .call name args => do Vocabulary.call name (← evalList args)

/-- The values of trees. -/
def evalList : List Expr → Except Fault (List Float)
  | [] => .ok []
  | e :: es => do
    let x ← e.eval
    let xs ← evalList es
    return x :: xs

end

end DeskCalc.Expr
