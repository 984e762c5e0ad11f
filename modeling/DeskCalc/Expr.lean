import DeskCalc.Postfix

/-!
# Expression trees

A tree with its three views: the text in which every operation has its parentheses, the postfix
notation that lists the children before their parent, and the height.
-/

namespace DeskCalc

/-- An expression. -/
inductive Expr where
  | number (value : Float)
  | constant (name : String)
  | negate (arg : Expr)
  | apply (op : Operator) (left right : Expr)
  | call (name : String) (args : List Expr)

namespace Expr

mutual

/-- The text of a tree: `(a + b)`, `(-x)`, `f(a, b)`. -/
def text : Expr → Text
  | .number x => Decimal.display x
  | .constant name => name.toList
  | .negate e => '(' :: '-' :: e.text ++ [')']
  | .apply op a b => '(' :: a.text ++ ' ' :: op.symbol :: ' ' :: b.text ++ [')']
  | .call name args => name.toList ++ '(' :: [',', ' '].intercalate (texts args) ++ [')']

/-- The texts of trees. -/
def texts : List Expr → List Text
  | [] => []
  | e :: es => e.text :: texts es

end

mutual

/-- The postfix notation of a tree. -/
def toItems : Expr → List Item
  | .number x => [.number x]
  | .constant name => [.constant name]
  | .negate e => e.toItems ++ [.action .negate]
  | .apply op a b => a.toItems ++ b.toItems ++ [.action (.apply op)]
  | .call name args => listToItems args ++ [.call name args.length]

/-- The postfix notations of trees, one after the other. -/
def listToItems : List Expr → List Item
  | [] => []
  | e :: es => e.toItems ++ listToItems es

end

mutual

/-- The height of a tree: that of a leaf and of a call without arguments is 1, any other tree is
one higher than its highest child. -/
def height : Expr → Nat
  | .number _ => 1
  | .constant _ => 1
  | .negate e => e.height + 1
  | .apply _ a b => max a.height b.height + 1
  | .call _ args => maxHeight args + 1

/-- The height of the highest of the trees, 0 if there is none. -/
def maxHeight : List Expr → Nat
  | [] => 0
  | e :: es => max e.height (maxHeight es)

end

end Expr

end DeskCalc
