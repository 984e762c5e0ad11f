import DeskCalc.Expr
import DeskCalc.Fault

/-!
# Trees from postfix notation

The items are run on a stack of trees, each kept with its height, so that a tree past the limit is
refused when its root is put on and none higher is ever built.
-/

namespace DeskCalc

namespace Expr

/-- A tree with its height. -/
abbrev Measured := Expr × Nat

/-- Puts an operation or a call on the stack if its height is within the limit. -/
def push (limit : Nat) (e : Expr) (height : Nat) (stack : List Measured) :
    Except Fault (List Measured) :=
  if limit < height then .error (.tooDeep limit) else .ok ((e, height) :: stack)

/-- Runs one item on the stack. -/
def stepItem (limit : Nat) (stack : List Measured) : Item → Except Fault (List Measured)
  | .number x => .ok ((.number x, 1) :: stack)
  | .constant name => .ok ((.constant name, 1) :: stack)
  | .action .negate =>
    match stack with
    | (e, h) :: below => push limit (.negate e) (h + 1) below
    | _ => .error .malformed
  | .action (.apply op) =>
    match stack with
    | (b, hb) :: (a, ha) :: below => push limit (.apply op a b) (max ha hb + 1) below
    | _ => .error .malformed
  | .call name arity =>
    if stack.length < arity then .error .malformed
    else
      let args := (stack.take arity).reverse
      push limit (.call name (args.map Prod.fst)) ((args.map Prod.snd).foldl max 0 + 1)
        (stack.drop arity)

/-- Runs items on the stack. -/
def runItems (limit : Nat) (stack : List Measured) : List Item → Except Fault (List Measured)
  | [] => .ok stack
  | item :: items => do runItems limit (← stepItem limit stack item) items

/-- The tree of a postfix notation, whose operations and calls are at most `limit` high. -/
def ofPostfix (limit : Nat) (items : List Item) : Except Fault Expr := do
  match ← runItems limit [] items with
  | [(e, _)] => .ok e
  | _ => .error .malformed

end Expr

end DeskCalc
