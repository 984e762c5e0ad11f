import DeskCalc.Fault
import DeskCalc.Postfix
import DeskCalc.Token

/-!
# From tokens to postfix notation

Tokens are read from the left. Values go to the output at once; actions, open parentheses and the
names of called functions wait on a stack, and an action leaves it when something follows that
binds no tighter. For every open call the number of its arguments closed by a comma is counted on a
second stack.

* `OperatorStack` is the state between two tokens, and `step` reads one token. The only thing a
  step knows of the tokens to come is whether the next one opens a parenthesis, for this makes a
  name the name of a function.
* `toPostfix` reads all tokens and empties the stack.
-/

namespace DeskCalc

/-- What waits on the stack. -/
inductive Pending where
  /-- An action whose right operand is not complete. -/
  | action (act : Action)
  /-- An open parenthesis, that of a call or a plain one. -/
  | paren (ofCall : Bool)
  /-- The function of a call whose arguments are not complete. -/
  | function (name : String)
  deriving DecidableEq

namespace Pending

/-- The actions above the topmost parenthesis or function, from the top, and the stack below
them. -/
def takeActions : List Pending → List Action × List Pending
  | .action act :: stack => ((takeActions stack).1.cons act, (takeActions stack).2)
  | stack => ([], stack)

/-- The actions that `op` yields to, from the top, and the stack below them. -/
def takeYielded (op : Operator) : List Pending → List Action × List Pending
  | .action act :: stack =>
    if op.yieldsTo act then ((takeYielded op stack).1.cons act, (takeYielded op stack).2)
    else ([], .action act :: stack)
  | stack => ([], stack)

end Pending

/-- The state between two tokens. -/
structure OperatorStack where
  /-- The items that are complete. -/
  output : List Item
  /-- What waits, the latest first. -/
  stack : List Pending
  /-- For each open call, the latest first, how many of its arguments a comma has closed. -/
  counts : List Nat
  /-- Whether the last token ended a value. -/
  afterValue : Bool
  /-- Whether the last token opened a parenthesis. -/
  afterOpen : Bool

namespace OperatorStack

/-- The state before the first token. -/
def start : OperatorStack :=
  ⟨[], [], [], false, false⟩

/-- Reads a token that is a value by itself. -/
def pushValue (s : OperatorStack) (item : Item) : Except Fault OperatorStack :=
  if s.afterValue then .error .malformed
  else .ok { s with output := s.output ++ [item], afterValue := true, afterOpen := false }

/-- Reads the name of a function that is called. -/
def pushFunction (s : OperatorStack) (name : String) : Except Fault OperatorStack :=
  if s.afterValue then .error .malformed
  else .ok { s with stack := .function name :: s.stack, afterValue := false, afterOpen := false }

/-- Reads an opening parenthesis; it is that of a call if it follows the name of a function. -/
def openParen (s : OperatorStack) : Except Fault OperatorStack :=
  if s.afterValue then .error .malformed
  else match s.stack with
    | .function name :: stack =>
      .ok { s with
        stack := .paren true :: .function name :: stack
        counts := 0 :: s.counts
        afterValue := false
        afterOpen := true }
    | stack =>
      .ok { s with stack := .paren false :: stack, afterValue := false, afterOpen := true }

/-- Reads a comma, which completes an argument of the innermost call. -/
def comma (s : OperatorStack) : Except Fault OperatorStack :=
  if s.afterValue then
    let (actions, stack) := Pending.takeActions s.stack
    match stack, s.counts with
    | .paren true :: _, count :: counts =>
      .ok {
        output := s.output ++ actions.map .action
        stack := stack
        counts := (count + 1) :: counts
        afterValue := false
        afterOpen := false }
    | _, _ => .error .strayComma
  else .error .malformed

/-- How many arguments a call has when its parenthesis closes: none if nothing stands between its
parentheses, else one more than there were commas. -/
def arity? (s : OperatorStack) : Option Nat :=
  if s.afterOpen then some 0
  else if s.afterValue then some (s.counts.headD 0 + 1)
  else none

/-- Reads a closing parenthesis. -/
def closeParen (s : OperatorStack) : Except Fault OperatorStack :=
  let (actions, stack) := Pending.takeActions s.stack
  let output := s.output ++ actions.map .action
  match stack with
  | .paren true :: stack =>
    match s.arity?, stack with
    | some arity, .function name :: stack =>
      .ok ⟨output ++ [.call name arity], stack, s.counts.tail, true, false⟩
    | _, _ => .error .malformed
  | .paren false :: stack =>
    if s.afterValue then .ok ⟨output, stack, s.counts, true, false⟩ else .error .malformed
  | _ => .error .unopenedParen

/-- Reads an operator. After a value it is binary. Elsewhere minus is the negation of what follows,
plus says nothing, and no other operator can stand. -/
def operator (s : OperatorStack) (op : Operator) : Except Fault OperatorStack :=
  if s.afterValue then
    let (actions, stack) := Pending.takeYielded op s.stack
    .ok { s with
      output := s.output ++ actions.map .action
      stack := .action (.apply op) :: stack
      afterValue := false
      afterOpen := false }
  else match op with
    | .add => .ok { s with afterOpen := false }
    | .sub => .ok { s with stack := .action .negate :: s.stack, afterOpen := false }
    | _ => .error .malformed

/-- Reads one token, given whether the next one opens a parenthesis. -/
def step (s : OperatorStack) (token : Token) (opensNext : Bool) : Except Fault OperatorStack :=
  match token with
  | .number x => s.pushValue (.number x)
  | .name word => if opensNext then s.pushFunction word else s.pushValue (.constant word)
  | .operator op => s.operator op
  | .openParen => s.openParen
  | .closeParen => s.closeParen
  | .comma => s.comma

/-- Reads tokens, given the token after them if there is one. -/
def run (s : OperatorStack) (next : Option Token) : List Token → Except Fault OperatorStack
  | [] => .ok s
  | token :: tokens => do
    let s' ← s.step token (tokens.head?.or next == some .openParen)
    s'.run next tokens

/-- The postfix notation when no token is left. -/
def finish (s : OperatorStack) : Except Fault (List Item) :=
  if s.afterValue then
    match Pending.takeActions s.stack with
    | (actions, []) => .ok (s.output ++ actions.map .action)
    | _ => .error .unclosedParen
  else .error .malformed

end OperatorStack

/-- The postfix notation of an expression. -/
def toPostfix (tokens : List Token) : Except Fault (List Item) := do
  (← OperatorStack.start.run none tokens).finish

end DeskCalc
