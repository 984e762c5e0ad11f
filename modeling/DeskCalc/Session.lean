import DeskCalc.Admission
import DeskCalc.Answer
import DeskCalc.Expr.Eval
import DeskCalc.Expr.OfPostfix
import DeskCalc.Number.Rounding
import DeskCalc.Postfix.OperatorStack
import DeskCalc.Settings
import DeskCalc.Token.Lexer

/-!
# Sessions

A session evaluates one expression after another and keeps the last answer, which the next
expression can use. `calculate` reads a text that is ready to be read, `compute` goes all the way
from what the user typed to the rounded value, and the operations of `Session` differ only in what
they do with the last answer: it changes when they succeed, and only then.
-/

namespace DeskCalc

/-- The stages of reading an expression and its exact value. -/
structure Calculation where
  tokens : List Token
  items : List Item
  tree : Expr
  value : Float

/-- Reads and evaluates a text without the word for the last answer. -/
def calculate (maxHeight : Nat) (source : Text) : Except Fault Calculation := do
  let tokens ← tokenize source
  let items ← toPostfix tokens
  let tree ← Expr.ofPostfix maxHeight items
  let value ← tree.eval
  return { tokens, items, tree, value }

/-- The texts that show how a value came about. -/
structure Trace where
  canonical : Text
  tokens : Text
  items : Text
  tree : Text
  deriving DecidableEq

/-- A rounded value and its trace. -/
structure Outcome where
  value : Float
  trace : Trace
  deriving DecidableEq

/-- The canonical text of what the user typed, if it is admitted. -/
def admittedText (settings : Settings) (raw : Text) : Except Refusal Text := do
  if (raw.trim).isEmpty then throw .emptyExpression
  let text := canonical raw
  if settings.maxLength < text.length then throw .badExpression
  admitCharacters text
  admitNumbers text
  return text

/-- Evaluates what the user typed. The length is that of the canonical text, before the last answer
is written into it. -/
def compute (settings : Settings) (answer : Option Float) (raw : Text) :
    Except Refusal Outcome := do
  let text ← admittedText settings raw
  let source := Answer.substitute (Answer.literal answer) text
  match calculate settings.maxHeight source with
  | .error _ => throw .badExpression
  | .ok c =>
    if c.value.isFinite then
      return {
        value := roundTo settings.decimals c.value
        trace := {
          canonical := text
          tokens := Token.listText c.tokens
          items := Item.listText c.items
          tree := c.tree.text } }
    else throw .nonFiniteResult

/-- A session. -/
structure Session where
  settings : Settings
  /-- The last answer, if there is one. -/
  answer : Option Float

namespace Session

/-- A session without a last answer. -/
def new (settings : Settings) : Session :=
  { settings, answer := none }

/-- Evaluates an expression; the value becomes the last answer. -/
def evaluate (s : Session) (raw : Text) : Except Refusal Outcome × Session :=
  match compute s.settings s.answer raw with
  | .ok outcome => (.ok outcome, { s with answer := some outcome.value })
  | .error refusal => (.error refusal, s)

/-- Evaluates an expression as `evaluate` does, for its value alone. -/
def evaluateValue (s : Session) (raw : Text) : Except Refusal Float × Session :=
  let (result, next) := s.evaluate raw
  (result.map Outcome.value, next)

/-- Makes a finite value, rounded, the last answer. -/
def setAnswer (s : Session) (v : Float) : Except Refusal Unit × Session :=
  if v.isFinite then (.ok (), { s with answer := some (roundTo s.settings.decimals v) })
  else (.error .nonFiniteResult, s)

/-- Forgets the last answer. -/
def clearAnswer (s : Session) : Session :=
  { s with answer := none }

/-- Appends the last answer to what the user is typing. -/
def insertAnswer (s : Session) (buffer : Text) : Text :=
  Answer.insert s.answer buffer

end Session

end DeskCalc
