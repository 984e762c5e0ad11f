import DeskCalc.Postfix.OperatorStack

/-!
# Ordering does not look at names

What the operator stack does with a token is a matter of its kind. A name waits on the stack and
comes out as the name of an item, but nothing is decided by it, so tokens with other names are
ordered in the same way, and are refused with the same fault.

* `Token.rename`, `Item.rename`, `Pending.rename`, `OperatorStack.rename`: other names in the same
  places.
* `OperatorStack.step_rename`, `OperatorStack.run_rename`: one token and all tokens.
* `toPostfix_rename`: the postfix notation of renamed tokens.
-/

namespace DeskCalc

variable (f : String → String)

/-- The token with another name. -/
def Token.rename : Token → Token
  | .name word => .name (f word)
  | token => token

/-- The item with another name. -/
def Item.rename : Item → Item
  | .constant name => .constant (f name)
  | .call name arity => .call (f name) arity
  | item => item

/-- What waits, with another name. -/
def Pending.rename : Pending → Pending
  | .function name => .function (f name)
  | pending => pending

namespace Pending

theorem takeActions_rename (stack : List Pending) :
    takeActions (stack.map (rename f)) =
      ((takeActions stack).1, (takeActions stack).2.map (rename f)) := by
  induction stack with
  | nil => rfl
  | cons pending stack ih =>
      cases pending with
      | action act =>
          show ((takeActions (stack.map (rename f))).1.cons act,
            (takeActions (stack.map (rename f))).2) = _
          rw [ih]
          rfl
      | paren ofCall => rfl
      | function name => rfl

theorem takeYielded_rename (op : Operator) (stack : List Pending) :
    takeYielded op (stack.map (rename f)) =
      ((takeYielded op stack).1, (takeYielded op stack).2.map (rename f)) := by
  induction stack with
  | nil => rfl
  | cons pending stack ih =>
      cases pending with
      | action act =>
          simp only [List.map_cons, rename, takeYielded, ih]
          split <;> rfl
      | paren ofCall => rfl
      | function name => rfl

end Pending

@[simp] theorem Item.rename_action (act : Action) : (Item.action act).rename f = .action act :=
  rfl

namespace OperatorStack

/-- The state with other names. -/
def rename (s : OperatorStack) : OperatorStack :=
  { s with output := s.output.map (Item.rename f), stack := s.stack.map (Pending.rename f) }

theorem pushValue_rename (s : OperatorStack) (item : Item) :
    (s.rename f).pushValue (item.rename f) = (s.pushValue item).map (rename f) := by
  obtain ⟨output, stack, counts, afterValue, afterOpen⟩ := s
  cases afterValue with
  | true => rfl
  | false =>
      simp [pushValue, rename, Except.map]

theorem pushFunction_rename (s : OperatorStack) (name : String) :
    (s.rename f).pushFunction (f name) = (s.pushFunction name).map (rename f) := by
  obtain ⟨output, stack, counts, afterValue, afterOpen⟩ := s
  cases afterValue <;> rfl

theorem openParen_rename (s : OperatorStack) :
    (s.rename f).openParen = s.openParen.map (rename f) := by
  obtain ⟨output, stack, counts, afterValue, afterOpen⟩ := s
  cases afterValue with
  | true => rfl
  | false =>
      cases stack with
      | nil => rfl
      | cons pending stack => cases pending <;> rfl

theorem comma_rename (s : OperatorStack) : (s.rename f).comma = s.comma.map (rename f) := by
  obtain ⟨output, stack, counts, afterValue, afterOpen⟩ := s
  cases afterValue with
  | false => rfl
  | true =>
      simp only [comma, rename, Pending.takeActions_rename, if_true]
      generalize Pending.takeActions stack = taken
      obtain ⟨actions, below⟩ := taken
      rcases below with _ | ⟨act | ofCall | name, below⟩
      · rfl
      · rfl
      · cases ofCall with
        | false => rfl
        | true =>
            cases counts with
            | nil => rfl
            | cons count counts =>
                simp [rename, Pending.rename, Except.map]
      · rfl

theorem closeParen_rename (s : OperatorStack) :
    (s.rename f).closeParen = s.closeParen.map (rename f) := by
  have harity : (s.rename f).arity? = s.arity? := rfl
  obtain ⟨output, stack, counts, afterValue, afterOpen⟩ := s
  simp only [closeParen, harity]
  simp only [rename, Pending.takeActions_rename]
  generalize arity? _ = arity
  generalize Pending.takeActions stack = taken
  obtain ⟨actions, below⟩ := taken
  rcases below with _ | ⟨act | ofCall | name, below⟩
  · rfl
  · rfl
  · cases ofCall with
    | false =>
        cases afterValue with
        | false => rfl
        | true =>
            simp [rename, Pending.rename, Except.map]
    | true =>
        cases arity with
        | none => rfl
        | some arity =>
            rcases below with _ | ⟨act | ofCall | name, below⟩
            · rfl
            · rfl
            · rfl
            · simp [rename, Item.rename, Pending.rename, Except.map]
  · rfl

theorem operator_rename (s : OperatorStack) (op : Operator) :
    (s.rename f).operator op = (s.operator op).map (rename f) := by
  obtain ⟨output, stack, counts, afterValue, afterOpen⟩ := s
  cases afterValue with
  | false => cases op <;> rfl
  | true =>
      simp [operator, rename, Pending.rename, Pending.takeYielded_rename, Except.map]

/-- **A step does not look at names.** -/
theorem step_rename (s : OperatorStack) (token : Token) (opensNext : Bool) :
    (s.rename f).step (token.rename f) opensNext = (s.step token opensNext).map (rename f) := by
  cases token with
  | number x => exact s.pushValue_rename f (.number x)
  | name word =>
      cases opensNext with
      | false => exact s.pushValue_rename f (.constant word)
      | true => exact s.pushFunction_rename f word
  | operator op => exact s.operator_rename f op
  | openParen => exact s.openParen_rename f
  | closeParen => exact s.closeParen_rename f
  | comma => exact s.comma_rename f

theorem run_rename (s : OperatorStack) (next : Option Token) (ts : List Token) :
    (s.rename f).run (next.map (Token.rename f)) (ts.map (Token.rename f)) =
      (s.run next ts).map (rename f) := by
  -- A renamed token opens a parenthesis where the token does.
  have hopens : ∀ token? : Option Token,
      (token?.map (Token.rename f) == some .openParen) = (token? == some .openParen) := by
    intro token?
    cases token? with
    | none => rfl
    | some token => cases token <;> rfl
  induction ts generalizing s with
  | nil => rfl
  | cons token ts ih =>
      have hnext : (ts.map (Token.rename f)).head?.or (next.map (Token.rename f)) =
          (ts.head?.or next).map (Token.rename f) := by
        cases ts <;> rfl
      rw [List.map_cons, run, run, hnext, hopens, step_rename]
      cases s.step token (ts.head?.or next == some .openParen) with
      | error fault => rfl
      | ok s' => exact ih s'

theorem finish_rename (s : OperatorStack) :
    (s.rename f).finish = s.finish.map (List.map (Item.rename f)) := by
  obtain ⟨output, stack, counts, afterValue, afterOpen⟩ := s
  cases afterValue with
  | false => rfl
  | true =>
      simp only [finish, rename, Pending.takeActions_rename, if_true]
      generalize Pending.takeActions stack = taken
      obtain ⟨actions, below⟩ := taken
      cases below with
      | nil =>
          simp [Except.map]
      | cons pending below => rfl

end OperatorStack

/-- **Ordering does not look at names.** Renamed tokens have the renamed postfix notation, or are
refused with the same fault. -/
theorem toPostfix_rename (ts : List Token) :
    toPostfix (ts.map (Token.rename f)) = (toPostfix ts).map (List.map (Item.rename f)) := by
  have hrun := OperatorStack.start.run_rename f none ts
  rw [toPostfix, toPostfix]
  change OperatorStack.start.run none (ts.map (Token.rename f)) = _ at hrun
  rw [hrun]
  cases OperatorStack.start.run none ts with
  | error fault => rfl
  | ok s => exact s.finish_rename f

end DeskCalc
