import DeskCalc.Proofs.Postfix.OpenCalls

/-!
# Reading without fallbacks

A reader of tokens has answers for states that it is never in. `OperatorStack` counts no arguments
for a call of which none have been counted, and refuses a call without a function; that nothing but
actions waits among the parentheses and functions it has in its types. `GuardedStack` is the same
reader with any item on its stack, and it gives up where it would need such an answer. It never
does: it reads what `OperatorStack` reads and refuses with the same fault.

* `Fallback`, `GuardedStack`: the reader that gives up.
* `closeParen_guarded`, `operator_guarded`: the tokens that could make it give up.
* `InStep.step_guarded`, `InStep.run_guarded`, `toPostfix_guarded`: one token and all tokens.
* `stacks_in_step`: what is on the stacks, and which answers are never needed.
-/

namespace DeskCalc

/-! ## A reader that gives up -/

/-- The answers for states that a reader is never in. -/
inductive Fallback where
  /-- No argument of the call that is closed has been counted: there are none. -/
  | uncounted
  /-- No function is under the parenthesis of the call that is closed: the tokens are malformed. -/
  | unnamed
  /-- The token of a binary operator stands for none: the tokens are malformed. -/
  | notBinary
  /-- An item that is no action is compared with another one: it binds more loosely than all
  actions. -/
  | notAction
  deriving DecidableEq

/-- Why reading ends early. -/
inductive Halt where
  | fault (fault : Fault)
  | fallback (fallback : Fallback)

/-- What waits on a stack on which any item can wait. -/
inductive Waiting where
  | item (item : Item)
  | paren (ofCall : Bool)
  | function (name : String)
  deriving DecidableEq

/-- How tightly an item binds, if it is an action. -/
def Item.level : Item → Except Halt Nat
  | .action act => .ok act.level
  | _ => .error (.fallback .notAction)

/-- Whether equals of an item group from the right. -/
def Item.groupsRight : Item → Bool
  | .action .negate => true
  | .action (.apply op) => op.groupsRight
  | _ => false

/-- The item for the token of a binary operator. -/
def Token.binary : Token → Except Halt Item
  | .operator op => .ok (.action (.apply op))
  | _ => .error (.fallback .notBinary)

namespace Waiting

/-- The items above the topmost parenthesis or function, from the top, and the stack below them. -/
def takeItems : List Waiting → List Item × List Waiting
  | .item top :: stack => ((takeItems stack).1.cons top, (takeItems stack).2)
  | stack => ([], stack)

/-- The items that the item `op` yields to, from the top, and the stack below them. -/
def takeYielded (op : Item) : List Waiting → Except Halt (List Item × List Waiting)
  | .item top :: stack => do
    let above ← top.level
    let level ← op.level
    if (if op.groupsRight then level < above else level ≤ above) then
      let taken ← takeYielded op stack
      return (taken.1.cons top, taken.2)
    else return ([], .item top :: stack)
  | stack => return ([], stack)

end Waiting

/-- The state between two tokens. -/
structure GuardedStack where
  /-- The items that are complete. -/
  output : List Item
  /-- What waits, the latest first. -/
  stack : List Waiting
  /-- For each open call, the latest first, how many of its arguments a comma has closed. -/
  counts : List Nat
  /-- Whether the last token ended a value. -/
  afterValue : Bool
  /-- Whether the last token opened a parenthesis. -/
  afterOpen : Bool

namespace GuardedStack

/-- The state before the first token. -/
def start : GuardedStack :=
  ⟨[], [], [], false, false⟩

/-- Reads a token that is a value by itself. -/
def pushValue (s : GuardedStack) (item : Item) : Except Halt GuardedStack :=
  if s.afterValue then .error (.fault .malformed)
  else .ok { s with output := s.output ++ [item], afterValue := true, afterOpen := false }

/-- Reads the name of a function that is called. -/
def pushFunction (s : GuardedStack) (name : String) : Except Halt GuardedStack :=
  if s.afterValue then .error (.fault .malformed)
  else .ok { s with stack := .function name :: s.stack, afterValue := false, afterOpen := false }

/-- Reads an opening parenthesis; it is that of a call if it follows the name of a function. -/
def openParen (s : GuardedStack) : Except Halt GuardedStack :=
  if s.afterValue then .error (.fault .malformed)
  else match s.stack with
    | .function name :: stack =>
      .ok { s with
        stack := .paren true :: .function name :: stack
        counts := 0 :: s.counts
        afterValue := false
        afterOpen := true }
    | stack =>
      .ok { s with stack := .paren false :: stack, afterValue := false, afterOpen := true }

/-- Reads a comma, which completes an argument of the innermost call. -/
def comma (s : GuardedStack) : Except Halt GuardedStack :=
  if s.afterValue then
    let (items, stack) := Waiting.takeItems s.stack
    match stack, s.counts with
    | .paren true :: _, count :: counts =>
      .ok {
        output := s.output ++ items
        stack := stack
        counts := (count + 1) :: counts
        afterValue := false
        afterOpen := false }
    | _, _ => .error (.fault .strayComma)
  else .error (.fault .malformed)

/-- How many arguments a call has when its parenthesis closes behind `closed` of them. -/
def arity? (s : GuardedStack) (closed : Nat) : Option Nat :=
  if s.afterOpen then some 0
  else if s.afterValue then some (closed + 1)
  else none

/-- Reads a closing parenthesis. -/
def closeParen (s : GuardedStack) : Except Halt GuardedStack :=
  let (items, stack) := Waiting.takeItems s.stack
  let output := s.output ++ items
  match stack with
  | .paren true :: stack =>
    match s.counts with
    | [] => .error (.fallback .uncounted)
    | closed :: counts =>
      match s.arity? closed, stack with
      | some arity, .function name :: stack =>
          .ok ⟨output ++ [.call name arity], stack, counts, true, false⟩
      | some _, _ => .error (.fallback .unnamed)
      | none, _ => .error (.fault .malformed)
  | .paren false :: stack =>
    if s.afterValue then .ok ⟨output, stack, s.counts, true, false⟩ else .error (.fault .malformed)
  | _ => .error (.fault .unopenedParen)

/-- Reads an operator. After a value it is binary. Elsewhere minus is the negation of what follows,
plus says nothing, and no other operator can stand. -/
def operator (s : GuardedStack) (op : Operator) : Except Halt GuardedStack :=
  if s.afterValue then do
    let item ← (Token.operator op).binary
    let taken ← Waiting.takeYielded item s.stack
    return { s with
      output := s.output ++ taken.1
      stack := .item item :: taken.2
      afterValue := false
      afterOpen := false }
  else match op with
    | .add => .ok { s with afterOpen := false }
    | .sub => .ok { s with stack := .item (.action .negate) :: s.stack, afterOpen := false }
    | _ => .error (.fault .malformed)

/-- Reads one token, given whether the next one opens a parenthesis. -/
def step (s : GuardedStack) (token : Token) (opensNext : Bool) : Except Halt GuardedStack :=
  match token with
  | .number x => s.pushValue (.number x)
  | .name word => if opensNext then s.pushFunction word else s.pushValue (.constant word)
  | .operator op => s.operator op
  | .openParen => s.openParen
  | .closeParen => s.closeParen
  | .comma => s.comma

/-- Reads tokens, given the token after them if there is one. -/
def run (s : GuardedStack) (next : Option Token) : List Token → Except Halt GuardedStack
  | [] => .ok s
  | token :: tokens => do
    let s' ← s.step token (tokens.head?.or next == some .openParen)
    s'.run next tokens

/-- The postfix notation when no token is left. -/
def finish (s : GuardedStack) : Except Halt (List Item) :=
  if s.afterValue then
    match Waiting.takeItems s.stack with
    | (items, []) => .ok (s.output ++ items)
    | _ => .error (.fault .unclosedParen)
  else .error (.fault .malformed)

/-- The postfix notation of an expression. -/
def toPostfix (tokens : List Token) : Except Halt (List Item) := do
  (← start.run none tokens).finish

end GuardedStack

/-! ## The two readers -/

/-- What waits, on a stack of items. -/
def Pending.waiting : Pending → Waiting
  | .action act => .item (.action act)
  | .paren ofCall => .paren ofCall
  | .function name => .function name

/-- The state with a stack of items. -/
def OperatorStack.guarded (s : OperatorStack) : GuardedStack :=
  ⟨s.output, s.stack.map Pending.waiting, s.counts, s.afterValue, s.afterOpen⟩

/-- The result of a reader that never gives up. -/
def withHalt {α : Type} (r : Except Fault α) : Except Halt α :=
  r.mapError Halt.fault

theorem exists_of_withHalt_map {α β : Type} {r : Except Fault α} {f : α → β} {y : β}
    (h : withHalt (r.map f) = .ok y) : ∃ x, r = .ok x ∧ f x = y := by
  cases r with
  | error fault => cases h
  | ok x => exact ⟨x, rfl, Except.ok.inj h⟩

theorem withHalt_ne_fallback {α : Type} (r : Except Fault α) (fallback : Fallback) :
    withHalt r ≠ .error (.fallback fallback) := by
  cases r with
  | error fault => exact fun h => by cases h
  | ok x => exact fun h => by cases h

namespace Waiting

theorem takeItems_waiting (stack : List Pending) :
    takeItems (stack.map Pending.waiting) =
      ((Pending.takeActions stack).1.map .action,
        (Pending.takeActions stack).2.map Pending.waiting) := by
  induction stack with
  | nil => rfl
  | cons p stack ih =>
      cases p with
      | action act =>
          show ((takeItems (stack.map Pending.waiting)).1.cons (Item.action act),
            (takeItems (stack.map Pending.waiting)).2) = _
          rw [ih]
          rfl
      | paren ofCall => rfl
      | function name => rfl

/-- Actions are compared by their levels, so no item on the stack is without one. -/
theorem takeYielded_waiting (op : Operator) (stack : List Pending) :
    takeYielded (.action (.apply op)) (stack.map Pending.waiting) =
      .ok ((Pending.takeYielded op stack).1.map .action,
        (Pending.takeYielded op stack).2.map Pending.waiting) := by
  induction stack with
  | nil => rfl
  | cons p stack ih =>
      cases p with
      | action act =>
          have hyields : (if op.groupsRight then op.level < act.level else op.level ≤ act.level) ↔
              op.yieldsTo act = true := by
            rw [Operator.yieldsTo]
            split <;> exact decide_eq_true_iff.symm
          show (if (if op.groupsRight then op.level < act.level else op.level ≤ act.level)
            then _ else _) = _
          rw [Pending.takeYielded]
          by_cases h : op.yieldsTo act = true
          · rw [if_pos (hyields.2 h), if_pos h, ih]
            rfl
          · rw [if_neg (mt hyields.1 h), if_neg h]
            rfl
      | paren ofCall => rfl
      | function name => rfl

end Waiting

/-- A binary operator gives an item, and every item that it is compared with is an action. -/
theorem operator_guarded (s : OperatorStack) (op : Operator) :
    s.guarded.operator op = withHalt ((s.operator op).map OperatorStack.guarded) := by
  obtain ⟨output, stack, counts, afterValue, afterOpen⟩ := s
  cases afterValue with
  | false => cases op <;> rfl
  | true =>
      show (do
        let taken ← Waiting.takeYielded (.action (.apply op)) (stack.map Pending.waiting)
        return _) = _
      rw [Waiting.takeYielded_waiting]
      rfl

theorem finish_guarded (s : OperatorStack) : s.guarded.finish = withHalt s.finish := by
  obtain ⟨output, stack, counts, afterValue, afterOpen⟩ := s
  cases afterValue with
  | false => rfl
  | true =>
      simp only [GuardedStack.finish, OperatorStack.guarded, Waiting.takeItems_waiting,
        OperatorStack.finish, if_true]
      generalize Pending.takeActions stack = taken
      obtain ⟨actions, below⟩ := taken
      cases below with
      | nil => rfl
      | cons p below => rfl

theorem openParen_guarded (s : OperatorStack) :
    s.guarded.openParen = withHalt (s.openParen.map OperatorStack.guarded) := by
  obtain ⟨output, stack, counts, afterValue, afterOpen⟩ := s
  cases afterValue with
  | true => rfl
  | false =>
      cases stack with
      | nil => rfl
      | cons p stack => cases p <;> rfl

theorem comma_guarded (s : OperatorStack) :
    s.guarded.comma = withHalt (s.comma.map OperatorStack.guarded) := by
  obtain ⟨output, stack, counts, afterValue, afterOpen⟩ := s
  cases afterValue with
  | false => rfl
  | true =>
      simp only [GuardedStack.comma, OperatorStack.guarded, Waiting.takeItems_waiting,
        OperatorStack.comma, if_true]
      generalize Pending.takeActions stack = taken
      obtain ⟨actions, below⟩ := taken
      rcases below with _ | ⟨act | ofCall | name, below⟩
      · rfl
      · rfl
      · cases ofCall with
        | false => rfl
        | true => cases counts <;> rfl
      · rfl

/-- **The parenthesis of a call is closed without a fallback**, for its arguments are counted and
its function is under it. -/
theorem closeParen_guarded {s : OperatorStack} (h : Paired s.stack s.counts) :
    s.guarded.closeParen = withHalt (s.closeParen.map OperatorStack.guarded) := by
  have htaken := h.takeActions
  obtain ⟨output, stack, counts, afterValue, afterOpen⟩ := s
  simp only [GuardedStack.closeParen, OperatorStack.guarded, Waiting.takeItems_waiting,
    OperatorStack.closeParen]
  generalize Pending.takeActions stack = taken at htaken
  obtain ⟨actions, below⟩ := taken
  -- A parenthesis of a call comes with its count and its function in one constructor, so neither
  -- fallback has a case.
  cases htaken with
  | call name count hbelow =>
      cases afterOpen with
      | true => rfl
      | false => cases afterValue <;> rfl
  | paren hbelow => cases afterValue <;> rfl
  | nil => rfl
  | action act hbelow => rfl

/-- One token is read alike, where the stacks are in step. -/
theorem InStep.step_guarded {last : Option Token} {s : OperatorStack} {t : Token}
    (h : InStep last (some t) s)
    (opensNext : Bool) : s.guarded.step t opensNext =
      withHalt ((s.step t opensNext).map OperatorStack.guarded) := by
  have hvalue : ∀ item,
      s.guarded.pushValue item = withHalt ((s.pushValue item).map OperatorStack.guarded) := by
    obtain ⟨output, stack, counts, afterValue, afterOpen⟩ := s
    intro item
    cases afterValue <;> rfl
  cases t with
  | number x => exact hvalue (.number x)
  | name word =>
      cases opensNext with
      | false => exact hvalue (.constant word)
      | true =>
          obtain ⟨output, stack, counts, afterValue, afterOpen⟩ := s
          cases afterValue <;> rfl
  | operator op => exact operator_guarded s op
  | openParen => exact openParen_guarded s
  | closeParen => exact closeParen_guarded (h.paired_of_ne (by simp))
  | comma => exact comma_guarded s

/-- **All tokens are read alike.** -/
theorem InStep.run_guarded {last next : Option Token} {s : OperatorStack} {ts : List Token}
    (h : InStep last (ts.head?.or next) s) :
    s.guarded.run next ts = withHalt ((s.run next ts).map OperatorStack.guarded) := by
  induction ts generalizing s last with
  | nil => rfl
  | cons t ts ih =>
      rw [GuardedStack.run, OperatorStack.run, step_guarded h]
      cases hstep : s.step t (ts.head?.or next == some .openParen) with
      | error fault => rfl
      | ok read => exact ih (h.step hstep)

theorem toPostfix_guarded (ts : List Token) :
    GuardedStack.toPostfix ts = withHalt (toPostfix ts) := by
  have hstart : InStep none (ts.head?.or none) OperatorStack.start := .start
  have hrun : GuardedStack.start.run none ts = _ := hstart.run_guarded
  rw [GuardedStack.toPostfix, hrun, toPostfix]
  cases OperatorStack.start.run none ts with
  | error fault => rfl
  | ok s => exact finish_guarded s

/-- The items on the stack are actions. -/
theorem action_of_item_mem {s : OperatorStack} {item : Item} (h : .item item ∈ s.guarded.stack) :
    ∃ act, item = .action act := by
  obtain ⟨p, -, hp⟩ := List.mem_map.1 h
  cases p with
  | action act => exact ⟨act, (Waiting.item.inj hp).symm⟩
  | paren ofCall => cases hp
  | function name => cases hp

/-- **The stacks stay in step.** Whatever tokens `ts` have been read without a refusal before the
tokens `us`, there is one count for each parenthesis of a call on the stack. Each of these
parentheses lies directly on a function, and each function directly under one, except for a function
on top that was read last and whose parenthesis comes next. Of items nothing but actions waits. So
no fallback is ever needed: the reader that gives up where it would need one reads the same tokens
to the same states and to the same end. -/
theorem stacks_in_step (ts us : List Token) :
    (∀ s, OperatorStack.start.run us.head? ts = .ok s →
      s.counts.length = s.stack.count (.paren true) ∧
      (∀ above below, s.stack = above ++ .paren true :: below →
        ∃ name rest, below = .function name :: rest) ∧
      ∀ above name below, s.stack = above ++ .function name :: below →
        above.getLast? = some (.paren true) ∨
          above = [] ∧ ts.getLast? = some (.name name) ∧ us.head? = some .openParen) ∧
    (∀ s, GuardedStack.start.run us.head? ts = .ok s →
      ∀ item, .item item ∈ s.stack → ∃ act, item = .action act) ∧
    (∀ fallback, GuardedStack.start.run us.head? ts ≠ .error (.fallback fallback)) ∧
    GuardedStack.start.run us.head? ts =
      withHalt ((OperatorStack.start.run us.head? ts).map OperatorStack.guarded) ∧
    GuardedStack.toPostfix ts = withHalt (toPostfix ts) := by
  have hstart : InStep none (ts.head?.or us.head?) OperatorStack.start := .start
  have hguarded : GuardedStack.start.run us.head? ts = _ := hstart.run_guarded
  refine ⟨fun s hrun => ?_, fun s hrun item hitem => ?_, fun fallback => ?_, hguarded,
    toPostfix_guarded ts⟩
  · have hstep := hstart.run hrun
    rw [Option.or_none] at hstep
    exact ⟨hstep.length_counts, fun above below => hstep.function_of_paren,
      fun above name below => hstep.paren_of_function⟩
  · obtain ⟨read, -, rfl⟩ := exists_of_withHalt_map (hguarded.symm.trans hrun)
    exact action_of_item_mem hitem
  · rw [hguarded]
    exact withHalt_ne_fallback _ fallback

/-- Behind `max(1,-min` the function `min` waits for its parenthesis, and under the other one is
`max`. -/
theorem stacks_in_step_nested :
    OperatorStack.start.run (some .openParen)
        [.name "max", .openParen, .number 1, .comma, .operator .sub, .name "min"] =
      .ok ⟨[.number 1], [.function "min", .action .negate, .paren true, .function "max"], [1],
        false, false⟩ ∧
    [1].length =
      [Pending.function "min", .action .negate, .paren true, .function "max"].count (.paren true) ∧
    (∃ name rest, [Pending.function "max"] = .function name :: rest) ∧
    [Pending.function "min", .action .negate, .paren true].getLast? = some (.paren true) ∧
    GuardedStack.toPostfix [.name "max", .openParen, .number 1, .comma, .operator .sub,
      .name "min"] = .error (.fault .unclosedParen) := by
  have hrun : OperatorStack.start.run (some .openParen)
      [.name "max", .openParen, .number 1, .comma, .operator .sub, .name "min"] =
      .ok ⟨[.number 1], [.function "min", .action .negate, .paren true, .function "max"], [1],
        false, false⟩ := rfl
  obtain ⟨hstacks, -, -, -, hpostfix⟩ := stacks_in_step
    [.name "max", .openParen, .number 1, .comma, .operator .sub, .name "min"] [.openParen]
  obtain ⟨hcounts, hparen, hfunction⟩ := hstacks _ hrun
  refine ⟨hrun, hcounts, hparen [.function "min", .action .negate] _ rfl, ?_, hpostfix.trans rfl⟩
  rcases hfunction [.function "min", .action .negate, .paren true] "max" []
    rfl with habove | ⟨hnil, -⟩
  · exact habove
  · cases hnil

end DeskCalc
