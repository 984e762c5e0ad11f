import DeskCalc.Postfix.OperatorStack

/-!
# Open calls

While tokens are ordered, the parentheses of the calls that are open wait on one stack and the
numbers of their closed arguments on another. Nothing but the order of both says which number
belongs to which call. They are in step: from the top down, the parentheses of calls and the numbers
go together one by one, and under each of these parentheses is the function that is called. The only
function that waits without its parenthesis is the one that was read last, and only if the next
token is that parenthesis.

* `Paired`: a stack and the numbers of its calls.
* `InStep`: a state between two tokens.
* `InStep.step`, `InStep.run`: one token and all tokens.
-/

namespace DeskCalc

/-- The parentheses of calls on the stack go with the counts, each on the function that is called.
-/
inductive Paired : List Pending → List Nat → Prop
  | nil : Paired [] []
  | action {stack counts} (act : Action) :
    Paired stack counts → Paired (.action act :: stack) counts
  | paren {stack counts} : Paired stack counts → Paired (.paren false :: stack) counts
  | call {stack counts} (name : String) (count : Nat) : Paired stack counts →
      Paired (.paren true :: .function name :: stack) (count :: counts)

namespace Paired

variable {stack : List Pending} {counts : List Nat}

/-- There are as many counts as calls. -/
theorem count_paren (h : Paired stack counts) : stack.count (.paren true) = counts.length := by
  induction h with
  | nil => rfl
  | action act _ ih => rw [List.count_cons_of_ne (by simp), ih]
  | paren _ ih => rw [List.count_cons_of_ne (by simp), ih]
  | call name count _ ih =>
      rw [List.count_cons_self, List.count_cons_of_ne (by simp), ih, List.length_cons]

/-- Under the parenthesis of a call is a function. -/
theorem function_of_paren (h : Paired stack counts) {above below : List Pending}
    (hstack : stack = above ++ .paren true :: below) :
    ∃ name rest, below = .function name :: rest := by
  induction h generalizing above with
  | nil => cases above <;> cases hstack
  | action act _ ih =>
      cases above with
      | nil => cases hstack
      | cons p above => exact ih (List.cons.inj hstack).2
  | paren _ ih =>
      cases above with
      | nil => cases hstack
      | cons p above => exact ih (List.cons.inj hstack).2
  | call name count _ ih =>
      cases above with
      | nil => exact ⟨name, _, (List.cons.inj hstack).2.symm⟩
      | cons p above =>
          cases above with
          | nil => cases hstack
          | cons q above => exact ih (List.cons.inj (List.cons.inj hstack).2).2

/-- Directly above a function is the parenthesis of a call. -/
theorem paren_of_function (h : Paired stack counts) {above below : List Pending} {name : String}
    (hstack : stack = above ++ .function name :: below) : above.getLast? = some (.paren true) := by
  induction h generalizing above with
  | nil => cases above <;> cases hstack
  | action act _ ih =>
      cases above with
      | nil => cases hstack
      | cons p above => rw [List.getLast?_cons, ih (List.cons.inj hstack).2, Option.getD_some]
  | paren _ ih =>
      cases above with
      | nil => cases hstack
      | cons p above => rw [List.getLast?_cons, ih (List.cons.inj hstack).2, Option.getD_some]
  | call called count _ ih =>
      cases above with
      | nil => cases hstack
      | cons p above =>
          obtain ⟨rfl, hrest⟩ := List.cons.inj hstack
          cases above with
          | nil => rfl
          | cons q above =>
              rw [List.getLast?_cons, List.getLast?_cons, ih (List.cons.inj hrest).2,
                Option.getD_some, Option.getD_some]

/-- Taking actions leaves the calls as they are. -/
theorem takeActions (h : Paired stack counts) : Paired (Pending.takeActions stack).2 counts := by
  induction h with
  | nil => exact .nil
  | action act _ ih => exact ih
  | paren h _ => exact .paren h
  | call name count h _ => exact .call name count h

theorem takeYielded (h : Paired stack counts) (op : Operator) :
    Paired (Pending.takeYielded op stack).2 counts := by
  induction h with
  | nil => exact .nil
  | action act h ih =>
      rw [Pending.takeYielded]
      split
      · exact ih
      · exact .action act h
  | paren h _ => exact .paren h
  | call name count h _ => exact .call name count h

end Paired

/-- Between the tokens `last` and `next` the stacks are in step: they are paired, or the function
that was read last is above them and its parenthesis comes next. -/
inductive InStep (last next : Option Token) (s : OperatorStack) : Prop
  | paired : Paired s.stack s.counts → InStep last next s
  | called (name : String) (stack : List Pending) : s.stack = .function name :: stack →
    Paired stack s.counts →
      last = some (.name name) → next = some .openParen → InStep last next s

/-! ## One token -/

namespace Paired

variable {s s' : OperatorStack}

theorem pushValue (h : Paired s.stack s.counts) {item : Item} (hstep : s.pushValue item = .ok s') :
    Paired s'.stack s'.counts := by
  rw [OperatorStack.pushValue] at hstep
  split at hstep
  · cases hstep
  · cases hstep
    exact h

theorem comma (h : Paired s.stack s.counts) (hstep : s.comma = .ok s') :
    Paired s'.stack s'.counts := by
  have htaken := h.takeActions
  rw [OperatorStack.comma] at hstep
  split at hstep
  · generalize Pending.takeActions s.stack = taken at hstep htaken
    obtain ⟨actions, below⟩ := taken
    obtain ⟨output, stack, counts, afterValue, afterOpen⟩ := s
    cases htaken with
    | call name count hbelow =>
        cases hstep
        exact .call name (count + 1) hbelow
    | nil => cases hstep
    | action act => cases hstep
    | paren => cases hstep
  · cases hstep

theorem closeParen (h : Paired s.stack s.counts) (hstep : s.closeParen = .ok s') :
    Paired s'.stack s'.counts := by
  have htaken := h.takeActions
  rw [OperatorStack.closeParen] at hstep
  generalize Pending.takeActions s.stack = taken at hstep htaken
  generalize s.arity? = arity at hstep
  obtain ⟨actions, below⟩ := taken
  obtain ⟨output, stack, counts, afterValue, afterOpen⟩ := s
  cases htaken with
  | call name count hbelow =>
      cases arity with
      | none => cases hstep
      | some arity =>
          cases hstep
          exact hbelow
  | paren hbelow =>
      cases afterValue with
      | false => cases hstep
      | true =>
          cases hstep
          exact hbelow
  | nil => cases hstep
  | action act => cases hstep

theorem operator (h : Paired s.stack s.counts) {op : Operator} (hstep : s.operator op = .ok s') :
    Paired s'.stack s'.counts := by
  obtain ⟨output, stack, counts, afterValue, afterOpen⟩ := s
  cases afterValue with
  | true =>
      cases hstep
      exact .action _ (h.takeYielded op)
  | false =>
      cases op with
      | add =>
          cases hstep
          exact h
      | sub =>
          cases hstep
          exact .action _ h
      | _ => cases hstep

end Paired

namespace InStep

variable {last next : Option Token} {s s' : OperatorStack} {t : Token}

theorem start : InStep last next OperatorStack.start :=
  .paired .nil

/-- Above a function nothing is read but the parenthesis of its call. -/
theorem paired_of_ne (h : InStep last (some t) s) (ht : t ≠ .openParen) :
    Paired s.stack s.counts := by
  cases h with
  | paired h => exact h
  | called name stack _ _ _ hnext => exact absurd (Option.some.inj hnext) ht

theorem pushFunction (h : Paired s.stack s.counts) {name : String}
    (hstep : s.pushFunction name = .ok s') : InStep (some (.name name)) (some .openParen) s' := by
  rw [OperatorStack.pushFunction] at hstep
  split at hstep
  · cases hstep
  · cases hstep
    exact .called name _ rfl h rfl rfl

/-- The parenthesis of a call is pushed with its count, a plain one without. -/
theorem openParen (h : InStep last next s) (hstep : s.openParen = .ok s') :
    Paired s'.stack s'.counts := by
  obtain ⟨output, stack, counts, afterValue, afterOpen⟩ := s
  cases afterValue with
  | true => cases hstep
  | false =>
      cases h with
      | called name below hstack hbelow =>
          cases hstack
          cases hstep
          exact .call name 0 hbelow
      | paired h =>
          -- No function is on top of a paired stack, so the parenthesis is a plain one.
          cases h with
          | nil =>
              cases hstep
              exact .paren .nil
          | action act h =>
              cases hstep
              exact .paren (.action act h)
          | paren h =>
              cases hstep
              exact .paren (.paren h)
          | call name count h =>
              cases hstep
              exact .paren (.call name count h)

/-- **Every token that is read keeps the stacks in step.** -/
theorem step (h : InStep last (some t) s) (hstep : s.step t (next == some .openParen) = .ok s') :
    InStep (some t) next s' := by
  cases t with
  | number x => exact .paired ((h.paired_of_ne (by simp)).pushValue hstep)
  | name word =>
      have hpaired := h.paired_of_ne (by simp)
      cases hopens : next == some .openParen with
      | true =>
          rw [hopens] at hstep
          rw [beq_iff_eq.1 hopens]
          exact pushFunction hpaired hstep
      | false =>
          rw [hopens] at hstep
          exact .paired (hpaired.pushValue hstep)
  | operator op => exact .paired ((h.paired_of_ne (by simp)).operator hstep)
  | openParen => exact .paired (h.openParen hstep)
  | closeParen => exact .paired ((h.paired_of_ne (by simp)).closeParen hstep)
  | comma => exact .paired ((h.paired_of_ne (by simp)).comma hstep)

/-- **Between any two tokens the stacks are in step.** -/
theorem run {ts : List Token} (h : InStep last (ts.head?.or next) s)
    (hrun : s.run next ts = .ok s') : InStep (ts.getLast?.or last) next s' := by
  induction ts generalizing s last with
  | nil =>
      cases hrun
      exact h
  | cons t ts ih =>
      rw [OperatorStack.run] at hrun
      cases hstep : s.step t (ts.head?.or next == some .openParen) with
      | error fault =>
          rw [hstep] at hrun
          cases hrun
      | ok read =>
          rw [hstep] at hrun
          -- The token that has been read is the last one until the next step.
          have hlast : (t :: ts).getLast?.or last = ts.getLast?.or (some t) := by
            rw [List.getLast?_cons]
            cases ts.getLast? <;> rfl
          rw [hlast]
          exact ih (h.step hstep) hrun

/-! ## What is on the stacks -/

/-- There is a count for each parenthesis of a call. -/
theorem length_counts (h : InStep last next s) : s.counts.length = s.stack.count (.paren true) := by
  cases h with
  | paired h => exact h.count_paren.symm
  | called name stack hstack h _ _ => rw [hstack, List.count_cons_of_ne (by simp), h.count_paren]

/-- The parenthesis of a call lies directly on a function. -/
theorem function_of_paren (h : InStep last next s) {above below : List Pending}
    (hstack : s.stack = above ++ .paren true :: below) :
    ∃ name rest, below = .function name :: rest := by
  cases h with
  | paired h => exact h.function_of_paren hstack
  | called name stack hname h _ _ =>
      rw [hname] at hstack
      cases above with
      | nil => cases hstack
      | cons p above => exact h.function_of_paren (List.cons.inj hstack).2

/-- A function lies directly under the parenthesis of a call, or it is on top and was read last. -/
theorem paren_of_function (h : InStep last next s) {above below : List Pending} {name : String}
    (hstack : s.stack = above ++ .function name :: below) :
    above.getLast? = some (.paren true) ∨ above = [] ∧ last = some (.name name) ∧
      next = some .openParen := by
  cases h with
  | paired h => exact .inl (h.paren_of_function hstack)
  | called called stack hcalled h hlast hnext =>
      rw [hcalled] at hstack
      cases above with
      | nil =>
          cases hstack
          exact .inr ⟨rfl, hlast, hnext⟩
      | cons p above =>
          rw [List.getLast?_cons, h.paren_of_function (List.cons.inj hstack).2, Option.getD_some]
          exact .inl rfl

end InStep

end DeskCalc
