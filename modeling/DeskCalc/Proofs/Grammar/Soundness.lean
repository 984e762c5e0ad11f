import DeskCalc.Proofs.Expr.Rebuild
import DeskCalc.Proofs.Grammar.Phrase

/-!
# Only phrases are read

The invariant of reading says what the tokens read so far are. Where a value is due, they are a
*context*: complete phrases, open parentheses, and operators that wait for their right operand
(`Awaits`). After a value they are a context and an atom, whatever the actions still pending
(`Reads`). Taking actions from the stack folds the context from its end into a phrase.

* `Awaits.unwind`: when an operator takes the pending actions, the tokens end in its left operand.
* `Reads.step`, `Reads.run`: every token that is read keeps the invariant.
* `derives_of_toPostfix`: what has a postfix notation is an expression.
-/

namespace DeskCalc

open Grammar Pending

namespace OperatorStack

/-- The state when an operator has taken the pending actions that yield to it. -/
def settle (s : OperatorStack) (op : Operator) : OperatorStack :=
  { s with
    output := s.output ++ (takeYielded op s.stack).1.map .action
    stack := (takeYielded op s.stack).2 }

@[simp] theorem takeActions_takeActions (stack : List Pending) :
    takeActions (takeActions stack).2 = ([], (takeActions stack).2) := by
  induction stack with
  | nil => rfl
  | cons p stack ih =>
      cases p with
      | action act => exact ih
      | _ => rfl

/-- A comma is read alike before and after the pending actions are taken. -/
theorem comma_settle (s : OperatorStack) : (s.settle .add).comma = s.comma := by
  simp [comma, settle, takeYielded_add, takeActions_takeActions]

theorem closeParen_settle (s : OperatorStack) : (s.settle .add).closeParen = s.closeParen := by
  simp [closeParen, settle, takeYielded_add, takeActions_takeActions, arity?]

theorem finish_settle (s : OperatorStack) : (s.settle .add).finish = s.finish := by
  simp only [finish, settle, takeYielded_add, takeActions_takeActions]
  rcases takeActions s.stack with ⟨actions, _ | ⟨p, stack⟩⟩ <;> simp

end OperatorStack

namespace Grammar

/-- The tokens are a context that waits for a phrase of the level, and reading them leads to the
state. -/
inductive Awaits : Level → List Token → OperatorStack → Prop
  | start : Awaits .sum [] OperatorStack.start
  | operator {l ts s us a} (op : Operator) : Awaits l ts s → l.rank ≤ op.phrase.rank →
      Derives op.leftOperand us a →
      Awaits op.rightOperand (ts ++ us ++ [.operator op])
        { s with
          output := s.output ++ a.toItems
          stack := .action (.apply op) :: s.stack
          afterValue := false
          afterOpen := false }
  | minus {l ts s} : Awaits l ts s →
      Awaits .signed (ts ++ [.operator .sub])
        { s with stack := .action .negate :: s.stack, afterValue := false, afterOpen := false }
  | plus {l ts s} : Awaits l ts s →
      Awaits .signed (ts ++ [.operator .add]) { s with afterValue := false, afterOpen := false }
  | paren {l ts s} : Awaits l ts s →
      Awaits .sum (ts ++ [.openParen])
        { s with stack := .paren false :: s.stack, afterValue := false, afterOpen := true }
  | call {l ts s} (name : String) (args : List (List Token × Expr)) : Awaits l ts s →
      (∀ arg ∈ args, Derives .sum arg.1 arg.2) →
      Awaits .sum (ts ++ .name name :: .openParen :: args.flatMap fun arg => arg.1 ++ [.comma])
        { output := s.output ++ Expr.listToItems (args.map Prod.snd)
          stack := .paren true :: .function name :: s.stack
          counts := args.length :: s.counts
          afterValue := false
          afterOpen := args.isEmpty }

/-- The tokens read so far are a context, a context and an atom, or, if the next token is known to
open a parenthesis, a context and the name of a function. -/
inductive Reads (opensNext : Bool) : List Token → OperatorStack → Prop
  | operand {l ts s} : Awaits l ts s → Reads opensNext ts s
  | value {l ts s us a} : Awaits l ts s → Derives .atom us a →
      Reads opensNext (ts ++ us) (s.afterPhrase a.toItems [])
  | function {l ts s} (name : String) : opensNext = true → Awaits l ts s →
      Reads opensNext (ts ++ [.name name])
        { s with stack := .function name :: s.stack, afterValue := false, afterOpen := false }

/-- The tokens are a context and a phrase of the level, and the state is that after the phrase. -/
def Ends (l : Level) (ts : List Token) (s : OperatorStack) : Prop :=
  ∃ k ts₀ s₀ us e, Awaits k ts₀ s₀ ∧ k.rank ≤ l.rank ∧ Derives l us e ∧ ts = ts₀ ++ us ∧
    s = s₀.afterPhrase e.toItems []

namespace Awaits

variable {l : Level} {ts : List Token} {s : OperatorStack}

/-- A context waits for a sum, a product or a signed phrase. -/
theorem rank_le (h : Awaits l ts s) : l.rank ≤ Level.signed.rank := by
  cases h with
  | operator op => cases op <;> decide
  | _ => decide

theorem afterValue_eq (h : Awaits l ts s) : s.afterValue = false := by
  cases h <;> rfl

/-- No function waits for its parenthesis at the end of a context. -/
theorem stack_ne_function (h : Awaits l ts s) (name : String) (below : List Pending) :
    s.stack ≠ .function name :: below := by
  induction h with
  | plus _ ih => exact ih
  | _ => exact fun h => by cases h

/-- A context whose end is a phrase that nothing on the stack belongs to. -/
theorem ends_of_stops {m : Level} {op : Operator} {us : List Token} {e : Expr} (h : Awaits l ts s)
    (hstops : takeYielded op s.stack = ([], s.stack)) (he : Derives m us e)
    (hl : l.rank ≤ op.phrase.rank) (hm : op.phrase.rank ≤ m.rank) :
    Ends op.phrase (ts ++ us) ((s.afterPhrase e.toItems []).settle op) := by
  refine ⟨l, ts, s, us, e, h, hl, he.loosen hm, rfl, ?_⟩
  simp [OperatorStack.settle, OperatorStack.afterPhrase, hstops]

/-- **Taking actions folds the context**: when an operator takes the pending actions that yield to
it, the tokens end in a phrase that is its left operand. -/
theorem unwind (op : Operator) (hop : op ≠ .pow) (h : Awaits l ts s) :
    ∀ {m us e}, Derives m us e → l.rank ≤ m.rank → op.phrase.rank ≤ m.rank →
      Ends op.phrase (ts ++ us) ((s.afterPhrase e.toItems []).settle op) := by
  have hsigned : op.phrase.rank ≤ Level.signed.rank := by
    revert hop
    cases op <;> decide
  induction h with
  | start =>
      intro m us e he _ hm
      exact ends_of_stops .start rfl he (Nat.zero_le _) hm
  | @operator l ts s ts' a pending hctx hl ha ih =>
      intro m us e he hlm hm
      cases hyields : op.yieldsTo (.apply pending) with
      -- The pending operator stays: the phrase is the end of its right operand.
      | false =>
          refine ends_of_stops (.operator pending hctx hl ha) ?_ he
            (Operator.rightOperand_rank_le_of_not_yieldsTo hyields) hm
          simp only [takeYielded, hyields, Bool.false_eq_true, if_false]
      -- It yields: with its operands it is a phrase, and the context before it is folded further.
      | true =>
          have hfolded := ih (Derives.operation ha (he.loosen hlm)) hl
            (Operator.phrase_rank_le_of_yieldsTo hyields)
          simpa [OperatorStack.settle, OperatorStack.afterPhrase, takeYielded, hyields,
            Expr.toItems]
            using hfolded
  | @minus l ts s hctx ih =>
      intro m us e he hlm hm
      have hfolded := ih (.minus (he.loosen hlm)) hctx.rank_le hsigned
      simpa [OperatorStack.settle, OperatorStack.afterPhrase, takeYielded,
        Operator.yieldsTo_negate hop, Expr.toItems] using hfolded
  | @plus l ts s hctx ih =>
      intro m us e he hlm hm
      have hfolded := ih (.plus (he.loosen hlm)) hctx.rank_le hsigned
      simpa [OperatorStack.settle, OperatorStack.afterPhrase] using hfolded
  | paren hctx =>
      intro m us e he _ hm
      exact ends_of_stops (.paren hctx) rfl he (Nat.zero_le _) hm
  | call name args hctx hargs =>
      intro m us e he _ hm
      exact ends_of_stops (.call name args hctx hargs) rfl he (Nat.zero_le _) hm

end Awaits

/-! ## One token more -/

theorem listToItems_concat (es : List Expr) (e : Expr) :
    Expr.listToItems (es ++ [e]) = Expr.listToItems es ++ e.toItems := by
  rw [Expr.listToItems_append]
  exact congrArg (_ ++ ·) (List.append_nil _)

theorem forall_mem_concat {args : List (List Token × Expr)} {us : List Token} {e : Expr}
    (hargs : ∀ arg ∈ args, Derives .sum arg.1 arg.2) (he : Derives .sum us e) :
    ∀ arg ∈ args ++ [(us, e)], Derives .sum arg.1 arg.2 := by
  intro arg harg
  rcases List.mem_append.1 harg with hold | hnew
  · exact hargs arg hold
  · rw [List.mem_singleton.1 hnew]
    exact he

/-- A parenthesis closes only after a value or right after it was opened. -/
theorem closeParen_ne_ok {s : OperatorStack} (hvalue : s.afterValue = false)
    (hopen : s.afterOpen = false) (s' : OperatorStack) : s.closeParen ≠ .ok s' := by
  have harity : s.arity? = none := by
    simp only [OperatorStack.arity?, hopen, hvalue, Bool.false_eq_true, if_false]
  simp only [OperatorStack.closeParen, harity, hvalue, Bool.false_eq_true, if_false]
  split <;> exact fun h => by cases h

/-- Reading a token where a value is due. -/
theorem Awaits.step {l : Level} {ts : List Token} {s s' : OperatorStack} {t : Token}
    {opensNext : Bool} (h : Awaits l ts s) (hstep : s.step t opensNext = .ok s') :
    Reads opensNext (ts ++ [t]) s' := by
  have hvalue := h.afterValue_eq
  cases t with
  | number x =>
      simp only [OperatorStack.step, OperatorStack.pushValue, hvalue, Bool.false_eq_true, if_false,
        Except.ok.injEq] at hstep
      exact hstep ▸ .value h (.number x)
  | name word =>
      cases opensNext with
      | false =>
          simp only [OperatorStack.step, OperatorStack.pushValue, hvalue, Bool.false_eq_true,
            if_false, Except.ok.injEq] at hstep
          exact hstep ▸ .value h (.constant word)
      | true =>
          simp only [OperatorStack.step, OperatorStack.pushFunction, hvalue, Bool.false_eq_true,
            if_false, if_true, Except.ok.injEq] at hstep
          exact hstep ▸ .function word rfl h
  | operator op =>
      cases op with
      | add =>
          simp only [OperatorStack.step, OperatorStack.operator, hvalue, Bool.false_eq_true,
            if_false, Except.ok.injEq] at hstep
          exact hstep ▸ .operand (.plus h)
      | sub =>
          simp only [OperatorStack.step, OperatorStack.operator, hvalue, Bool.false_eq_true,
            if_false, Except.ok.injEq] at hstep
          exact hstep ▸ .operand (.minus h)
      | _ => simp [OperatorStack.step, OperatorStack.operator, hvalue] at hstep
  | openParen =>
      have hplain := h.stack_ne_function
      simp only [OperatorStack.step, OperatorStack.openParen, hvalue, Bool.false_eq_true, if_false,
        Except.ok.injEq] at hstep
      exact hstep ▸ .operand (.paren h)
  | closeParen =>
      replace hstep : s.closeParen = .ok s' := hstep
      cases h with
      | paren hctx => simp [OperatorStack.closeParen, takeActions] at hstep
      | @call l ts s name args hctx hargs =>
          cases args with
          | nil =>
              simp only [OperatorStack.closeParen, takeActions, List.isEmpty_nil,
                OperatorStack.arity?, if_true, Except.ok.injEq] at hstep
              have hread : Reads opensNext _ _ := .value hctx (.call name [] hargs)
              simpa [OperatorStack.afterPhrase, Expr.toItems, Expr.listToItems, List.intercalate,
                ← hstep] using hread
          | cons arg args => exact absurd hstep (closeParen_ne_ok rfl rfl s')
      | _ => exact absurd hstep (closeParen_ne_ok rfl rfl s')
  | comma => simp [OperatorStack.step, OperatorStack.comma, hvalue] at hstep

/-- Reading an operator after a value: it takes its left operand and waits for the right one. -/
theorem Awaits.step_operator {l : Level} {ts us : List Token} {s : OperatorStack} {a : Expr}
    (h : Awaits l ts s) (ha : Derives .atom us a) (op : Operator) :
    ∃ s', (s.afterPhrase a.toItems []).operator op = .ok s' ∧
      Awaits op.rightOperand (ts ++ us ++ [.operator op]) s' := by
  by_cases hop : op = .pow
  -- A power takes nothing from the stack, its left operand is the atom that was just read.
  · subst hop
    refine ⟨_, ?_, .operator .pow h (Nat.le_trans h.rank_le (by decide)) ha⟩
    simp [OperatorStack.operator, OperatorStack.afterPhrase, takeYielded_pow]
  · obtain ⟨k, ts₀, s₀, us₀, e, hctx, hk, he, htokens, hstate⟩ :=
      h.unwind op hop ha (Nat.le_trans h.rank_le (by decide)) (by cases op <;> decide)
    rw [← Operator.leftOperand_eq_phrase hop] at he
    refine ⟨_, ?_, htokens ▸ Awaits.operator op hctx hk he⟩
    have hbefore : (s.afterPhrase a.toItems []).operator op =
        .ok { (s.afterPhrase a.toItems []).settle op with
          stack := .action (.apply op) :: ((s.afterPhrase a.toItems []).settle op).stack
          afterValue := false
          afterOpen := false } := rfl
    rw [hbefore, hstate]
    simp [OperatorStack.afterPhrase]

/-- A comma or a closing parenthesis takes all pending actions, so that the tokens end in a sum. -/
theorem Awaits.ends_sum {l : Level} {ts us : List Token} {s : OperatorStack} {a : Expr}
    (h : Awaits l ts s) (ha : Derives .atom us a) :
    Ends .sum (ts ++ us) ((s.afterPhrase a.toItems []).settle .add) :=
  h.unwind .add (by decide) ha (Nat.le_trans h.rank_le (by decide)) (by decide)

/-- Reading a token after a value. -/
theorem Reads.step_value {l : Level} {ts us : List Token} {s s' : OperatorStack} {a : Expr}
    {t : Token} {opensNext : Bool} (h : Awaits l ts s) (ha : Derives .atom us a)
    (hstep : (s.afterPhrase a.toItems []).step t opensNext = .ok s') :
    Reads opensNext (ts ++ us ++ [t]) s' := by
  cases t with
  | number x => cases hstep
  | name word => cases opensNext <;> cases hstep
  | openParen => cases hstep
  | operator op =>
      obtain ⟨s'', hop, hctx⟩ := h.step_operator ha op
      have heq : s'' = s' := Except.ok.inj (hop.symm.trans hstep)
      exact heq ▸ .operand hctx
  | comma =>
      obtain ⟨k, ts₀, s₀, us₀, e, hctx, hk, he, htokens, hstate⟩ := h.ends_sum ha
      replace hstep : (s.afterPhrase a.toItems []).comma = .ok s' := hstep
      rw [← OperatorStack.comma_settle, hstate] at hstep
      rw [htokens]
      cases hctx with
      | start => cases hstep
      | paren hctx => cases hstep
      | @call l ts s name args hctx hargs =>
          have hnew := Awaits.call name (args ++ [(us₀, e)]) hctx (forall_mem_concat hargs he)
          simp only [OperatorStack.comma, OperatorStack.afterPhrase, takeActions, List.map_nil,
            List.nil_append, List.append_nil, if_true, Except.ok.injEq] at hstep
          have hopen : (args ++ [(us₀, e)]).isEmpty = false := by simp
          simpa [← hstep, listToItems_concat, hopen] using Reads.operand hnew
      | operator op => exact absurd hk (by cases op <;> decide)
      | _ => exact absurd hk (by decide)
  | closeParen =>
      obtain ⟨k, ts₀, s₀, us₀, e, hctx, hk, he, htokens, hstate⟩ := h.ends_sum ha
      replace hstep : (s.afterPhrase a.toItems []).closeParen = .ok s' := hstep
      rw [← OperatorStack.closeParen_settle, hstate] at hstep
      rw [htokens]
      cases hctx with
      | start => cases hstep
      | @paren l ts s hctx =>
          simp only [OperatorStack.closeParen, OperatorStack.afterPhrase, takeActions, List.map_nil,
            List.nil_append, List.append_nil, if_true, Except.ok.injEq] at hstep
          simpa [← hstep, OperatorStack.afterPhrase] using Reads.value hctx (.paren he)
      | @call l ts s name args hctx hargs =>
          have hcall := Derives.call name (args ++ [(us₀, e)]) (forall_mem_concat hargs he)
          have hread : Reads opensNext _ _ := .value hctx hcall
          simp only [OperatorStack.closeParen, OperatorStack.afterPhrase, takeActions, List.map_nil,
            List.nil_append, List.append_nil, OperatorStack.arity?, Bool.false_eq_true, if_false,
            if_true, List.headD_cons, List.tail_cons, Except.ok.injEq] at hstep
          simpa [← hstep, OperatorStack.afterPhrase, Expr.toItems, listToItems_concat,
            intercalate_concat, List.flatMap_map] using hread
      | operator op => exact absurd hk (by cases op <;> decide)
      | _ => exact absurd hk (by decide)

/-! ## All tokens -/

/-- One token keeps the invariant, given what is known of the token after it. -/
theorem Reads.step {ts : List Token} {s s' : OperatorStack} {t : Token} {opensNext : Bool}
    (h : Reads (t == .openParen) ts s) (hstep : s.step t opensNext = .ok s') :
    Reads opensNext (ts ++ [t]) s' := by
  cases h with
  | operand hctx => exact hctx.step hstep
  | value hctx ha => exact Reads.step_value hctx ha hstep
  | @function l ts s name hopens hctx =>
      rw [eq_of_beq hopens] at hstep ⊢
      have hnew := Awaits.call name [] hctx fun _ h => by cases h
      simp only [OperatorStack.step, OperatorStack.openParen, Bool.false_eq_true, if_false,
        Except.ok.injEq] at hstep
      simpa [← hstep, Expr.listToItems] using Reads.operand hnew

/-- **Reading keeps the invariant**, whatever the tokens are. -/
theorem Reads.run {next : Option Token} {us : List Token} {s' : OperatorStack} :
    ∀ {ts s}, Reads (us.head?.or next == some .openParen) ts s → s.run next us = .ok s' →
      Reads (next == some .openParen) (ts ++ us) s' := by
  induction us with
  | nil =>
      intro ts s h hrun
      cases hrun
      simpa using h
  | cons t us ih =>
      intro ts s h hrun
      cases hstep : s.step t (us.head?.or next == some .openParen) with
      | error f => simp [OperatorStack.run, hstep, bind, Except.bind] at hrun
      | ok s₁ =>
          simp only [OperatorStack.run, hstep, bind, Except.bind] at hrun
          have hfirst : Reads (t == .openParen) ts s := by simpa using h
          simpa using ih (hfirst.step hstep) hrun

/-- What has a postfix notation is an expression, and the notation is that of its tree. -/
theorem derives_of_toPostfix {ts : List Token} {items : List Item} (h : toPostfix ts = .ok items) :
    ∃ e, Derives .sum ts e ∧ items = e.toItems := by
  cases hrun : OperatorStack.start.run none ts with
  | error f => simp [toPostfix, hrun, bind, Except.bind] at h
  | ok s =>
      simp only [toPostfix, hrun, bind, Except.bind] at h
      have hread : Reads false ([] ++ ts) s := Reads.run (.operand .start) hrun
      rw [List.nil_append] at hread
      cases hread with
      | operand hctx =>
          simp only [OperatorStack.finish, hctx.afterValue_eq, Bool.false_eq_true, if_false] at h
          cases h
      | value hctx ha =>
          obtain ⟨k, ts₀, s₀, us₀, e, hctx, hk, he, htokens, hstate⟩ := hctx.ends_sum ha
          rw [← OperatorStack.finish_settle, hstate] at h
          cases hctx with
          | start =>
              refine ⟨e, by simpa [htokens] using he, ?_⟩
              simpa [OperatorStack.finish, OperatorStack.afterPhrase, OperatorStack.start,
                takeActions, eq_comm] using h
          | paren hctx => cases h
          | call name args hctx hargs => cases h
          | operator op => exact absurd hk (by cases op <;> decide)
          | _ => exact absurd hk (by decide)
      | function name hopens hctx => cases hopens

end Grammar

end DeskCalc
