import DeskCalc.Proofs.Grammar.Completeness
import DeskCalc.Proofs.Grammar.Soundness

/-!
# What can still become an expression

Tokens are refused at the first of them that no expression can have in its place. What has been read
without a refusal is the start of an expression: where a value is due any number will do, and after
a value the open parentheses can be closed, so all that is wrong with it is that it ends. What has
been refused stays refused. A step looks at the next token only to tell a function from a constant,
and neither can stand after a value.

* `OperatorStack.run_eq_error`: a refusal does not depend on what comes next.
* `Awaits.not_endsValue`: a value is due where none has just ended.
* `Awaits.completes`, `Reads.completes`: what has been read is completed by a phrase and closing
  parentheses.
* `toPostfix_prefix`: what the fault says of the tokens that may follow.
-/

namespace DeskCalc

namespace OperatorStack

/-- A token is refused whether or not the next one opens a parenthesis. -/
theorem step_eq_error {s : OperatorStack} {t : Token} {fault : Fault} {opensNext : Bool}
    (h : s.step t opensNext = .error fault) (opensNext' : Bool) :
    s.step t opensNext' = .error fault := by
  cases t with
  | name word =>
      cases hvalue : s.afterValue with
      | true =>
          have hmalformed : ∀ opens, s.step (.name word) opens = .error .malformed := by
            intro opens
            cases opens <;> simp [step, pushValue, pushFunction, hvalue]
          rw [hmalformed] at h ⊢
          exact h
      | false => cases opensNext <;> simp [step, pushValue, pushFunction, hvalue] at h
  | _ => exact h

/-- **Tokens are refused whatever comes next.** -/
theorem run_eq_error {s : OperatorStack} {next : Option Token} {ts : List Token} {fault : Fault}
    (h : s.run next ts = .error fault) (next' : Option Token) : s.run next' ts = .error fault := by
  induction ts generalizing s with
  | nil => cases h
  | cons t ts ih =>
      rw [run] at h ⊢
      cases hstep : s.step t (ts.head?.or next == some .openParen) with
      | error found =>
          rw [hstep] at h
          rw [step_eq_error hstep]
          exact h
      | ok s' =>
          rw [hstep] at h
          -- The last token is read here, so another one follows, and the step is the same.
          cases ts with
          | nil => cases h
          | cons u us =>
              rw [List.head?_cons, Option.some_or] at hstep ⊢
              rw [hstep]
              exact ih h

/-- When no token is left, a parenthesis is open or a value is due. -/
theorem fault_of_finish {s : OperatorStack} {fault : Fault} (h : s.finish = .error fault) :
    fault = if s.afterValue then .unclosedParen else .malformed := by
  rw [finish] at h
  split at h
  · rename_i hvalue
    rw [if_pos hvalue]
    split at h
    · cases h
    · exact (Except.error.inj h).symm
  · rename_i hvalue
    rw [if_neg hvalue]
    exact (Except.error.inj h).symm

end OperatorStack

/-- Tokens that are refused as they are read stay refused with others behind them. -/
theorem toPostfix_append_eq_error {ts : List Token} {fault : Fault}
    (h : OperatorStack.start.run none ts = .error fault) (us : List Token) :
    toPostfix (ts ++ us) = .error fault := by
  rw [toPostfix, OperatorStack.run_append, OperatorStack.run_eq_error h]
  rfl

namespace Grammar

/-- Where a value is due, no value has just ended. -/
theorem Awaits.not_endsValue {l : Level} {ts : List Token} {s : OperatorStack} (h : Awaits l ts s) :
    ts.getLast?.any Token.endsValue = false := by
  have hconcat : ∀ (us : List Token) (t : Token), t.endsValue = false →
      (us ++ [t]).getLast?.any Token.endsValue = false := by
    intro us t ht
    rw [List.getLast?_concat]
    exact ht
  cases h with
  | start => rfl
  | operator op _ _ _ => exact hconcat _ _ rfl
  | minus _ => exact hconcat _ _ rfl
  | plus _ => exact hconcat _ _ rfl
  | paren _ => exact hconcat _ _ rfl
  | @call l ts s name args _ _ =>
      rcases List.eq_nil_or_concat args with rfl | ⟨before, arg, rfl⟩
      · simpa using hconcat (ts ++ [.name name]) .openParen rfl
      · have hcomma := hconcat (ts ++ .name name :: .openParen ::
          (before.flatMap (fun arg => arg.1 ++ [.comma]) ++ arg.1)) .comma rfl
        simpa using hcomma

/-- **A context is completed by a phrase** and by closing the parentheses that are open in it. -/
theorem Awaits.completes {l : Level} {ts : List Token} {s : OperatorStack} (h : Awaits l ts s) :
    ∀ {m us e}, Derives m us e → l.rank ≤ m.rank →
      ∃ k e', Derives .sum (ts ++ us ++ List.replicate k .closeParen) e' := by
  induction h with
  | start =>
      intro m us e he _
      exact ⟨0, e, by simpa using he.loosen (Nat.zero_le _)⟩
  | @operator l ts s us' a op hctx hl ha ih =>
      intro m us e he hlm
      obtain ⟨k, e', hall⟩ := ih (Derives.operation ha (he.loosen hlm)) hl
      exact ⟨k, e', by simpa using hall⟩
  | minus hctx ih =>
      intro m us e he hlm
      obtain ⟨k, e', hall⟩ := ih (.minus (he.loosen hlm)) hctx.rank_le
      exact ⟨k, e', by simpa using hall⟩
  | plus hctx ih =>
      intro m us e he hlm
      obtain ⟨k, e', hall⟩ := ih (.plus (he.loosen hlm)) hctx.rank_le
      exact ⟨k, e', by simpa using hall⟩
  | paren hctx ih =>
      intro m us e he _
      obtain ⟨k, e', hall⟩ := ih (.paren (he.loosen (Nat.zero_le _)))
        (Nat.le_trans hctx.rank_le (by decide))
      exact ⟨k + 1, e', by simpa [List.replicate_succ] using hall⟩
  | call name args hctx hargs ih =>
      intro m us e he _
      have hlast := forall_mem_concat hargs (he.loosen (Nat.zero_le _))
      obtain ⟨k, e', hall⟩ := ih (.call name _ hlast) (Nat.le_trans hctx.rank_le (by decide))
      refine ⟨k + 1, e', ?_⟩
      simpa [List.replicate_succ, intercalate_concat, List.flatMap_map] using hall

/-- The stack machine knows whether the last token has ended a value. -/
theorem Reads.afterValue_eq {ts : List Token} {s : OperatorStack} (h : Reads false ts s) :
    s.afterValue = ts.getLast?.any Token.endsValue := by
  cases h with
  | operand hctx => rw [hctx.afterValue_eq, hctx.not_endsValue]
  | value hctx ha =>
      obtain ⟨t, ht, hvalue⟩ := Option.map_eq_some_iff.1 ha.endsValue
      rw [List.getLast?_append, ht]
      exact hvalue.symm
  | function name hopens hctx => cases hopens

/-- **What has been read is completed** by closing parentheses, behind a number if a value is due.
-/
theorem Reads.completes {ts : List Token} {s : OperatorStack} (h : Reads false ts s) :
    ∃ k e, Derives .sum (ts ++ (if s.afterValue then [] else [.number 0]) ++
      List.replicate k .closeParen) e := by
  cases h with
  | operand hctx =>
      rw [hctx.afterValue_eq]
      exact hctx.completes (.number 0) (Nat.le_trans hctx.rank_le (by decide))
  | value hctx ha =>
      show ∃ k e, Derives .sum (_ ++ [] ++ _) e
      rw [List.append_nil]
      exact hctx.completes ha (Nat.le_trans hctx.rank_le (by decide))
  | function name hopens hctx => cases hopens

end Grammar

open Grammar

/-- With some tokens behind them the tokens have a postfix notation. -/
def Completable (ts : List Token) : Prop :=
  ∃ us items, toPostfix (ts ++ us) = .ok items

/-- **A fault tells what may follow.** Tokens without a postfix notation are of one of two kinds.
Either they can be completed. Then they end too early: with a parenthesis open if their last token
ends a value, so that closing parentheses complete them, and else where a value is due. Or they
cannot be completed, and they are refused with the same fault whatever follows. -/
theorem toPostfix_prefix {ts : List Token} {fault : Fault} (h : toPostfix ts = .error fault) :
    (Completable ts ∧
      fault = (if ts.getLast?.any Token.endsValue then .unclosedParen else .malformed) ∧
      (fault = .unclosedParen → ∃ k items, 1 ≤ k ∧
        toPostfix (ts ++ List.replicate k .closeParen) = .ok items)) ∨
    (¬ Completable ts ∧ ∀ us, toPostfix (ts ++ us) = .error fault) := by
  cases hrun : OperatorStack.start.run none ts with
  | error found =>
      right
      have hfound : toPostfix (ts ++ []) = .error found := toPostfix_append_eq_error hrun []
      rw [List.append_nil, h] at hfound
      cases hfound
      refine ⟨?_, toPostfix_append_eq_error hrun⟩
      rintro ⟨us, items, hitems⟩
      rw [toPostfix_append_eq_error hrun] at hitems
      cases hitems
  | ok s =>
      left
      have hfault : fault = if s.afterValue then .unclosedParen else .malformed := by
        rw [toPostfix, hrun] at h
        exact OperatorStack.fault_of_finish h
      have hread : Reads false ([] ++ ts) s := Reads.run (.operand .start) hrun
      rw [List.nil_append] at hread
      obtain ⟨k, e, he⟩ := hread.completes
      have hitems := toPostfix_of_derives he
      rw [← hread.afterValue_eq]
      refine ⟨⟨_, _, by rwa [List.append_assoc] at hitems⟩, hfault, fun hopen => ?_⟩
      have hvalue : s.afterValue = true := by
        rw [hfault] at hopen
        cases hvalue : s.afterValue with
        | true => rfl
        | false =>
            rw [hvalue] at hopen
            cases hopen
      rw [if_pos hvalue, List.append_nil] at hitems
      refine ⟨k, _, ?_, hitems⟩
      -- With nothing behind them the tokens were refused.
      cases k with
      | zero =>
          rw [List.replicate_zero, List.append_nil, h] at hitems
          cases hitems
      | succ k => exact Nat.succ_le_succ (Nat.zero_le k)

/-- The call `max(1,2` is only not closed, while no tokens behind `1,` give it a meaning. -/
theorem toPostfix_prefix_call :
    toPostfix [.name "max", .openParen, .number 1, .comma, .number 2] = .error .unclosedParen ∧
    (∃ k items, 1 ≤ k ∧ toPostfix ([.name "max", .openParen, .number 1, .comma, .number 2] ++
      List.replicate k .closeParen) = .ok items) ∧
    toPostfix [.number 1, .comma] = .error .strayComma ∧
    ∀ us, toPostfix ([.number 1, .comma] ++ us) = .error .strayComma := by
  have hopen : toPostfix [.name "max", .openParen, .number 1, .comma, .number 2] =
      .error .unclosedParen := rfl
  have hstray : toPostfix [.number 1, .comma] = .error .strayComma := rfl
  refine ⟨hopen, ?_, hstray, ?_⟩
  · rcases toPostfix_prefix hopen with ⟨-, -, hcloses⟩ | ⟨hnone, hall⟩
    · exact hcloses rfl
    · exact absurd ⟨[.closeParen], _, rfl⟩ hnone
  · rcases toPostfix_prefix hstray with ⟨-, hfault, -⟩ | ⟨-, hall⟩
    · cases hfault
    · exact hall

end DeskCalc
