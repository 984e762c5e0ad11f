import DeskCalc.Grammar
import DeskCalc.Postfix.OperatorStack

/-!
# Phrases and pending actions

The grammar speaks of levels of phrases, the operator stack of actions that yield. Here the two are
tied together: every operator makes a phrase of one level from operands of two others, and which
pending actions it sends to the output is decided by these levels.

* `Derives.loosen`: a phrase of a tight level is one of every looser level.
* `Derives.operation`: the five rules for operators as one.
* `Derives.endsValue`: the last token of a phrase ends a value.
* `takeYielded_append`: actions that yield are taken together, down to what stops the operator.
-/

namespace DeskCalc

/-! ## Lists with a separator -/

theorem intercalate_cons_cons {α : Type} (sep x y : List α) (ys : List (List α)) :
    sep.intercalate (x :: y :: ys) = x ++ sep ++ sep.intercalate (y :: ys) := by
  simp [List.intercalate, List.intersperse]

/-- A list with a separator, up to the last member: each one before has the separator after it. -/
theorem intercalate_concat {α : Type} (sep y : List α) (xs : List (List α)) :
    sep.intercalate (xs ++ [y]) = xs.flatMap (· ++ sep) ++ y := by
  induction xs with
  | nil => simp [List.intercalate]
  | cons x xs ih =>
      obtain ⟨z, zs, hzs⟩ : ∃ z zs, xs ++ [y] = z :: zs := List.exists_cons_of_ne_nil (by simp)
      rw [List.cons_append, hzs, intercalate_cons_cons, ← hzs, ih]
      simp

/-! ## Levels -/

namespace Grammar

/-- How tight a level is, the loosest being 0. -/
def Level.rank : Level → Nat
  | .sum => 0
  | .product => 1
  | .signed => 2
  | .power => 3
  | .atom => 4

/-- A phrase of a tight level is a phrase of every looser level. -/
theorem Derives.loosen {l m : Level} {ts : List Token} {e : Expr}
    (hrank : l.rank ≤ m.rank) (h : Derives m ts e) : Derives l ts e := by
  cases m with
  | sum => cases l <;> first | assumption | exact absurd hrank (by decide)
  | product =>
      have hsum := Derives.sum h
      cases l <;> first | assumption | exact absurd hrank (by decide)
  | signed =>
      have hproduct := Derives.product h
      have hsum := Derives.sum hproduct
      cases l <;> first | assumption | exact absurd hrank (by decide)
  | power =>
      have hsigned := Derives.signed h
      have hproduct := Derives.product hsigned
      have hsum := Derives.sum hproduct
      cases l <;> first | assumption | exact absurd hrank (by decide)
  | atom =>
      have hpower := Derives.power h
      have hsigned := Derives.signed hpower
      have hproduct := Derives.product hsigned
      have hsum := Derives.sum hproduct
      cases l <;> assumption

end Grammar

open Grammar

namespace Operator

/-- The level of the phrases that an operator makes. -/
def phrase : Operator → Level
  | .add | .sub => .sum
  | .mul | .div => .product
  | .pow => .power

/-- The level of the left operand. -/
def leftOperand : Operator → Level
  | .add | .sub => .sum
  | .mul | .div => .product
  | .pow => .atom

/-- The level of the right operand. -/
def rightOperand : Operator → Level
  | .add | .sub => .product
  | .mul | .div => .signed
  | .pow => .signed

theorem leftOperand_eq_phrase {op : Operator} (h : op ≠ .pow) : op.leftOperand = op.phrase := by
  revert h
  cases op <;> decide

/-- A pending operator that yields has made a phrase that can stand on the left. -/
theorem phrase_rank_le_of_yieldsTo {op pending : Operator}
    (h : op.yieldsTo (.apply pending) = true) : op.phrase.rank ≤ pending.phrase.rank := by
  revert h
  cases op <;> cases pending <;> decide

/-- A pending operator that does not yield waits for a phrase of the operator. -/
theorem rightOperand_rank_le_of_not_yieldsTo {op pending : Operator}
    (h : op.yieldsTo (.apply pending) = false) : pending.rightOperand.rank ≤ op.phrase.rank := by
  revert h
  cases op <;> cases pending <;> decide

theorem yieldsTo_negate {op : Operator} (h : op ≠ .pow) : op.yieldsTo .negate = true := by
  revert h
  cases op <;> decide

@[simp] theorem not_yieldsTo_pow (act : Action) : Operator.pow.yieldsTo act = false := by
  cases act with
  | negate => rfl
  | apply op => cases op <;> rfl

@[simp] theorem add_yieldsTo (act : Action) : Operator.add.yieldsTo act = true := by
  cases act with
  | negate => rfl
  | apply op => cases op <;> rfl

end Operator

namespace Grammar

/-- The five rules for operators as one. -/
theorem Derives.operation {op : Operator} {ts us : List Token} {a b : Expr}
    (ha : Derives op.leftOperand ts a) (hb : Derives op.rightOperand us b) :
    Derives op.phrase (ts ++ .operator op :: us) (.apply op a b) := by
  cases op with
  | add => exact .add ha hb
  | sub => exact .sub ha hb
  | mul => exact .mul ha hb
  | div => exact .div ha hb
  | pow => exact .pow ha hb

end Grammar

/-! ## The last token -/

/-- Whether a value ends with the token. -/
def Token.endsValue : Token → Bool
  | .number _ => true
  | .name _ => true
  | .closeParen => true
  | _ => false

/-- An expression ends with a token that ends a value. -/
theorem Grammar.Derives.endsValue {l : Level} {ts : List Token} {e : Expr} (h : Derives l ts e) :
    ts.getLast?.map Token.endsValue = some true := by
  have hlast : ∀ {ts us : List Token} {t : Token}, us.getLast?.map Token.endsValue = some true →
      (ts ++ t :: us).getLast?.map Token.endsValue = some true := by
    intro ts us t hus
    obtain ⟨u, hu, hvalue⟩ := Option.map_eq_some_iff.1 hus
    rw [List.getLast?_append, List.getLast?_cons, hu]
    exact congrArg some hvalue
  induction h with
  | sum _ ih => exact ih
  | add _ _ _ ih => exact hlast ih
  | sub _ _ _ ih => exact hlast ih
  | product _ ih => exact ih
  | mul _ _ _ ih => exact hlast ih
  | div _ _ _ ih => exact hlast ih
  | signed _ ih => exact ih
  | @minus ts e _ ih => exact @hlast [] ts _ ih
  | @plus ts e _ ih => exact @hlast [] ts _ ih
  | power _ ih => exact ih
  | pow _ _ _ ih => exact hlast ih
  | number x => rfl
  | constant name => rfl
  | call name args _ _ =>
      rw [List.getLast?_concat]
      rfl
  | paren _ _ =>
      rw [List.getLast?_concat]
      rfl

/-! ## Pending actions -/

namespace Pending

@[simp] theorem takeYielded_pow (stack : List Pending) : takeYielded .pow stack = ([], stack) := by
  cases stack with
  | nil => rfl
  | cons p stack =>
      cases p with
      | action act =>
          simp only [takeYielded, Operator.not_yieldsTo_pow, Bool.false_eq_true, if_false]
      | paren ofCall => rfl
      | function name => rfl

@[simp] theorem takeYielded_add (stack : List Pending) :
    takeYielded .add stack = takeActions stack := by
  induction stack with
  | nil => rfl
  | cons p stack ih =>
      cases p with
      | action act => simp only [takeYielded, takeActions, Operator.add_yieldsTo, if_true, ih]
      | paren ofCall => rfl
      | function name => rfl

/-- Actions that yield are taken together, down to what stops the operator. -/
theorem takeYielded_append {op : Operator} {acts : List Action} {stack : List Pending}
    (hacts : ∀ act ∈ acts, op.yieldsTo act = true) (hstack : takeYielded op stack = ([], stack)) :
    takeYielded op (acts.map .action ++ stack) = (acts, stack) := by
  induction acts with
  | nil => exact hstack
  | cons act acts ih =>
      have hact := hacts act List.mem_cons_self
      have hrest := ih fun a ha => hacts a (List.mem_cons_of_mem act ha)
      simp only [List.map_cons, List.cons_append, takeYielded, hact, if_true, hrest]

end Pending

namespace OperatorStack

/-- The state after a phrase: its complete items are in the output, its other actions wait. -/
def afterPhrase (s : OperatorStack) (items : List Item) (acts : List Action) : OperatorStack :=
  { s with
    output := s.output ++ items
    stack := acts.map .action ++ s.stack
    afterValue := true
    afterOpen := false }

end OperatorStack

end DeskCalc
