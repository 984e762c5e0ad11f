import DeskCalc.Proofs.Grammar.Phrase

/-!
# Every phrase is read

A phrase does not leave the stack as it was: some of its actions stay pending until the operator
after it is known. So the induction over a derivation says what a phrase of each level leaves
behind (`IsRead`): its items, of which the last are pending actions, and each of these yields to
every operator that can follow a phrase of this level.

* `run_append`: reading tokens in two parts, with the lookahead across the cut.
* `isRead_operation`: an operator between two phrases.
* `isRead_of_derives`: every phrase is read, from every state that admits its level.
* `toPostfix_of_derives`: an expression becomes the postfix notation of its tree.
-/

namespace DeskCalc

open Grammar Pending

namespace OperatorStack

/-- Reading tokens in two parts. The first part looks ahead to the head of the second. -/
theorem run_append (s : OperatorStack) (next : Option Token) (ts us : List Token) :
    s.run next (ts ++ us) = s.run (us.head?.or next) ts >>= fun s' => s'.run next us := by
  induction ts generalizing s with
  | nil => rfl
  | cons t ts ih =>
      have hahead : (ts ++ us).head?.or next = ts.head?.or (us.head?.or next) := by
        rw [List.head?_append, Option.or_assoc]
      simp only [List.cons_append, run, hahead]
      cases s.step t (ts.head?.or (us.head?.or next) == some .openParen) with
      | error f => rfl
      | ok s' => exact ih s'

end OperatorStack

namespace Grammar

/-- The level lets a phrase start above the stack: no operator of the phrase takes anything from
the stack, and no function waits for its parenthesis. -/
structure Level.Admits (l : Level) (stack : List Pending) : Prop where
  stops : ∀ op : Operator, l.rank ≤ op.phrase.rank → takeYielded op stack = ([], stack)
  not_function : ∀ name below, stack ≠ .function name :: below

/-- Every operator that can follow a phrase of the level makes the action yield. -/
def Level.Yields (l : Level) (act : Action) : Prop :=
  ∀ op : Operator, op.leftOperand.rank ≤ l.rank → op.yieldsTo act = true

/-- The tokens are read as a phrase of the level with the given tree, wherever one can start. -/
def IsRead (l : Level) (ts : List Token) (e : Expr) : Prop :=
  ∀ (s : OperatorStack) (next : Option Token), s.afterValue = false → next ≠ some .openParen →
    l.Admits s.stack → ∃ items acts, s.run next ts = .ok (s.afterPhrase items acts) ∧
      items ++ acts.map .action = e.toItems ∧ ∀ act ∈ acts, l.Yields act

theorem Level.Admits.tighten {l m : Level} {stack : List Pending} (hrank : l.rank ≤ m.rank)
    (h : l.Admits stack) : m.Admits stack :=
  ⟨fun op hop => h.stops op (Nat.le_trans hrank hop), h.not_function⟩

theorem Level.Yields.loosen {l m : Level} {act : Action} (hrank : l.rank ≤ m.rank)
    (h : m.Yields act) : l.Yields act :=
  fun op hop => h op (Nat.le_trans hop hrank)

theorem Level.admits_paren (l : Level) (ofCall : Bool) (stack : List Pending) :
    l.Admits (.paren ofCall :: stack) :=
  ⟨fun _ _ => rfl, fun _ _ h => by cases h⟩

theorem Level.admits_nil (l : Level) : l.Admits [] :=
  ⟨fun _ _ => rfl, fun _ _ h => by cases h⟩

theorem Level.admits_operator (op : Operator) (stack : List Pending) :
    op.rightOperand.Admits (.action (.apply op) :: stack) := by
  refine ⟨fun op' hop' => ?_, fun _ _ h => by cases h⟩
  have hstays : op'.yieldsTo (.apply op) = false := by
    revert hop'
    cases op <;> cases op' <;> decide
  simp only [takeYielded, hstays, Bool.false_eq_true, if_false]

theorem Level.admits_negate (stack : List Pending) :
    Level.signed.Admits (.action .negate :: stack) := by
  refine ⟨fun op hop => ?_, fun _ _ h => by cases h⟩
  have hpow : op = .pow := by
    revert hop
    cases op <;> decide
  rw [hpow, takeYielded_pow]

/-- Above a stack that admits a sum there is no action to take. -/
theorem Level.Admits.takeActions_append {stack : List Pending} (h : Level.sum.Admits stack)
    (acts : List Action) :
    takeActions (acts.map .action ++ stack) = (acts, stack) := by
  rw [← takeYielded_add]
  exact takeYielded_append (fun act _ => Operator.add_yieldsTo act) (h.stops .add (by decide))

theorem IsRead.loosen {l m : Level} {ts : List Token} {e : Expr} (hrank : l.rank ≤ m.rank)
    (h : IsRead m ts e) : IsRead l ts e := by
  intro s next hvalue hnext hadmits
  obtain ⟨items, acts, hrun, hitems, hacts⟩ := h s next hvalue hnext (hadmits.tighten hrank)
  exact ⟨items, acts, hrun, hitems, fun act ha => (hacts act ha).loosen hrank⟩

/-- An operator between two phrases. The pending actions of the left one go to the output when the
operator is read, those of the right one stay above the operator. -/
theorem isRead_operation (op : Operator) {ts us : List Token} {a b : Expr}
    (ha : IsRead op.leftOperand ts a) (hb : IsRead op.rightOperand us b) :
    IsRead op.phrase (ts ++ .operator op :: us) (.apply op a b) := by
  intro s next hvalue hnext hadmits
  have hleft : op.phrase.rank ≤ op.leftOperand.rank := by cases op <;> decide
  obtain ⟨items, acts, hrun, hitems, hacts⟩ :=
    ha s (some (.operator op)) hvalue (fun h => by cases h) (hadmits.tighten hleft)
  -- The operator takes exactly what the left operand left pending.
  have htake : takeYielded op (acts.map .action ++ s.stack) = (acts, s.stack) :=
    takeYielded_append (fun act hact => hacts act hact op (Nat.le_refl _))
      (hadmits.stops op (Nat.le_refl _))
  let s₁ : OperatorStack :=
    { s with
      output := s.output ++ items ++ acts.map .action
      stack := .action (.apply op) :: s.stack
      afterValue := false
      afterOpen := false }
  have hstep : (s.afterPhrase items acts).operator op = .ok s₁ := by
    simp only [OperatorStack.operator, OperatorStack.afterPhrase, if_true, htake, s₁]
  obtain ⟨items', acts', hrun', hitems', hacts'⟩ :=
    hb s₁ next rfl hnext (Level.admits_operator op s.stack)
  refine ⟨items ++ acts.map .action ++ items', acts' ++ [.apply op], ?_, ?_, ?_⟩
  · rw [OperatorStack.run_append]
    show (s.run (some (.operator op)) ts >>= fun s' => s'.run next (.operator op :: us)) = _
    rw [hrun]
    show ((s.afterPhrase items acts).operator op >>= fun s' => s'.run next us) = _
    rw [hstep]
    show s₁.run next us = _
    rw [hrun']
    simp [OperatorStack.afterPhrase, s₁]
  · simp only [Expr.toItems, ← hitems, ← hitems', List.map_append, List.append_assoc, List.map_cons,
      List.map_nil]
  -- What can follow the whole phrase can follow its right operand, and the operator yields to it.
  · intro act hact op' hop'
    rcases List.mem_append.1 hact with hright | hop
    · have hrank : op'.leftOperand.rank ≤ op.rightOperand.rank := by
        revert hop'
        cases op <;> cases op' <;> decide
      exact hacts' act hright op' hrank
    · rw [List.mem_singleton.1 hop]
      revert hop'
      cases op <;> cases op' <;> decide

/-- A minus before a phrase stays pending below the actions of the phrase. -/
theorem isRead_minus {ts : List Token} {e : Expr} (h : IsRead .signed ts e) :
    IsRead .signed (.operator .sub :: ts) (.negate e) := by
  intro s next hvalue hnext hadmits
  let s₁ : OperatorStack := { s with stack := .action .negate :: s.stack, afterOpen := false }
  have hstep : s.operator .sub = .ok s₁ := by
    simp only [OperatorStack.operator, hvalue, Bool.false_eq_true, if_false, s₁]
  obtain ⟨items, acts, hrun, hitems, hacts⟩ :=
    h s₁ next hvalue hnext (Level.admits_negate s.stack)
  refine ⟨items, acts ++ [.negate], ?_, ?_, ?_⟩
  · show (s.operator .sub >>= fun s' => s'.run next ts) = _
    rw [hstep]
    show s₁.run next ts = _
    rw [hrun]
    simp [OperatorStack.afterPhrase, s₁]
  · simp only [Expr.toItems, ← hitems, List.map_append, List.append_assoc, List.map_cons,
      List.map_nil]
  · intro act hact op hop
    rcases List.mem_append.1 hact with hinner | hneg
    · exact hacts act hinner op hop
    · rw [List.mem_singleton.1 hneg]
      revert hop
      cases op <;> decide

/-- A plus before a phrase changes nothing but that no parenthesis was opened last. -/
theorem isRead_plus {ts : List Token} {e : Expr} (h : IsRead .signed ts e) :
    IsRead .signed (.operator .add :: ts) e := by
  intro s next hvalue hnext hadmits
  have hstep : s.operator .add = .ok { s with afterOpen := false } := by
    simp only [OperatorStack.operator, hvalue, Bool.false_eq_true, if_false]
  obtain ⟨items, acts, hrun, hitems, hacts⟩ :=
    h { s with afterOpen := false } next hvalue hnext hadmits
  refine ⟨items, acts, ?_, hitems, hacts⟩
  show (s.operator .add >>= fun s' => s'.run next ts) = _
  rw [hstep]
  exact hrun

/-- A token that is a value by itself leaves nothing pending. -/
theorem isRead_value {t : Token} {item : Item} {e : Expr} (hitem : [item] = e.toItems)
    (hstep : ∀ s : OperatorStack, s.step t false = s.pushValue item) : IsRead .atom [t] e := by
  intro s next hvalue hnext hadmits
  refine ⟨[item], [], ?_, by simpa using hitem, fun act h => by cases h⟩
  have hclosed : (next == some .openParen) = false := by simpa using hnext
  simp only [OperatorStack.run, List.head?_nil, Option.none_or, hclosed, hstep,
    OperatorStack.pushValue, hvalue, Bool.false_eq_true, if_false]
  rfl

/-- What stands in plain parentheses leaves nothing pending. -/
theorem isRead_paren {ts : List Token} {e : Expr} (h : IsRead .sum ts e) :
    IsRead .atom (.openParen :: ts ++ [.closeParen]) e := by
  intro s next hvalue hnext hadmits
  let s₁ : OperatorStack :=
    { s with stack := .paren false :: s.stack, afterValue := false, afterOpen := true }
  have hopen : s.openParen = .ok s₁ := by
    have hplain := hadmits.not_function
    simp only [OperatorStack.openParen, hvalue, Bool.false_eq_true, if_false, s₁]
  obtain ⟨items, acts, hrun, hitems, hacts⟩ :=
    h s₁ (some .closeParen) rfl (fun h => by cases h) (Level.admits_paren _ _ _)
  have hclose : (s₁.afterPhrase items acts).closeParen = .ok (s.afterPhrase e.toItems []) := by
    have htake := (Level.admits_paren .sum false s.stack).takeActions_append acts
    simp [OperatorStack.closeParen, OperatorStack.afterPhrase, s₁, htake, ← hitems]
  refine ⟨e.toItems, [], ?_, by simp, fun act h => by cases h⟩
  show (s.openParen >>= fun s' => s'.run next (ts ++ [.closeParen])) = _
  rw [hopen]
  show s₁.run next (ts ++ [.closeParen]) = _
  rw [OperatorStack.run_append]
  show (s₁.run (some .closeParen) ts >>= fun s' => s'.run next [.closeParen]) = _
  rw [hrun]
  show ((s₁.afterPhrase items acts).closeParen >>= fun s' => s'.run next []) = _
  rw [hclose]
  rfl

/-! ## Calls -/

/-- The arguments of a call are read one after the other, each comma completing one of them. -/
theorem run_args {stack : List Pending} {counts : List Nat} {arg : List Token × Expr}
    {args : List (List Token × Expr)} (h : ∀ a ∈ arg :: args, IsRead .sum a.1 a.2) :
    ∀ (s : OperatorStack) (count : Nat), s.afterValue = false → s.stack = .paren true :: stack →
      s.counts = count :: counts → ∃ items acts,
        s.run (some .closeParen) ([.comma].intercalate ((arg :: args).map Prod.fst)) =
          .ok { s.afterPhrase items acts with counts := (count + args.length) :: counts } ∧
        items ++ acts.map .action = Expr.listToItems ((arg :: args).map Prod.snd) := by
  induction args generalizing arg with
  | nil =>
      intro s count hvalue hstack hcounts
      have hadmits : Level.sum.Admits s.stack := hstack ▸ Level.admits_paren _ _ _
      obtain ⟨items, acts, hrun, hitems, -⟩ :=
        h arg List.mem_cons_self s (some .closeParen) hvalue (fun h => by cases h) hadmits
      refine ⟨items, acts, ?_, by simpa [Expr.listToItems] using hitems⟩
      simpa [List.intercalate, OperatorStack.afterPhrase, hcounts] using hrun
  | cons arg' args ih =>
      intro s count hvalue hstack hcounts
      have hadmits : Level.sum.Admits s.stack := hstack ▸ Level.admits_paren _ _ _
      obtain ⟨items, acts, hrun, hitems, -⟩ :=
        h arg List.mem_cons_self s (some .comma) hvalue (fun h => by cases h) hadmits
      let s₁ : OperatorStack :=
        { s with
          output := s.output ++ items ++ acts.map .action
          counts := (count + 1) :: counts
          afterValue := false
          afterOpen := false }
      have hcomma : (s.afterPhrase items acts).comma = .ok s₁ := by
        have htake := (Level.admits_paren .sum true stack).takeActions_append acts
        simp [OperatorStack.comma, OperatorStack.afterPhrase, htake, hstack, hcounts, s₁]
      obtain ⟨items', acts', hrun', hitems'⟩ :=
        ih (fun a ha => h a (List.mem_cons_of_mem arg ha)) s₁ (count + 1) rfl hstack rfl
      refine ⟨items ++ acts.map .action ++ items', acts', ?_, ?_⟩
      · rw [List.map_cons, List.map_cons, intercalate_cons_cons, ← List.map_cons, List.append_assoc,
          OperatorStack.run_append]
        show (s.run (some .comma) arg.1 >>= _) = _
        rw [hrun]
        show ((s.afterPhrase items acts).comma >>= _) = _
        rw [hcomma]
        show s₁.run (some .closeParen) ([.comma].intercalate ((arg' :: args).map Prod.fst)) = _
        rw [hrun']
        simp [OperatorStack.afterPhrase, s₁, Nat.add_comm, Nat.add_left_comm]
      · rw [List.append_assoc, hitems', hitems]
        rfl

/-- A call leaves nothing pending, and knows how many arguments it takes. -/
theorem isRead_call (name : String) {args : List (List Token × Expr)}
    (h : ∀ arg ∈ args, IsRead .sum arg.1 arg.2) :
    IsRead .atom
      (.name name :: .openParen :: [.comma].intercalate (args.map Prod.fst) ++ [.closeParen])
      (.call name (args.map Prod.snd)) := by
  intro s next hvalue hnext hadmits
  let s₁ : OperatorStack :=
    { s with
      stack := .paren true :: .function name :: s.stack
      counts := 0 :: s.counts
      afterValue := false
      afterOpen := true }
  have hopen : (s.pushFunction name >>= fun s' => s'.openParen) = .ok s₁ := by
    simp only [OperatorStack.pushFunction, hvalue, Bool.false_eq_true, if_false]
    rfl
  have hhead : s.run next
      (.name name :: .openParen :: [.comma].intercalate (args.map Prod.fst) ++ [.closeParen]) =
      s₁.run next ([.comma].intercalate (args.map Prod.fst) ++ [.closeParen]) := by
    show (s.pushFunction name >>= fun s' => s'.openParen >>= fun s'' => s''.run next _) = _
    rw [← bind_assoc, hopen]
    rfl
  refine ⟨(Expr.call name (args.map Prod.snd)).toItems, [], ?_, by simp, fun act h => by cases h⟩
  rw [hhead]
  cases args with
  | nil => simp [List.intercalate, OperatorStack.run, OperatorStack.step, OperatorStack.closeParen,
      takeActions, OperatorStack.arity?, s₁, OperatorStack.afterPhrase, Expr.toItems,
      Expr.listToItems, bind, Except.bind]
  | cons arg args =>
      obtain ⟨items, acts, hrun, hitems⟩ := run_args h s₁ 0 rfl rfl rfl
      rw [OperatorStack.run_append]
      show (s₁.run (some .closeParen) _ >>= _) = _
      rw [hrun]
      rw [List.map_cons] at hitems
      have htake :=
        (Level.admits_paren .sum true (.function name :: s.stack)).takeActions_append acts
      simp [OperatorStack.run, OperatorStack.step, OperatorStack.closeParen,
        OperatorStack.afterPhrase, htake, OperatorStack.arity?, s₁, Expr.toItems, ← hitems,
        bind, Except.bind]

/-! ## All phrases -/

/-- **Every phrase is read**, from every state that admits its level. -/
theorem isRead_of_derives {l : Level} {ts : List Token} {e : Expr} (h : Derives l ts e) :
    IsRead l ts e := by
  induction h with
  | sum _ ih => exact ih.loosen (by decide)
  | add _ _ iha ihb => exact isRead_operation .add iha ihb
  | sub _ _ iha ihb => exact isRead_operation .sub iha ihb
  | product _ ih => exact ih.loosen (by decide)
  | mul _ _ iha ihb => exact isRead_operation .mul iha ihb
  | div _ _ iha ihb => exact isRead_operation .div iha ihb
  | signed _ ih => exact ih.loosen (by decide)
  | minus _ ih => exact isRead_minus ih
  | plus _ ih => exact isRead_plus ih
  | power _ ih => exact ih.loosen (by decide)
  | pow _ _ iha ihb => exact isRead_operation .pow iha ihb
  | number x => exact isRead_value rfl fun s => rfl
  | constant name => exact isRead_value rfl fun s => rfl
  | call name args _ ih => exact isRead_call name ih
  | paren _ ih => exact isRead_paren ih

theorem toPostfix_of_derives {ts : List Token} {e : Expr} (h : Derives .sum ts e) :
    toPostfix ts = .ok e.toItems := by
  obtain ⟨items, acts, hrun, hitems, -⟩ :=
    isRead_of_derives h OperatorStack.start none rfl (fun h => by cases h) (Level.admits_nil _)
  have htake := (Level.admits_nil .sum).takeActions_append acts
  show (OperatorStack.start.run none ts >>= OperatorStack.finish) = _
  rw [hrun, ← hitems]
  show (OperatorStack.start.afterPhrase items acts).finish = _
  simp only [OperatorStack.finish, OperatorStack.afterPhrase, OperatorStack.start, if_true, htake,
    List.nil_append]

end Grammar

end DeskCalc
