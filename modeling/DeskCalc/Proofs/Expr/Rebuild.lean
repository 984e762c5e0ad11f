import DeskCalc.Expr.OfPostfix

/-!
# A tree comes back from its postfix notation

Running the postfix notation of a tree on any stack puts the tree on top of it, with its height, as
long as no operation or call in it is higher than the limit. What a run puts on the stack has the
items of the run as its notation, so no other tree is ever built.

* `Expr.operations`: the subtrees that the limit is about.
* `runItems_toItems`: the run, with any items after the tree.
* `ofPostfix_toItems`: the tree comes back.
* `stackItems_stepItem`, `toItems_of_ofPostfix`: what is built has the notation that was run.
-/

namespace DeskCalc

namespace Expr

mutual

/-- The operations and calls in a tree, each as the subtree of which it is the root. -/
def operations : Expr → List Expr
  | .number _ => []
  | .constant _ => []
  | .negate e => .negate e :: e.operations
  | .apply op a b => .apply op a b :: (a.operations ++ b.operations)
  | .call name args => .call name args :: listOperations args

/-- The operations and calls in trees. -/
def listOperations : List Expr → List Expr
  | [] => []
  | e :: es => e.operations ++ listOperations es

end

mutual

/-- No operation in a tree is higher than the tree. -/
theorem height_le_of_mem_operations :
    ∀ (e : Expr), ∀ node ∈ e.operations, node.height ≤ e.height
  | .number x, node, hnode => nomatch hnode
  | .constant name, node, hnode => nomatch hnode
  | .negate e, node, hnode => by
      rcases List.mem_cons.1 hnode with rfl | hinner
      · exact Nat.le_refl _
      · exact Nat.le_succ_of_le (height_le_of_mem_operations e node hinner)
  | .apply op a b, node, hnode => by
      rcases List.mem_cons.1 hnode with rfl | hinner
      · exact Nat.le_refl _
      · rw [height]
        rcases List.mem_append.1 hinner with hleft | hright
        · have := height_le_of_mem_operations a node hleft
          omega
        · have := height_le_of_mem_operations b node hright
          omega
  | .call name args, node, hnode => by
      rcases List.mem_cons.1 hnode with rfl | hinner
      · exact Nat.le_refl _
      · exact Nat.le_succ_of_le (height_le_of_mem_listOperations args node hinner)

theorem height_le_of_mem_listOperations :
    ∀ (es : List Expr), ∀ node ∈ listOperations es, node.height ≤ maxHeight es
  | [], node, hnode => nomatch hnode
  | e :: es, node, hnode => by
      rw [maxHeight]
      rcases List.mem_append.1 hnode with hhead | htail
      · have := height_le_of_mem_operations e node hhead
        omega
      · have := height_le_of_mem_listOperations es node htail
        omega

end

/-- A tree on a stack, with its height. -/
def measured (e : Expr) : Measured :=
  (e, e.height)

theorem foldl_max_height (es : List Expr) (h : Nat) :
    (es.map height).foldl max h = max h (maxHeight es) := by
  induction es generalizing h with
  | nil => simp [maxHeight]
  | cons e es ih =>
      rw [List.map_cons, List.foldl_cons, ih, maxHeight, Nat.max_assoc]

theorem push_measured {limit : Nat} {e : Expr} (h : e.height ≤ limit) (stack : List Measured) :
    push limit e e.height stack = .ok (e.measured :: stack) := by
  simp only [push, Nat.not_lt.2 h, if_false, measured]

theorem stepItem_call {limit : Nat} {name : String} {args : List Expr}
    (h : (Expr.call name args).height ≤ limit) (stack : List Measured) :
    stepItem limit ((args.map measured).reverse ++ stack) (.call name args.length) =
      .ok ((Expr.call name args).measured :: stack) := by
  have hlen : ((args.map measured).reverse).length = args.length := by simp
  have htake : ((args.map measured).reverse ++ stack).take args.length =
      (args.map measured).reverse := by rw [← hlen, List.take_left]
  have hdrop : ((args.map measured).reverse ++ stack).drop args.length = stack := by
    rw [← hlen, List.drop_left]
  have hfst : (args.map measured).map Prod.fst = args := by simp [measured, Function.comp_def]
  have hsnd : ((args.map measured).map Prod.snd).foldl max 0 = maxHeight args := by
    have hheights : (args.map measured).map Prod.snd = args.map height := by
      simp [measured, Function.comp_def]
    rw [hheights, foldl_max_height, Nat.zero_max]
  have hshort : ¬ ((args.map measured).reverse ++ stack).length < args.length := by simp
  simp only [stepItem, hshort, if_false, htake, hdrop, List.reverse_reverse, hfst, hsnd]
  exact push_measured h stack

mutual

/-- Running the items of a tree puts the tree on the stack. -/
theorem runItems_toItems {limit : Nat} : ∀ (e : Expr) (stack : List Measured) (rest : List Item),
    (∀ node ∈ e.operations, node.height ≤ limit) →
      runItems limit stack (e.toItems ++ rest) = runItems limit (e.measured :: stack) rest
  | .number x, stack, rest, _ => rfl
  | .constant name, stack, rest, _ => rfl
  | .negate e, stack, rest, h => by
      simp only [operations, List.forall_mem_cons] at h
      rw [toItems, List.append_assoc, runItems_toItems e _ _ h.2]
      show (push limit (.negate e) (Expr.negate e).height stack >>= _) = _
      rw [push_measured h.1]
      rfl
  | .apply op a b, stack, rest, h => by
      simp only [operations, List.forall_mem_cons, List.forall_mem_append] at h
      rw [toItems, List.append_assoc, List.append_assoc, runItems_toItems a _ _ h.2.1,
        runItems_toItems b _ _ h.2.2]
      show (push limit (.apply op a b) (Expr.apply op a b).height stack >>= _) = _
      rw [push_measured h.1]
      rfl
  | .call name args, stack, rest, h => by
      simp only [operations, List.forall_mem_cons] at h
      rw [toItems, List.append_assoc, runItems_listToItems args _ _ h.2]
      show (stepItem limit _ (.call name args.length) >>= _) = _
      rw [stepItem_call h.1]
      rfl

theorem runItems_listToItems {limit : Nat} :
    ∀ (es : List Expr) (stack : List Measured) (rest : List Item),
      (∀ node ∈ listOperations es, node.height ≤ limit) →
        runItems limit stack (listToItems es ++ rest) =
          runItems limit ((es.map measured).reverse ++ stack) rest
  | [], stack, rest, _ => rfl
  | e :: es, stack, rest, h => by
      simp only [listOperations, List.forall_mem_append] at h
      rw [listToItems, List.append_assoc, runItems_toItems e _ _ h.1,
        runItems_listToItems es _ _ h.2]
      simp

end

/-- **The tree comes back**, if no operation or call in it is higher than the limit. -/
theorem ofPostfix_toItems {limit : Nat} {e : Expr}
    (h : ∀ node ∈ e.operations, node.height ≤ limit) : ofPostfix limit e.toItems = .ok e := by
  have hrun := runItems_toItems e [] [] h
  rw [List.append_nil] at hrun
  simp only [ofPostfix, hrun]
  rfl

/-! ## What a notation has built -/

theorem listToItems_append (es fs : List Expr) :
    listToItems (es ++ fs) = listToItems es ++ listToItems fs := by
  induction es with
  | nil => rfl
  | cons e es ih => rw [List.cons_append, listToItems, listToItems, ih, List.append_assoc]

/-- The postfix notations of the trees on a stack, from the bottom. -/
def stackItems (stack : List Measured) : List Item :=
  listToItems (stack.map Prod.fst).reverse

theorem stackItems_cons (e : Expr) (height : Nat) (stack : List Measured) :
    stackItems ((e, height) :: stack) = stackItems stack ++ e.toItems := by
  rw [stackItems, List.map_cons, List.reverse_cons, listToItems_append]
  exact congrArg (_ ++ ·) (List.append_nil _)

theorem eq_cons_of_push {limit : Nat} {e : Expr} {height : Nat} {stack stack' : List Measured}
    (h : push limit e height stack = .ok stack') : stack' = (e, height) :: stack := by
  rw [push] at h
  split at h
  · cases h
  · cases h
    rfl

/-- Every item is put behind the notations of the trees on the stack. -/
theorem stackItems_stepItem {limit : Nat} {stack stack' : List Measured} {item : Item}
    (h : stepItem limit stack item = .ok stack') :
    stackItems stack' = stackItems stack ++ [item] := by
  fun_cases stepItem limit stack item with
  | case1 _ x =>
      cases h
      exact stackItems_cons _ 1 stack
  | case2 _ name =>
      cases h
      exact stackItems_cons _ 1 stack
  | case3 e height below =>
      rw [eq_cons_of_push h, stackItems_cons, stackItems_cons, toItems, List.append_assoc]
  | case4 _ hstack =>
      simp only [stepItem] at h
      cases h
  | case5 op b hb a ha below =>
      rw [eq_cons_of_push h, stackItems_cons, stackItems_cons, stackItems_cons, toItems,
        List.append_assoc, List.append_assoc, List.append_assoc]
  | case6 _ op hstack =>
      simp only [stepItem] at h
      cases h
  | case7 _ name arity hshort =>
      rw [stepItem, if_pos hshort] at h
      cases h
  | case8 _ name arity hshort args =>
      rw [stepItem, if_neg hshort] at h
      have hlength : (args.map Prod.fst).length = arity := by
        simp only [args, List.length_map, List.length_reverse, List.length_take]
        omega
      have hsplit : stackItems stack =
          stackItems (stack.drop arity) ++ listToItems (args.map Prod.fst) := by
        rw [stackItems, stackItems, ← listToItems_append, List.map_reverse, ← List.reverse_append,
          ← List.map_append, List.take_append_drop]
      rw [eq_cons_of_push h, stackItems_cons, toItems, hlength, hsplit, List.append_assoc]

/-- Trees with the same postfix notation are the same. -/
theorem toItems_injective {e f : Expr} (h : e.toItems = f.toItems) : e = f := by
  have he : ofPostfix (max e.height f.height) e.toItems = .ok e :=
    ofPostfix_toItems fun node hnode =>
      Nat.le_trans (height_le_of_mem_operations e node hnode) (Nat.le_max_left _ _)
  have hf : ofPostfix (max e.height f.height) f.toItems = .ok f :=
    ofPostfix_toItems fun node hnode =>
      Nat.le_trans (height_le_of_mem_operations f node hnode) (Nat.le_max_right _ _)
  rw [h] at he
  exact Except.ok.inj (he.symm.trans hf)

/-- **A tree that is built from a postfix notation has this notation.** -/
theorem toItems_of_ofPostfix {limit : Nat} {items : List Item} {e : Expr}
    (h : ofPostfix limit items = .ok e) : e.toItems = items := by
  have hrun : ∀ {items : List Item} {stack stack' : List Measured},
      runItems limit stack items = .ok stack' → stackItems stack' = stackItems stack ++ items := by
    intro items
    induction items with
    | nil =>
        intro stack stack' h
        cases h
        exact (List.append_nil _).symm
    | cons item items ih =>
        intro stack stack' h
        rw [runItems] at h
        cases hstep : stepItem limit stack item with
        | error fault =>
            rw [hstep] at h
            cases h
        | ok next =>
            rw [hstep] at h
            rw [ih h, stackItems_stepItem hstep, List.append_assoc]
            rfl
  rw [ofPostfix] at h
  cases hstack : runItems limit [] items with
  | error fault =>
      rw [hstack] at h
      cases h
  | ok stack =>
      rw [hstack] at h
      have hitems := hrun hstack
      dsimp only [bind, Except.bind] at h
      split at h
      · cases h
        rw [stackItems_cons] at hitems
        exact hitems
      · cases h

end Expr

end DeskCalc
