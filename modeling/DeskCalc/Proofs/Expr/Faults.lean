import DeskCalc.Proofs.Expr.Finite
import DeskCalc.Proofs.Expr.Rebuild
import DeskCalc.Proofs.Grammar.Replacement

/-!
# What makes an evaluation fail

Numbers never make an evaluation fail, whatever they are, and neither do operations on them. A name
does if the vocabulary does not have it or has it for another use, and then the fault is told from
the name and the number of arguments that stand behind it. The operands and arguments of a node are
evaluated before the node itself, so the first fault is that of the first such item of the postfix
notation.

* `Usage`, `Vocabulary.usage?`, `Vocabulary.usage?_eq`: how each name is to be used.
* `Item.fault?`: the fault of an item of postfix notation, if there is one.
* `fault?_eval`: the fault of an evaluation is the first one in postfix notation.
* `mem_toItems`: the items of a tree are what its nodes do.
* `eval_fails_on_names`: when an evaluation fails, and with which fault.
-/

namespace DeskCalc

/-! ## How names are used -/

/-- How a name is used. -/
inductive Usage where
  /-- It stands for a value by itself. -/
  | alone
  /-- It is called with this number of arguments. -/
  | called (count : Nat)
  /-- It is called with any number of arguments, and also with none. -/
  | calledFreely
  deriving DecidableEq

namespace Vocabulary

/-- How a name of the vocabulary is used. -/
def usage? (name : String) : Option Usage :=
  if name ∈ ["PI", "E"] then some .alone
  else if name ∈ ["sin", "cos", "tan", "asin", "acos", "atan", "sqrt", "abs", "floor", "ceil",
      "round", "exp", "log", "ln", "log10"] then some (.called 1)
  else if name ∈ ["pow"] then some (.called 2)
  else if name ∈ ["max", "min"] then some .calledFreely
  else none

/-- How a name with this meaning is used. -/
def usageOf : Meaning → Usage
  | .constant _ => .alone
  | .unary _ => .called 1
  | .binary _ => .called 2
  | .variadic _ => .calledFreely

/-- The use of a name is that of its meaning. -/
theorem usage?_eq (name : String) : usage? name = (meaning? name).map usageOf := by
  cases h : contains name with
  | true =>
      -- The vocabulary is finite, and its names are looked at one by one.
      have hsame :=
        of_contains (p := fun name => usage? name == (meaning? name).map usageOf) (by decide) h
      exact beq_iff_eq.1 hsame
  | false =>
      have hnone : meaning? name = none := by
        rw [contains, Option.isSome_eq_false_iff, Option.isNone_iff_eq_none] at h
        exact h
      have hnot : ∀ names : List String, (∀ other ∈ names, contains other = true) →
          name ∉ names := by
        intro names hnames hmem
        rw [hnames name hmem] at h
        cases h
      rw [usage?, if_neg (hnot _ (by decide)), if_neg (hnot _ (by decide)),
        if_neg (hnot _ (by decide)), if_neg (hnot _ (by decide)), hnone]
      rfl

/-- A call of the name with this number of arguments has a value. -/
def Takes (name : String) (count : Nat) : Prop :=
  usage? name = some (.called count) ∨ usage? name = some .calledFreely

/-- The fault of a name that stands by itself. -/
def valueFault? (name : String) : Option Fault :=
  match usage? name with
  | some .alone => none
  | some _ => some (.notValue name)
  | none => some (.unknownName name)

/-- The fault of a name that is called with this number of arguments. -/
def callFault? (name : String) (count : Nat) : Option Fault :=
  match usage? name with
  | some (.called expected) =>
      if count = expected then none else some (.wrongArity name expected count)
  | some .calledFreely => none
  | some .alone => some (.notFunction name)
  | none => some (.unknownName name)

theorem valueFault?_eq_none_iff (name : String) :
    valueFault? name = none ↔ usage? name = some .alone := by
  rw [valueFault?]
  cases usage? name with
  | none => simp
  | some usage => cases usage <;> simp

theorem callFault?_eq_none_iff (name : String) (count : Nat) :
    callFault? name count = none ↔ Takes name count := by
  rw [callFault?, Takes]
  cases usage? name with
  | none => simp
  | some usage => cases usage <;> simp [eq_comm]

end Vocabulary

/-- The fault of an item of postfix notation. Numbers and operations have none. -/
def Item.fault? : Item → Option Fault
  | .number _ => none
  | .constant name => Vocabulary.valueFault? name
  | .action _ => none
  | .call name arity => Vocabulary.callFault? name arity

/-! ## The fault of a computation -/

section
variable {α β : Type}

/-- The fault of a computation that fails. -/
def fault? : Except Fault α → Option Fault
  | .ok _ => none
  | .error fault => some fault

theorem fault?_eq_none_iff {r : Except Fault α} : fault? r = none ↔ ∃ x, r = .ok x := by
  cases r <;> simp [fault?]

theorem fault?_eq_some_iff {r : Except Fault α} {fault : Fault} :
    fault? r = some fault ↔ r = .error fault := by
  cases r <;> simp [fault?]

/-- Of two computations in a row the first one is to fail first. -/
theorem fault?_bind {r : Except Fault α} {f : α → Except Fault β} {rest : Option Fault}
    (h : ∀ x, r = .ok x → fault? (f x) = rest) : fault? (r >>= f) = (fault? r).or rest := by
  cases r with
  | error fault => rfl
  | ok x => exact h x rfl

end

theorem Vocabulary.fault?_constantValue (name : String) :
    fault? (constantValue name) = valueFault? name := by
  rw [constantValue, valueFault?, usage?_eq]
  cases meaning? name with
  | none => rfl
  | some meaning => cases meaning <;> rfl

/-- The fault of a call is told from the number of its arguments. -/
theorem Vocabulary.fault?_call (name : String) (args : List Float) :
    fault? (call name args) = callFault? name args.length := by
  rw [call.eq_def, callFault?, usage?_eq]
  cases meaning? name with
  | none => rfl
  | some meaning =>
      cases meaning with
      | constant x => rfl
      | unary f => rcases args with _ | ⟨x, _ | ⟨y, args⟩⟩ <;> simp [fault?, usageOf]
      | binary f => rcases args with _ | ⟨x, _ | ⟨y, _ | ⟨z, args⟩⟩⟩ <;> simp [fault?, usageOf]
      | variadic f => rfl

namespace Expr

theorem length_of_evalList {es : List Expr} {xs : List Float} (h : evalList es = .ok xs) :
    xs.length = es.length := by
  induction es generalizing xs with
  | nil =>
      cases h
      rfl
  | cons e es ih =>
      rw [evalList] at h
      obtain ⟨x, -, hrest⟩ := bind_eq_ok.1 h
      obtain ⟨ys, hys, hreturn⟩ := bind_eq_ok.1 hrest
      cases hreturn
      exact congrArg (· + 1) (ih hys)

mutual

/-- **The fault of an evaluation is the first one in postfix notation.** -/
theorem fault?_eval : ∀ e : Expr, fault? e.eval = e.toItems.findSome? Item.fault?
  | .number x => rfl
  | .constant name => by
      rw [eval, toItems, Vocabulary.fault?_constantValue, List.findSome?_singleton]
      rfl
  | .negate e => by
      rw [eval, toItems, List.findSome?_append, ← fault?_eval e]
      exact fault?_bind fun x _ => rfl
  | .apply op a b => by
      rw [eval, toItems, List.findSome?_append, List.findSome?_append, ← fault?_eval a,
        ← fault?_eval b, Option.or_assoc]
      exact fault?_bind fun x _ => fault?_bind fun y _ => rfl
  | .call name args => by
      rw [eval, toItems, List.findSome?_append, ← fault?_evalList args, List.findSome?_singleton]
      -- The callee is looked at once all arguments have values, and of these only their number
      -- matters.
      refine fault?_bind fun xs hxs => ?_
      rw [Vocabulary.fault?_call, length_of_evalList hxs]
      rfl

theorem fault?_evalList :
    ∀ es : List Expr, fault? (evalList es) = (listToItems es).findSome? Item.fault?
  | [] => rfl
  | e :: es => by
      rw [evalList, listToItems, List.findSome?_append, ← fault?_eval e, ← fault?_evalList es]
      refine fault?_bind fun x _ => ?_
      have hreturn : fault? (evalList es >>= fun xs => .ok (x :: xs)) =
        (fault? (evalList es)).or none :=
        fault?_bind fun xs _ => rfl
      rw [Option.or_none] at hreturn
      exact hreturn

end

/-! ## Nodes in postfix notation -/

/-- What the root of a tree does. -/
def root : Expr → Item
  | .number x => .number x
  | .constant name => .constant name
  | .negate _ => .action .negate
  | .apply op _ _ => .action (.apply op)
  | .call name args => .call name args.length

/-- In postfix notation the root stands behind its children. -/
theorem toItems_eq (e : Expr) : e.toItems = e.children.flatMap toItems ++ [e.root] := by
  have hargs : ∀ es : List Expr, listToItems es = es.flatMap toItems := by
    intro es
    induction es with
    | nil => rfl
    | cons e es ih => rw [listToItems, ih, List.flatMap_cons]
  cases e with
  | number x => rfl
  | constant name => rfl
  | negate e => simp [toItems, children, root]
  | apply op a b => simp [toItems, children, root]
  | call name args => rw [toItems, hargs, children, root]

/-- **The items of a tree are what its nodes do.** -/
theorem mem_toItems {e : Expr} {item : Item} :
    item ∈ e.toItems ↔ ∃ node ∈ e.nodes, node.root = item := by
  induction e using children_induction with
  | step e ih =>
      have hchildren : item ∈ e.children.flatMap toItems ↔
          ∃ node ∈ e.children.flatMap nodes, node.root = item := by
        simp only [List.mem_flatMap]
        constructor
        · rintro ⟨child, hchild, hitem⟩
          obtain ⟨node, hnode, hroot⟩ := (ih child hchild).1 hitem
          exact ⟨node, ⟨child, hchild, hnode⟩, hroot⟩
        · rintro ⟨node, ⟨child, hchild, hnode⟩, hroot⟩
          exact ⟨child, hchild, (ih child hchild).2 ⟨node, hnode, hroot⟩⟩
      rw [toItems_eq, nodes_eq, List.mem_append, List.mem_singleton, hchildren, or_comm, eq_comm]
      simp

/-- No item has a fault exactly if every name is used as it is to be used. -/
theorem forall_fault?_eq_none_iff {e : Expr} :
    (∀ item ∈ e.toItems, item.fault? = none) ↔
      (∀ name, .constant name ∈ e.nodes → Vocabulary.usage? name = some .alone) ∧
        ∀ name args, .call name args ∈ e.nodes → Vocabulary.Takes name args.length := by
  constructor
  · intro h
    constructor
    · intro name hnode
      have hnone := h _ (mem_toItems.2 ⟨_, hnode, rfl⟩)
      exact (Vocabulary.valueFault?_eq_none_iff name).1 hnone
    · intro name args hnode
      have hnone := h _ (mem_toItems.2 ⟨_, hnode, rfl⟩)
      exact (Vocabulary.callFault?_eq_none_iff name args.length).1 hnone
  · rintro ⟨hconstants, hcalls⟩ item hitem
    obtain ⟨node, hnode, rfl⟩ := mem_toItems.1 hitem
    cases node with
    | number x => rfl
    | constant name => exact (Vocabulary.valueFault?_eq_none_iff name).2 (hconstants name hnode)
    | negate e => rfl
    | apply op a b => rfl
    | call name args =>
        exact (Vocabulary.callFault?_eq_none_iff name args.length).2 (hcalls name args hnode)

/-! ## Other numbers -/

/-- The tree with other numbers. Each is told from its rank among the numbers and from the one in
whose place it stands. -/
def withNumbers (f : Nat → Float → Float) (n : Nat) (e : Expr) : Expr :=
  e.replaceNumbers (fun k x => .number (f k x)) n

section
variable (f : Nat → Float → Float)

mutual

/-- Other numbers make no other fault. -/
theorem findSome?_withNumbers : ∀ (e : Expr) (n : Nat),
    (e.withNumbers f n).toItems.findSome? Item.fault? = e.toItems.findSome? Item.fault?
  | .number x, n => rfl
  | .constant name, n => rfl
  | .negate e, n => by
      rw [withNumbers, replaceNumbers, toItems, toItems, List.findSome?_append,
        List.findSome?_append, ← withNumbers, findSome?_withNumbers e]
  | .apply op a b, n => by
      rw [withNumbers, replaceNumbers, toItems, toItems, List.findSome?_append,
        List.findSome?_append, List.findSome?_append, List.findSome?_append, ← withNumbers,
        ← withNumbers, findSome?_withNumbers a, findSome?_withNumbers b]
  | .call name args, n => by
      obtain ⟨hfaults, hlength⟩ := findSome?_listWithNumbers args n
      rw [withNumbers, replaceNumbers, toItems, toItems, List.findSome?_append,
        List.findSome?_append, hfaults, hlength]

theorem findSome?_listWithNumbers : ∀ (es : List Expr) (n : Nat),
    (listToItems (listReplaceNumbers (fun k x => .number (f k x)) n es)).findSome? Item.fault? =
        (listToItems es).findSome? Item.fault? ∧
      (listReplaceNumbers (fun k x => .number (f k x)) n es).length = es.length
  | [], n => ⟨rfl, rfl⟩
  | e :: es, n => by
      obtain ⟨hfaults, hlength⟩ := findSome?_listWithNumbers es (n + e.numberCount)
      rw [listReplaceNumbers, listToItems, listToItems, List.findSome?_append,
        List.findSome?_append, ← withNumbers, findSome?_withNumbers e, hfaults, List.length_cons,
        hlength, List.length_cons]
      exact ⟨rfl, rfl⟩

end

end

/-- **Evaluation fails on names only, never on values.** A tree has a value exactly if every
constant in it is one and every function called in it takes the number of its arguments. Otherwise
the fault is that of the first item with one in postfix notation, and no other items build the tree.
So with other numbers, whatever they are, the tree has a value if it had one, and the same fault if
it had none. -/
theorem eval_fails_on_names (e : Expr) :
    ((∃ v, e.eval = .ok v) ↔
      (∀ name, .constant name ∈ e.nodes → Vocabulary.usage? name = some .alone) ∧
        ∀ name args, .call name args ∈ e.nodes → Vocabulary.Takes name args.length) ∧
    (∀ fault, e.eval = .error fault ↔ e.toItems.findSome? Item.fault? = some fault) ∧
    (∀ limit items, ofPostfix limit items = .ok e → items = e.toItems) ∧
    ∀ f, fault? (e.withNumbers f 0).eval = fault? e.eval := by
  refine ⟨?_, ?_, ?_, ?_⟩
  · rw [← fault?_eq_none_iff, fault?_eval, List.findSome?_eq_none_iff, forall_fault?_eq_none_iff]
  · intro fault
    rw [← fault?_eq_some_iff, fault?_eval]
  · intro limit items hbuilt
    exact (toItems_of_ofPostfix hbuilt).symm
  · intro f
    rw [fault?_eval, fault?_eval, findSome?_withNumbers]

/-- In `max(2,sqrt(1,PI))+x` the square root comes before the unknown name, and it takes one
argument. -/
theorem eval_fails_on_names_first :
    [.number 2, .number 1, .constant "PI", .call "sqrt" 2, .call "max" 2, .constant "x",
      .action (.apply .add)] =
      (Expr.apply .add (.call "max" [.number 2, .call "sqrt" [.number 1, .constant "PI"]])
        (.constant "x")).toItems ∧
    (Expr.apply .add (.call "max" [.number 2, .call "sqrt" [.number 1, .constant "PI"]])
      (.constant "x")).eval = .error (.wrongArity "sqrt" 1 2) := by
  obtain ⟨-, hfault, hitems, -⟩ := eval_fails_on_names
    (.apply .add (.call "max" [.number 2, .call "sqrt" [.number 1, .constant "PI"]])
      (.constant "x"))
  refine ⟨hitems 5 _ rfl, (hfault _).2 ?_⟩
  decide

end Expr

end DeskCalc
