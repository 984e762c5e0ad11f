import DeskCalc.Proofs.Expr.Names
import DeskCalc.Proofs.Number.Elementary

/-!
# Where a value that is not finite can go

Only the value of a whole tree is tested for being finite, so a value inside the tree that is
infinite or no number has to reach the root to be seen. From an operand or an argument it goes on to
what is done with it, but not everywhere: the value of a tree can be finite again though that of one
of its children is not. Then the tree *absorbs* it, and whatever is at a place below this child is
*hidden*. Quotients, powers, greatest and least values, the arc tangent and the exponential can
absorb, each for some values only, and `Hides` says for which. Nothing else does.

* `Operator.Hides`, `Operator.hides_of_apply`: what an operator can absorb.
* `Vocabulary.Hides`, `Vocabulary.hides_of_call`: what a function can absorb.
* `Expr.children`, `Expr.nodes`, `Expr.children_induction`: a tree and what it is made of.
* `Expr.subtree?`, `Expr.mem_nodes_iff`: the places in a tree.
* `Expr.Absorbs`, `Expr.IsFinite.children`: one node.
* `Expr.Hidden`, `Expr.IsFinite.subtree`: a whole tree.
-/

namespace DeskCalc

open Binary64

/-! ## Operators -/

namespace Operator

/-- The result can be finite although an operand is not: the left one, which has the index 0, or the
right one, which has the index 1. -/
inductive Hides : Operator → Float → Float → Nat → Prop
  /-- A number over an infinity is zero. -/
  | quotient {x : Float} {sign : Bool} : x.isFinite = true → Hides .div x (infinity sign) 1
  | power {x y : Float} {i : Nat} : Elementary.PowerHides x y i → Hides .pow x y i

/-- **What an operator can absorb.** -/
theorem hides_of_apply {op : Operator} {x y : Float} (h : (op.apply x y).isFinite = true) :
    (x.isFinite = true ∨ op.Hides x y 0) ∧ (y.isFinite = true ∨ op.Hides x y 1) := by
  cases op with
  | add => exact (isFinite_add h).imp .inl .inl
  | sub => exact (isFinite_sub h).imp .inl .inl
  | mul => exact (isFinite_mul h).imp .inl .inl
  | div =>
      obtain ⟨hx, hfinite | ⟨sign, rfl⟩, -⟩ := isFinite_div h
      · exact ⟨.inl hx, .inl hfinite⟩
      · exact ⟨.inl hx, .inr (.quotient hx)⟩
  | pow => exact (Elementary.isFinite_pow h).imp (Or.imp_right .power) (Or.imp_right .power)

end Operator

/-! ## Functions -/

namespace Vocabulary

/-- The value of the function of this name can be finite although the argument with this index is
not. -/
inductive Hides : String → List Float → Nat → Prop
  /-- Minus infinity is never the greatest of some values, unless it is alone. -/
  | greatest {xs : List Float} {i : Nat} : xs[i]? = some (infinity true) → Hides "max" xs i
  | least {xs : List Float} {i : Nat} : xs[i]? = some (infinity false) → Hides "min" xs i
  /-- The arc tangent of an infinity is a right angle. -/
  | arctangent {sign : Bool} : Hides "atan" [infinity sign] 0
  /-- The exponential goes to zero. -/
  | exponential : Hides "exp" [infinity true] 0
  | power {x y : Float} {i : Nat} : Elementary.PowerHides x y i → Hides "pow" [x, y] i

/-- Of all names only five can absorb. -/
theorem not_hides {name : String} (h : name ∉ ["max", "min", "atan", "exp", "pow"])
    (xs : List Float) (i : Nat) : ¬ Hides name xs i := by
  rintro (_ | _ | _ | _ | _) <;> exact h (by decide)

/-- Where the meaning has a finite value, the arguments are finite or the name hides them. -/
def Keeps (name : String) : Meaning → Prop
  | .constant _ => True
  | .unary f => ∀ x, (f x).isFinite = true → x.isFinite = true ∨ Hides name [x] 0
  | .binary f => ∀ x y, (f x y).isFinite = true →
      (x.isFinite = true ∨ Hides name [x, y] 0) ∧ (y.isFinite = true ∨ Hides name [x, y] 1)
  | .variadic f => ∀ xs, (f xs).isFinite = true →
      ∀ i x, xs[i]? = some x → x.isFinite = true ∨ Hides name xs i

/-- A function without finite values at the infinities hides nothing. -/
theorem keeps_extended (name : String) (f : Float → Float) :
    Keeps name (.unary (Elementary.extended f nan nan)) := by
  intro x h
  rcases Elementary.isFinite_extended h with hx | ⟨-, hnan⟩ | ⟨-, hnan⟩
  · exact .inl hx
  · rw [not_isFinite_nan] at hnan
    cases hnan
  · rw [not_isFinite_nan] at hnan
    cases hnan

/-- A logarithm hides nothing. -/
theorem keeps_logarithm (name : String) (f : Float → Float) :
    Keeps name (.unary (Elementary.extended f nan (infinity false))) := by
  intro x h
  rcases Elementary.isFinite_extended h with hx | ⟨-, hnan⟩ | ⟨-, hinfinity⟩
  · exact .inl hx
  · rw [not_isFinite_nan] at hnan
    cases hnan
  · rw [not_isFinite_infinity] at hinfinity
    cases hinfinity

theorem keeps_atan : Keeps "atan" (.unary Elementary.atan) := by
  intro x h
  rcases Elementary.isFinite_extended h with hx | ⟨rfl, -⟩ | ⟨rfl, -⟩
  · exact .inl hx
  · exact .inr .arctangent
  · exact .inr .arctangent

theorem keeps_exp : Keeps "exp" (.unary Elementary.exp) := by
  intro x h
  rcases Elementary.isFinite_extended h with hx | ⟨rfl, -⟩ | ⟨-, hinfinity⟩
  · exact .inl hx
  · exact .inr .exponential
  · rw [not_isFinite_infinity] at hinfinity
    cases hinfinity

theorem keeps_max : Keeps "max" (.variadic greatest) := by
  intro xs h i x hx
  refine (isFinite_greatest h x (List.mem_of_getElem? hx)).imp_right ?_
  rintro rfl
  exact .greatest hx

theorem keeps_min : Keeps "min" (.variadic least) := by
  intro xs h i x hx
  refine (isFinite_least h x (List.mem_of_getElem? hx)).imp_right ?_
  rintro rfl
  exact .least hx

theorem keeps_entries : ∀ entry ∈ entries, Keeps entry.1 entry.2 := by
  simp only [entries, List.forall_mem_cons]
  refine ⟨trivial, trivial, keeps_extended _ _, keeps_extended _ _, keeps_extended _ _,
    keeps_extended _ _, keeps_extended _ _, keeps_atan, ?sqrt, ?abs, ?floor, ?ceil, ?round,
    keeps_exp, keeps_logarithm _ _, keeps_logarithm _ _, keeps_logarithm _ _, ?pow, keeps_max,
    keeps_min, List.forall_mem_nil _⟩
  case sqrt => exact fun x h => .inl (isFinite_sqrt h)
  case abs => exact fun x h => .inl (isFinite_abs h)
  case floor | ceil | round => exact fun x h => .inl (Elementary.isFinite_toWhole h)
  case pow =>
    exact fun x y h => (Elementary.isFinite_pow h).imp (Or.imp_right .power) (Or.imp_right .power)

theorem keeps_of_meaning {name : String} {meaning : Meaning} (h : meaning? name = some meaning) :
    Keeps name meaning := by
  obtain ⟨before, behind, hentries, -⟩ := List.lookup_eq_some_iff.1 h
  exact keeps_entries (name, meaning) (by rw [hentries]; simp)

/-- **What a function can absorb.** -/
theorem hides_of_call {name : String} {xs : List Float} {v : Float} (hcall : call name xs = .ok v)
    (hv : v.isFinite = true) {i : Nat} {x : Float} (hx : xs[i]? = some x) :
    x.isFinite = true ∨ Hides name xs i := by
  unfold call at hcall
  cases hmeaning : meaning? name with
  | none =>
      rw [hmeaning] at hcall
      cases hcall
  | some meaning =>
      have hkeeps := keeps_of_meaning hmeaning
      rw [hmeaning] at hcall
      cases meaning with
      | constant value => cases hcall
      | unary f =>
          rcases xs with _ | ⟨a, _ | ⟨b, xs⟩⟩ <;> cases hcall
          rcases i with _ | i <;> cases hx
          exact hkeeps _ hv
      | binary f =>
          rcases xs with _ | ⟨a, _ | ⟨b, _ | ⟨c, xs⟩⟩⟩ <;> cases hcall
          rcases i with _ | _ | i <;> cases hx
          · exact (hkeeps _ _ hv).1
          · exact (hkeeps _ _ hv).2
      | variadic f =>
          cases hcall
          exact hkeeps xs hv i x hx

end Vocabulary

namespace Expr

/-! ## Nodes -/

/-- The operands of an operation and the arguments of a call. -/
def children : Expr → List Expr
  | .number _ => []
  | .constant _ => []
  | .negate e => [e]
  | .apply _ a b => [a, b]
  | .call _ args => args

mutual

/-- A tree and all trees in it: those that its nodes are the roots of. -/
def nodes : Expr → List Expr
  | .number x => [.number x]
  | .constant name => [.constant name]
  | .negate e => .negate e :: e.nodes
  | .apply op a b => .apply op a b :: (a.nodes ++ b.nodes)
  | .call name args => .call name args :: listNodes args

/-- All trees in some trees. -/
def listNodes : List Expr → List Expr
  | [] => []
  | e :: es => e.nodes ++ listNodes es

end

theorem listNodes_eq_flatMap (es : List Expr) : listNodes es = es.flatMap nodes := by
  induction es with
  | nil => rfl
  | cons e es ih => rw [listNodes, ih, List.flatMap_cons]

/-- The nodes of a tree are its root and those of its children. -/
theorem nodes_eq (e : Expr) : e.nodes = e :: e.children.flatMap nodes := by
  cases e with
  | number x => rfl
  | constant name => rfl
  | negate e => simp [nodes, children]
  | apply op a b => simp [nodes, children]
  | call name args => rw [nodes, listNodes_eq_flatMap, children]

mutual

/-- What holds of a tree whenever it holds of its children holds of every tree. -/
theorem children_induction {motive : Expr → Prop}
    (step : ∀ e, (∀ child ∈ e.children, motive child) → motive e) : ∀ e, motive e
  | .number _ => step _ (List.forall_mem_nil _)
  | .constant _ => step _ (List.forall_mem_nil _)
  | .negate e => step _ (List.forall_mem_singleton.2 (children_induction step e))
  | .apply _ a b => step _ (List.forall_mem_cons.2 ⟨children_induction step a,
      List.forall_mem_singleton.2 (children_induction step b)⟩)
  | .call _ args => step _ (children_induction_list step args)

theorem children_induction_list {motive : Expr → Prop}
    (step : ∀ e, (∀ child ∈ e.children, motive child) → motive e) :
    ∀ es : List Expr, ∀ e ∈ es, motive e
  | [] => List.forall_mem_nil _
  | e :: es => List.forall_mem_cons.2 ⟨children_induction step e, children_induction_list step es⟩

end

/-! ## Places -/

/-- The tree at a place, which is given by the indices of the children on the way from the root. -/
def subtree? (e : Expr) : List Nat → Option Expr
  | [] => some e
  | i :: place => e.children[i]?.bind fun child => child.subtree? place

/-- **The nodes of a tree are what is at its places.** -/
theorem mem_nodes_iff {e node : Expr} : node ∈ e.nodes ↔ ∃ place, e.subtree? place = some node := by
  induction e using children_induction with
  | step e ih =>
      rw [nodes_eq, List.mem_cons, List.mem_flatMap]
      constructor
      · rintro (rfl | ⟨child, hchild, hnode⟩)
        · exact ⟨[], rfl⟩
        · obtain ⟨i, hi⟩ := List.mem_iff_getElem?.1 hchild
          obtain ⟨place, hplace⟩ := (ih child hchild).1 hnode
          refine ⟨i :: place, ?_⟩
          rw [subtree?, hi]
          exact hplace
      · rintro ⟨_ | ⟨i, place⟩, hplace⟩
        · cases hplace
          exact .inl rfl
        · obtain ⟨child, hi, hbelow⟩ := Option.bind_eq_some_iff.1 hplace
          have hchild := List.mem_of_getElem? hi
          exact .inr ⟨child, hchild, (ih child hchild).2 ⟨place, hbelow⟩⟩

/-! ## Finite values -/

/-- The tree has a finite value. -/
def IsFinite (e : Expr) : Prop :=
  ∃ v, e.eval = .ok v ∧ v.isFinite = true

/-- The tree has a finite value, its child with this index has not, and what is done at the root can
absorb that. -/
inductive Absorbs : Expr → Nat → Prop
  | operation {op : Operator} {a b : Expr} {x y z : Float} {i : Nat} : a.eval = .ok x →
      b.eval = .ok y → (op.apply x y).isFinite = true → [x, y][i]? = some z → z.isFinite = false →
      op.Hides x y i → Absorbs (.apply op a b) i
  | call {name : String} {args : List Expr} {xs : List Float} {v x : Float} {i : Nat} :
      evalList args = .ok xs → Vocabulary.call name xs = .ok v → v.isFinite = true →
      xs[i]? = some x → x.isFinite = false → Vocabulary.Hides name xs i →
      Absorbs (.call name args) i

/-- On the way from the root to the place a tree absorbs what is at the child by which the way goes
on. -/
def Hidden (e : Expr) (place : List Nat) : Prop :=
  ∃ above i below outer, place = above ++ i :: below ∧ e.subtree? above = some outer ∧
    outer.Absorbs i

/-- At the root nothing is hidden. -/
theorem not_hidden_nil (e : Expr) : ¬ e.Hidden [] := by
  rintro ⟨above, i, below, -, hplace, -⟩
  cases above <;> cases hplace

/-- Below a child it is the root or the child that hides. -/
theorem hidden_cons {e : Expr} {i : Nat} {place : List Nat} :
    e.Hidden (i :: place) ↔
      e.Absorbs i ∨ ∃ child, e.children[i]? = some child ∧ child.Hidden place := by
  constructor
  · rintro ⟨_ | ⟨j, above⟩, k, below, outer, hplace, houter, habsorbs⟩
    · cases hplace
      cases houter
      exact .inl habsorbs
    · cases hplace
      obtain ⟨child, hi, hbelow⟩ := Option.bind_eq_some_iff.1 houter
      exact .inr ⟨child, hi, above, k, below, outer, rfl, hbelow, habsorbs⟩
  · rintro (habsorbs | ⟨child, hi, above, k, below, outer, rfl, houter, habsorbs⟩)
    · exact ⟨[], i, place, e, rfl, rfl, habsorbs⟩
    · refine ⟨i :: above, k, below, outer, rfl, ?_, habsorbs⟩
      rw [subtree?, hi]
      exact houter

/-- What is hidden is hidden by one of the nodes. -/
theorem Hidden.exists_absorbs {e : Expr} {place : List Nat} (h : e.Hidden place) :
    ∃ outer ∈ e.nodes, ∃ i, outer.Absorbs i := by
  obtain ⟨above, i, -, outer, -, houter, habsorbs⟩ := h
  exact ⟨outer, mem_nodes_iff.2 ⟨above, houter⟩, i, habsorbs⟩

theorem getElem?_evalList {es : List Expr} {xs : List Float} (h : evalList es = .ok xs) {i : Nat}
    {e : Expr} (hi : es[i]? = some e) : ∃ x, xs[i]? = some x ∧ e.eval = .ok x := by
  induction es generalizing xs i with
  | nil => cases hi
  | cons f es ih =>
      rw [evalList] at h
      obtain ⟨x, hx, hrest⟩ := bind_eq_ok.1 h
      obtain ⟨ys, hys, hreturn⟩ := bind_eq_ok.1 hrest
      cases hreturn
      cases i with
      | zero =>
          cases hi
          exact ⟨x, rfl, hx⟩
      | succ i => exact ih hys hi

/-- **A child of a tree with a finite value** has a finite value itself, or the tree absorbs it. -/
theorem IsFinite.children {e child : Expr} {i : Nat} (h : e.IsFinite)
    (hi : e.children[i]? = some child) : child.IsFinite ∨ e.Absorbs i := by
  obtain ⟨v, heval, hv⟩ := h
  cases e with
  | number x => cases hi
  | constant name => cases hi
  | negate e =>
      rw [eval] at heval
      obtain ⟨x, hx, hreturn⟩ := bind_eq_ok.1 heval
      cases hreturn
      rcases i with _ | i <;> cases hi
      exact .inl ⟨x, hx, isFinite_neg hv⟩
  | apply op a b =>
      rw [eval] at heval
      obtain ⟨x, hx, hrest⟩ := bind_eq_ok.1 heval
      obtain ⟨y, hy, hreturn⟩ := bind_eq_ok.1 hrest
      cases hreturn
      obtain ⟨hleft, hright⟩ := Operator.hides_of_apply hv
      rcases i with _ | _ | i <;> cases hi
      · cases hfinite : x.isFinite with
        | true => exact .inl ⟨x, hx, hfinite⟩
        | false =>
            have hhides := hleft.resolve_left (by simp [hfinite])
            exact .inr (.operation hx hy hv rfl hfinite hhides)
      · cases hfinite : y.isFinite with
        | true => exact .inl ⟨y, hy, hfinite⟩
        | false =>
            have hhides := hright.resolve_left (by simp [hfinite])
            exact .inr (.operation hx hy hv rfl hfinite hhides)
  | call name args =>
      rw [eval] at heval
      obtain ⟨xs, hxs, hcall⟩ := bind_eq_ok.1 heval
      obtain ⟨x, hx, hvalue⟩ := getElem?_evalList hxs hi
      cases hfinite : x.isFinite with
      | true => exact .inl ⟨x, hvalue, hfinite⟩
      | false =>
          have hhides := (Vocabulary.hides_of_call hcall hv hx).resolve_left (by simp [hfinite])
          exact .inr (.call hxs hcall hv hx hfinite hhides)

/-- **In a tree with a finite value what is at a place has a finite value, or it is hidden.** -/
theorem IsFinite.subtree {e node : Expr} {place : List Nat} (h : e.IsFinite)
    (hplace : e.subtree? place = some node) : node.IsFinite ∨ e.Hidden place := by
  induction place generalizing e with
  | nil =>
      cases hplace
      exact .inl h
  | cons i place ih =>
      obtain ⟨child, hi, hbelow⟩ := Option.bind_eq_some_iff.1 hplace
      rw [hidden_cons]
      rcases h.children hi with hchild | habsorbs
      · exact (ih hchild hbelow).imp_right fun hhidden => .inr ⟨child, hi, hhidden⟩
      · exact .inr (.inl habsorbs)

end Expr

end DeskCalc
