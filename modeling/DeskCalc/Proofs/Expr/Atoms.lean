import DeskCalc.Grammar
import DeskCalc.Proofs.Token.Printing

/-!
# Numbers and names of a tree

Parentheses, commas and signs leave no trace in a tree, but every number and every name does: those
of an expression are those of its tree, in the same order.

* `Expr.atoms`: the numbers and names of a tree.
* `Derives.filter_isAtom`: they are those of the tokens.
-/

namespace DeskCalc

namespace Expr

mutual

/-- The numbers and names of a tree, in the order in which they are written. -/
def atoms : Expr → List Token
  | .number x => [.number x]
  | .constant name => [.name name]
  | .negate e => e.atoms
  | .apply _ a b => a.atoms ++ b.atoms
  | .call name args => .name name :: listAtoms args

/-- The numbers and names of trees, one tree after the other. -/
def listAtoms : List Expr → List Token
  | [] => []
  | e :: es => e.atoms ++ listAtoms es

end

theorem listAtoms_eq_flatMap (es : List Expr) : listAtoms es = es.flatMap atoms := by
  induction es with
  | nil => rfl
  | cons e es ih => rw [listAtoms, ih, List.flatMap_cons]

end Expr

namespace Grammar

/-- A separator that is filtered out leaves no trace. -/
theorem filter_intercalate {α : Type} {p : α → Bool} {sep : α} (hsep : p sep = false)
    (xs : List (List α)) : ([sep].intercalate xs).filter p = xs.flatMap (List.filter p) := by
  induction xs with
  | nil => rfl
  | cons x xs ih =>
      cases xs with
      | nil => simp
      | cons y xs =>
          rw [List.intercalate_cons_cons, List.filter_append, List.filter_append, ih,
            List.filter_cons_of_neg (by simp [hsep]), List.flatMap_cons]
          simp

/-- **The numbers and names of an expression are those of its tree**, in the same order. -/
theorem Derives.filter_isAtom {l : Level} {ts : List Token} {e : Expr} (h : Derives l ts e) :
    ts.filter Token.isAtom = e.atoms := by
  -- An operator between two phrases is filtered out, and so is a sign before one.
  have hoperation : ∀ (op : Operator) (ts us : List Token),
      (ts ++ .operator op :: us).filter Token.isAtom =
        ts.filter Token.isAtom ++ us.filter Token.isAtom :=
    fun op ts us => List.filter_append ts (.operator op :: us)
  induction h with
  | sum _ ih => exact ih
  | add _ _ iha ihb => rw [hoperation, iha, ihb, Expr.atoms]
  | sub _ _ iha ihb => rw [hoperation, iha, ihb, Expr.atoms]
  | product _ ih => exact ih
  | mul _ _ iha ihb => rw [hoperation, iha, ihb, Expr.atoms]
  | div _ _ iha ihb => rw [hoperation, iha, ihb, Expr.atoms]
  | signed _ ih => exact ih
  | minus _ ih => exact ih
  | plus _ ih => exact ih
  | power _ ih => exact ih
  | pow _ _ iha ihb => rw [hoperation, iha, ihb, Expr.atoms]
  | number x => rfl
  | constant name => rfl
  | call name args _ ih =>
      have hargs : (args.map Prod.fst).flatMap (List.filter Token.isAtom) =
          (args.map Prod.snd).flatMap Expr.atoms := by
        rw [List.flatMap_map, List.flatMap_map, List.flatMap_def, List.flatMap_def,
          List.map_congr_left ih]
      show Token.name name :: ([Token.comma].intercalate (args.map Prod.fst) ++
        [Token.closeParen]).filter Token.isAtom = _
      rw [List.filter_append, filter_intercalate rfl, hargs, ← Expr.listAtoms_eq_flatMap,
        Expr.atoms]
      exact congrArg _ (List.append_nil _)
  | @paren ts e _ ih =>
      show (ts ++ [Token.closeParen]).filter Token.isAtom = _
      rw [List.filter_append, ih]
      exact List.append_nil _

end Grammar

end DeskCalc
