import DeskCalc.Proofs.Expr.Atoms

/-!
# Phrases in place of numbers

A number is a phrase of the tightest level, as everything in parentheses is. So numbers of an
expression may be replaced by phrases of this level, whatever stands around them: the tokens are
still an expression, and its tree is the old one with the trees of these phrases in place of the
numbers. A number is told from another by its rank from the left, which is the same among the tokens
and in the tree.

* `Token.replaceNumbers`, `Expr.replaceNumbers`: the tokens and the tree with their numbers
  replaced.
* `Derives.countP_isNumber`: the tokens and the tree have the same count of numbers.
* `Derives.replaceNumbers`: replacing numbers keeps the structure.
-/

namespace DeskCalc

/-! ## Tokens -/

namespace Token

/-- Whether the token is a number. -/
def isNumber : Token → Bool
  | .number _ => true
  | _ => false

/-- The tokens with tokens in place of every number, which are told its rank and its value. The
ranks start at `n`. -/
def replaceNumbers (f : Nat → Float → List Token) (n : Nat) : List Token → List Token
  | [] => []
  | .number x :: ts => f n x ++ replaceNumbers f (n + 1) ts
  | t :: ts => t :: replaceNumbers f n ts

variable (f : Nat → Float → List Token) (n : Nat)

theorem replaceNumbers_cons {t : Token} (ht : t.isNumber = false) (ts : List Token) :
    replaceNumbers f n (t :: ts) = t :: replaceNumbers f n ts := by
  cases t with
  | number x => cases ht
  | _ => rfl

theorem replaceNumbers_append (ts us : List Token) :
    replaceNumbers f n (ts ++ us) =
      replaceNumbers f n ts ++ replaceNumbers f (n + ts.countP isNumber) us := by
  induction ts generalizing n with
  | nil => rfl
  | cons t ts ih =>
      cases ht : t.isNumber with
      | false =>
          rw [List.cons_append, replaceNumbers_cons f n ht, ih, replaceNumbers_cons f n ht,
            List.countP_cons_of_neg (by simp [ht]), List.cons_append]
      | true =>
          cases t with
          | number x =>
              show f n x ++ replaceNumbers f (n + 1) (ts ++ us) =
                f n x ++ replaceNumbers f (n + 1) ts ++ _
              rw [ih, List.countP_cons_of_pos ht, List.append_assoc]
              congr 3
              omega
          | _ => cases ht

end Token

/-! ## Trees -/

namespace Expr

/-- How many numbers a tree has. -/
def numberCount (e : Expr) : Nat :=
  e.atoms.countP Token.isNumber

mutual

/-- The tree with a tree in place of every number, which is told its rank and its value. The ranks
start at `n`. -/
def replaceNumbers (g : Nat → Float → Expr) (n : Nat) : Expr → Expr
  | .number x => g n x
  | .constant name => .constant name
  | .negate e => .negate (e.replaceNumbers g n)
  | .apply op a b => .apply op (a.replaceNumbers g n) (b.replaceNumbers g (n + a.numberCount))
  | .call name args => .call name (listReplaceNumbers g n args)

/-- The trees with their numbers replaced, ranked through all of them. -/
def listReplaceNumbers (g : Nat → Float → Expr) (n : Nat) : List Expr → List Expr
  | [] => []
  | e :: es => e.replaceNumbers g n :: listReplaceNumbers g (n + e.numberCount) es

end

end Expr

/-! ## Expressions -/

namespace Grammar

/-- The tokens of an expression and its tree have the same count of numbers. -/
theorem Derives.countP_isNumber {l : Level} {ts : List Token} {e : Expr} (h : Derives l ts e) :
    ts.countP Token.isNumber = e.numberCount := by
  rw [Expr.numberCount, ← h.filter_isAtom, List.countP_filter]
  refine List.countP_congr fun t _ => ?_
  cases t <;> simp [Token.isNumber, Token.isAtom]

variable {f : Nat → Float → List Token} {g : Nat → Float → Expr}

/-- The arguments of a call with their numbers replaced, if each argument can stand this. -/
theorem exists_replaced_args {args : List (List Token × Expr)}
    (hargs : ∀ arg ∈ args, Derives .sum arg.1 arg.2)
    (hreplaced : ∀ arg ∈ args, ∀ n,
      Derives .sum (Token.replaceNumbers f n arg.1) (arg.2.replaceNumbers g n)) (n : Nat) :
    ∃ args' : List (List Token × Expr), (∀ arg ∈ args', Derives .sum arg.1 arg.2) ∧
      [Token.comma].intercalate (args'.map Prod.fst) =
        Token.replaceNumbers f n ([Token.comma].intercalate (args.map Prod.fst)) ∧
      args'.map Prod.snd = Expr.listReplaceNumbers g n (args.map Prod.snd) := by
  induction args generalizing n with
  | nil => exact ⟨[], hargs, rfl, rfl⟩
  | cons arg args ih =>
      obtain ⟨hcount, hrest⟩ := List.forall_mem_cons.1 hargs
      obtain ⟨harg, hlater⟩ := List.forall_mem_cons.1 hreplaced
      obtain ⟨args', hderives, htokens, htrees⟩ := ih hrest hlater (n + arg.2.numberCount)
      refine ⟨(Token.replaceNumbers f n arg.1, arg.2.replaceNumbers g n) :: args',
        List.forall_mem_cons.2 ⟨harg n, hderives⟩, ?_, congrArg _ htrees⟩
      -- A comma stands behind the argument if there is another one, and then there is one on both
      -- sides.
      cases args with
      | nil =>
          cases args' with
          | nil => simp
          | cons p ps => cases htrees
      | cons next args =>
          cases args' with
          | nil => cases htrees
          | cons p ps =>
              simp only [List.map_cons] at htokens ⊢
              rw [List.intercalate_cons_cons, htokens, List.intercalate_cons_cons,
                List.append_assoc, List.append_assoc, Token.replaceNumbers_append,
                Derives.countP_isNumber hcount]
              rfl

/-- **Numbers may be replaced by phrases of the tightest level**: an expression stays one, and its
tree has the trees of the phrases in place of the numbers. -/
theorem Derives.replaceNumbers (hatom : ∀ n x, Derives .atom (f n x) (g n x)) {l : Level}
    {ts : List Token} {e : Expr} (h : Derives l ts e) (n : Nat) :
    Derives l (Token.replaceNumbers f n ts) (e.replaceNumbers g n) := by
  -- The numbers of the right operand are counted on from those of the left one.
  have hoperation : ∀ {m : Level} {ts us : List Token} {a : Expr} (op : Operator) (n : Nat),
      Derives m ts a →
      Token.replaceNumbers f n (ts ++ .operator op :: us) =
        Token.replaceNumbers f n ts ++
          .operator op :: Token.replaceNumbers f (n + a.numberCount) us := by
    intro m ts us a op n ha
    rw [Token.replaceNumbers_append, ha.countP_isNumber, Token.replaceNumbers_cons f _ rfl]
  induction h generalizing n with
  | sum _ ih => exact .sum (ih n)
  | add ha _ iha ihb =>
      rw [hoperation .add n ha]
      exact .add (iha n) (ihb _)
  | sub ha _ iha ihb =>
      rw [hoperation .sub n ha]
      exact .sub (iha n) (ihb _)
  | product _ ih => exact .product (ih n)
  | mul ha _ iha ihb =>
      rw [hoperation .mul n ha]
      exact .mul (iha n) (ihb _)
  | div ha _ iha ihb =>
      rw [hoperation .div n ha]
      exact .div (iha n) (ihb _)
  | signed _ ih => exact .signed (ih n)
  | minus _ ih => exact .minus (ih n)
  | plus _ ih => exact .plus (ih n)
  | power _ ih => exact .power (ih n)
  | pow ha _ iha ihb =>
      rw [hoperation .pow n ha]
      exact .pow (iha n) (ihb _)
  | number x =>
      show Derives .atom (f n x ++ []) (g n x)
      rw [List.append_nil]
      exact hatom n x
  | constant name => exact .constant name
  | call name args hargs ih =>
      obtain ⟨args', hderives, htokens, htrees⟩ := exists_replaced_args hargs ih n
      have hcall := Derives.call name args' hderives
      rw [htokens, htrees] at hcall
      show Derives .atom
        (.name name :: .openParen :: Token.replaceNumbers f n (_ ++ [.closeParen])) _
      rw [Token.replaceNumbers_append]
      exact hcall
  | paren _ ih =>
      show Derives .atom (.openParen :: Token.replaceNumbers f n (_ ++ [.closeParen])) _
      rw [Token.replaceNumbers_append]
      exact .paren (ih n)

end Grammar

end DeskCalc
