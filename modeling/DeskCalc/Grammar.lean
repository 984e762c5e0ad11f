import DeskCalc.Expr
import DeskCalc.Token

/-!
# The grammar

What an expression is, without a word on how one is read: `Derives level tokens tree` says that the
tokens are a phrase of the given level and that the tree is its structure. Sums are made of
products, products of signed phrases, those of powers, and powers of atoms.

* Sums and products group from the left, powers from the right.
* A sign may stand before any phrase of its level; plus leaves no trace in the tree. The right
  operand of a power is a signed phrase, its left operand an atom, so `-2^2` is a negation and
  `2^-3` a power.
* Parentheses leave no trace in the tree. A name before parentheses is called with the phrases
  between the commas, none of them if there is nothing between the parentheses.
-/

namespace DeskCalc.Grammar

/-- The levels of phrases, from the loosest to the tightest. -/
inductive Level where
  | sum
  | product
  | signed
  | power
  | atom
  deriving DecidableEq

/-- The tokens are a phrase of the level, and the tree is its structure. -/
inductive Derives : Level → List Token → Expr → Prop
  | sum {ts e} : Derives .product ts e → Derives .sum ts e
  | add {ts us a b} : Derives .sum ts a → Derives .product us b →
      Derives .sum (ts ++ .operator .add :: us) (.apply .add a b)
  | sub {ts us a b} : Derives .sum ts a → Derives .product us b →
      Derives .sum (ts ++ .operator .sub :: us) (.apply .sub a b)
  | product {ts e} : Derives .signed ts e → Derives .product ts e
  | mul {ts us a b} : Derives .product ts a → Derives .signed us b →
      Derives .product (ts ++ .operator .mul :: us) (.apply .mul a b)
  | div {ts us a b} : Derives .product ts a → Derives .signed us b →
      Derives .product (ts ++ .operator .div :: us) (.apply .div a b)
  | signed {ts e} : Derives .power ts e → Derives .signed ts e
  | minus {ts e} : Derives .signed ts e → Derives .signed (.operator .sub :: ts) (.negate e)
  | plus {ts e} : Derives .signed ts e → Derives .signed (.operator .add :: ts) e
  | power {ts e} : Derives .atom ts e → Derives .power ts e
  | pow {ts us a b} : Derives .atom ts a → Derives .signed us b →
      Derives .power (ts ++ .operator .pow :: us) (.apply .pow a b)
  | number (x) : Derives .atom [.number x] (.number x)
  | constant (name) : Derives .atom [.name name] (.constant name)
  | call (name) (args : List (List Token × Expr)) :
      (∀ arg ∈ args, Derives .sum arg.1 arg.2) →
      Derives .atom
        (.name name :: .openParen :: [.comma].intercalate (args.map Prod.fst) ++ [.closeParen])
        (.call name (args.map Prod.snd))
  | paren {ts e} : Derives .sum ts e → Derives .atom (.openParen :: ts ++ [.closeParen]) e

end DeskCalc.Grammar
