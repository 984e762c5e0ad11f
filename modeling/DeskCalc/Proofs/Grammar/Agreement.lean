import DeskCalc.Proofs.Expr.Rebuild
import DeskCalc.Proofs.Grammar.Completeness
import DeskCalc.Proofs.Grammar.Soundness

/-!
# The operator stack reads the grammar

The stack machine of precedences accepts exactly the expressions of the grammar. The grammar gives
every expression one tree, the machine gives the postfix notation of this tree, and running the
notation gives the tree again.
-/

namespace DeskCalc.Grammar

/-- An expression has one structure. -/
theorem Derives.unique {ts : List Token} {e f : Expr} (he : Derives .sum ts e)
    (hf : Derives .sum ts f) : e = f := by
  have hitems : (.ok e.toItems : Except Fault (List Item)) = .ok f.toItems :=
    (toPostfix_of_derives he).symm.trans (toPostfix_of_derives hf)
  exact Expr.toItems_injective (Except.ok.inj hitems)

/-- The tree that is built from an expression is its structure. -/
theorem derives_of_ofPostfix {ts : List Token} {items : List Item} {e : Expr} {limit : Nat}
    (hitems : toPostfix ts = .ok items) (htree : Expr.ofPostfix limit items = .ok e) :
    Derives .sum ts e := by
  obtain ⟨f, hf, heq⟩ := derives_of_toPostfix hitems
  rwa [Expr.toItems_injective ((Expr.toItems_of_ofPostfix htree).trans heq)]

/-- **The operator stack reads the grammar.** Tokens have a postfix notation if and only if they are
an expression. The tree of an expression is unique, the notation lists it from the leaves, and the
tree comes back from the notation if none of its operations and calls is higher than the limit. -/
theorem toPostfix_reads_grammar (ts : List Token) :
    ((∃ items, toPostfix ts = .ok items) ↔ ∃ e, Derives .sum ts e) ∧
    ∀ e, Derives .sum ts e →
      (∀ f, Derives .sum ts f → f = e) ∧
      toPostfix ts = .ok e.toItems ∧
      ∀ limit, (∀ node ∈ e.operations, node.height ≤ limit) →
        Expr.ofPostfix limit e.toItems = .ok e := by
  refine ⟨⟨?_, ?_⟩, fun e he => ⟨fun f hf => hf.unique he, toPostfix_of_derives he, ?_⟩⟩
  · rintro ⟨items, hitems⟩
    obtain ⟨e, he, -⟩ := derives_of_toPostfix hitems
    exact ⟨e, he⟩
  · rintro ⟨e, he⟩
    exact ⟨e.toItems, toPostfix_of_derives he⟩
  · intro limit hlimit
    exact Expr.ofPostfix_toItems hlimit

/-- The tokens `-2^-max(3,4)` and their tree, which is five high. -/
theorem toPostfix_negated_power_of_call :
    toPostfix [.operator .sub, .number 2, .operator .pow, .operator .sub, .name "max", .openParen,
        .number 3, .comma, .number 4, .closeParen] =
      .ok [.number 2, .number 3, .number 4, .call "max" 2, .action .negate, .action (.apply .pow),
        .action .negate] ∧
    Expr.ofPostfix 5 [.number 2, .number 3, .number 4, .call "max" 2, .action .negate,
        .action (.apply .pow), .action .negate] =
      .ok (.negate (.apply .pow (.number 2)
        (.negate (.call "max" [.number 3, .number 4])))) := by
  have hargs : ∀ arg ∈ [([Token.number 3], Expr.number 3), ([Token.number 4], Expr.number 4)],
      Derives .sum arg.1 arg.2 := by
    intro arg harg
    rcases List.mem_cons.1 harg with rfl | harg
    · exact Derives.loosen (by decide) (.number 3)
    · rw [List.mem_singleton.1 harg]
      exact Derives.loosen (by decide) (.number 4)
  have hcall := Derives.loosen (l := .signed) (by decide) (.call "max" _ hargs)
  have hpower := Derives.pow (.number 2) (.minus hcall)
  have htree := Derives.loosen (l := .sum) (by decide) (.minus (.signed hpower))
  have hread := (toPostfix_reads_grammar _).2 _ htree
  exact ⟨hread.2.1, hread.2.2 5 (by decide)⟩

end DeskCalc.Grammar
