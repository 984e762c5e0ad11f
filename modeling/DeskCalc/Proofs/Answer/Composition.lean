import DeskCalc.Proofs.Answer.Typed
import DeskCalc.Proofs.Grammar.Agreement

/-!
# Expressions composed of typed texts

What is typed may be put in parentheses and become an operand or an argument, and the tree of the
whole is composed of the trees of the parts. Nothing that a part looks like matters, for it is read
between its parentheses as it is read by itself: the parts are joined as texts, their tokens stand
one after the other, and the tokens are phrases of the grammar, which is closed under these
compositions.

* `Denotes`, `denotes_iff`: the tree of what is typed.
* `exists_typed_arguments`: the tokens of texts between commas.
* `denotes_composed`: the tree of texts in parentheses, of operations and of calls.
-/

namespace DeskCalc

open Text Token

namespace Answer

/-- What is typed is admitted, and is read, with the last answer in it, as an expression with the
given tree. How long the text is and how high the tree is plays no part. -/
structure Denotes (answer : Option Float) (raw : Text) (e : Expr) : Prop where
  characters : admitCharacters (canonical raw) = .ok ()
  numbers : admitNumbers (canonical raw) = .ok ()
  tree : ∃ ts items limit, tokenize (substitute (literal answer) (canonical raw)) = .ok ts ∧
    toPostfix ts = .ok items ∧ Expr.ofPostfix limit items = .ok e

variable {answer : Option Float}

/-- **What is typed denotes a tree if its tokens are a phrase with this structure.** -/
theorem denotes_iff {raw : Text} {e : Expr} :
    Denotes answer raw e ↔ ∃ ts, Typed answer raw ts ∧ Grammar.Derives .sum ts e := by
  constructor
  · rintro ⟨hcharacters, hnumbers, ts, items, limit, hts, hitems, htree⟩
    exact ⟨ts, ⟨hcharacters, hnumbers, hts⟩, Grammar.derives_of_ofPostfix hitems htree⟩
  · rintro ⟨ts, ⟨hcharacters, hnumbers, hts⟩, he⟩
    refine ⟨hcharacters, hnumbers, ts, e.toItems, e.height, hts, Grammar.toPostfix_of_derives he,
      ?_⟩
    exact Expr.ofPostfix_toItems fun node hnode => Expr.height_le_of_mem_operations e node hnode

/-- What is typed between commas is read one by one, with commas between the tokens. -/
theorem exists_typed_arguments {args : List (Text × Expr)}
    (h : ∀ arg ∈ args, Denotes answer arg.1 arg.2) :
    ∃ phrases : List (List Token × Expr), phrases.map Prod.snd = args.map Prod.snd ∧
      (∀ phrase ∈ phrases, Grammar.Derives .sum phrase.1 phrase.2) ∧
      Typed answer ([','].intercalate (args.map Prod.fst))
        ([.comma].intercalate (phrases.map Prod.fst)) := by
  induction args with
  | nil => exact ⟨[], rfl, List.forall_mem_nil _, Typed.nil answer⟩
  | cons arg args ih =>
      obtain ⟨phrases, htrees, hphrases, hrest⟩ := ih fun x hx => h x (List.mem_cons_of_mem arg hx)
      obtain ⟨ts, hts, he⟩ := denotes_iff.1 (h arg List.mem_cons_self)
      refine ⟨(ts, arg.2) :: phrases, congrArg (arg.2 :: ·) htrees,
        List.forall_mem_cons.2 ⟨he, hphrases⟩, ?_⟩
      -- Behind the last argument there is no comma.
      cases args with
      | nil =>
          rw [List.map_eq_nil_iff.1 htrees]
          simpa using hts
      | cons next args =>
          obtain ⟨phrase, phrases, rfl⟩ : ∃ x xs, phrases = x :: xs :=
            List.exists_cons_of_ne_nil (by rintro rfl; cases htrees)
          simp only [List.map_cons, intercalate_cons_cons] at hrest ⊢
          have hjoined := hts.separate hrest (c := ',') rfl (by decide)
          simpa using hjoined

/-- **The tree of a composed expression is composed of the trees of its parts**, whatever texts
these are.

* Parentheses leave no trace.
* A minus sign in front of them makes a negation.
* An operator between two of them makes an operation, with every sign that can be typed for it.
* The name of a function in front of them, in any case, makes a call with any number of arguments.
  -/
theorem denotes_composed (answer : Option Float) :
    (∀ s a, Denotes answer s a →
      Denotes answer (inParens s) a ∧
      ∀ sign ∈ Operator.sub.signs, Denotes answer (sign ++ inParens s) (.negate a)) ∧
    (∀ s a t b, Denotes answer s a → Denotes answer t b →
      ∀ op : Operator, ∀ sign ∈ op.signs,
        Denotes answer (inParens s ++ sign ++ inParens t) (.apply op a b)) ∧
    ∀ f, Vocabulary.isFunction (String.ofList (lower f)) = true →
      ∀ args : List (Text × Expr), (∀ arg ∈ args, Denotes answer arg.1 arg.2) →
        Denotes answer (f ++ inParens ([','].intercalate (args.map Prod.fst)))
          (.call (String.ofList (lower f)) (args.map Prod.snd)) := by
  refine ⟨fun s a hs => ?_, fun s a t b hs ht op sign hsign => ?_, fun f hf args hargs => ?_⟩
  · obtain ⟨ts, hts, ha⟩ := denotes_iff.1 hs
    have hparen := Grammar.Derives.paren ha
    refine ⟨denotes_iff.2 ⟨_, (Typed.nil answer).parens hts, hparen.loosen (by decide)⟩,
      fun sign hsign => ?_⟩
    exact denotes_iff.2 ⟨_, (typed_sign hsign answer).parens hts,
      (Grammar.Derives.minus (hparen.loosen (by decide))).loosen (by decide)⟩
  · obtain ⟨ts, hts, ha⟩ := denotes_iff.1 hs
    obtain ⟨us, hus, hb⟩ := denotes_iff.1 ht
    have hleft := (Grammar.Derives.paren ha).loosen (l := op.leftOperand) (by cases op <;> decide)
    have hright := (Grammar.Derives.paren hb).loosen (l := op.rightOperand) (by cases op <;> decide)
    have hphrase := (hleft.operation hright).loosen (l := .sum) (Nat.zero_le _)
    have htyped := (Typed.nil answer).parens_append hts ((typed_sign hsign answer).parens hus)
    rw [← List.append_assoc] at htyped
    rw [List.append_assoc] at hphrase
    exact denotes_iff.2 ⟨_, htyped, hphrase⟩
  · obtain ⟨phrases, htrees, hphrases, htyped⟩ := exists_typed_arguments hargs
    have hcall := Grammar.Derives.call (String.ofList (lower f)) phrases hphrases
    rw [htrees] at hcall
    exact denotes_iff.2 ⟨_, (typed_function hf answer).parens htyped, hcall.loosen (by decide)⟩

/-- A percentage and the negative last answer -3 in a power that is typed with two stars, in a
negation and in calls, one of them without arguments. -/
theorem denotes_composed_percentage :
    let percentage := Expr.apply .div (.number 50) (.number 100)
    let three := Expr.negate (.number 3)
    Denotes (some (-3)) "50%".toList percentage ∧
    Denotes (some (-3)) "ans".toList three ∧
    Denotes (some (-3)) "(50%)**(ans)".toList (.apply .pow percentage three) ∧
    Denotes (some (-3)) "−(ans)".toList (.negate three) ∧
    Denotes (some (-3)) "Max(50%,ans)".toList (.call "max" [percentage, three]) ∧
    Denotes (some (-3)) "MIN()".toList (.call "min" []) := by
  intro percentage three
  have hpercentage : Denotes (some (-3)) "50%".toList percentage := {
    characters := eq_ok_of_toOption (by decide +kernel)
    numbers := eq_ok_of_toOption (by decide +kernel)
    tree := ⟨[.openParen, .number 50, .operator .div, .number 100, .closeParen],
      [.number 50, .number 100, .action (.apply .div)], 2, eq_ok_of_toOption (by decide +kernel),
      rfl, rfl⟩ }
  have hthree : Denotes (some (-3)) "ans".toList three := {
    characters := eq_ok_of_toOption (by decide +kernel)
    numbers := eq_ok_of_toOption (by decide +kernel)
    tree := ⟨[.openParen, .operator .sub, .number 3, .closeParen],
      [.number 3, .action .negate], 2, eq_ok_of_toOption (by decide +kernel), rfl, rfl⟩ }
  obtain ⟨hparens, hoperation, hcall⟩ := denotes_composed (some (-3))
  refine ⟨hpercentage, hthree, ?_, ?_, ?_, ?_⟩
  · exact hoperation _ _ _ _ hpercentage hthree .pow ['*', '*'] (by decide)
  · exact (hparens _ _ hthree).2 ['−'] (by decide)
  · refine hcall "Max".toList (by decide) [("50%".toList, percentage), ("ans".toList, three)] ?_
    intro arg harg
    rcases List.mem_cons.1 harg with rfl | harg
    · exact hpercentage
    · rw [List.mem_singleton.1 harg]
      exact hthree
  · exact hcall "MIN".toList (by decide) [] (List.forall_mem_nil _)

end Answer

end DeskCalc
