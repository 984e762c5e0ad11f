import DeskCalc.Proofs.Expr.Atoms
import DeskCalc.Proofs.Expr.Rebuild
import DeskCalc.Proofs.Grammar.Completeness

/-!
# A tree comes back from its text

The text of a tree has parentheses around every operation. Read as tokens it is one atom of the
grammar, whatever the tree is, and the structure of this atom is the tree. So the text can stand
anywhere, and reading it gives the tree again.

* `Expr.pieces`, `text_eq_pieces`: the text of a tree as a print.
* `derives_textTokens`: its tokens are an atom with the tree as structure.
* `text_reads_back`: the tree comes back from its text.
-/

namespace DeskCalc

open Grammar Binary64

namespace Expr

mutual

/-- The pieces of the text of a tree. -/
def pieces : Expr → List Piece
  | .number x => [.token (.number x)]
  | .constant name => [.token (.name name)]
  | .negate e =>
    .token .openParen :: .token (.operator .sub) :: (e.pieces ++ [.token .closeParen])
  | .apply op a b =>
    .token .openParen :: (a.pieces ++
      .space :: .token (.operator op) :: .space :: (b.pieces ++ [.token .closeParen]))
  | .call name args =>
    .token (.name name) :: .token .openParen ::
      ([.token .comma, .space].intercalate (listPieces args) ++ [.token .closeParen])

/-- The pieces of the texts of trees. -/
def listPieces : List Expr → List (List Piece)
  | [] => []
  | e :: es => e.pieces :: listPieces es

end

/-- The tokens of the text of a tree. -/
def textTokens (e : Expr) : List Token :=
  e.pieces.filterMap Piece.token?

/-! ## The text is printed -/

theorem listText_append (ps qs : List Piece) :
    Piece.listText (ps ++ qs) = Piece.listText ps ++ Piece.listText qs :=
  List.flatMap_append

mutual

theorem text_eq_pieces : ∀ e : Expr, e.text = Piece.listText e.pieces
  | .number x => (List.append_nil _).symm
  | .constant name => (List.append_nil _).symm
  | .negate e => by
      rw [text, pieces, text_eq_pieces e]
      show _ = '(' :: '-' :: Piece.listText (e.pieces ++ [.token .closeParen])
      rw [listText_append]
      rfl
  | .apply op a b => by
      rw [text, pieces, text_eq_pieces a, text_eq_pieces b]
      show _ = '(' :: Piece.listText (a.pieces ++ _)
      rw [listText_append]
      show _ = '(' :: (_ ++ ' ' :: op.symbol :: ' ' ::
        Piece.listText (b.pieces ++ [.token .closeParen]))
      rw [listText_append, List.cons_append]
      simp only [List.append_assoc, List.cons_append]
      rfl
  | .call name args => by
      rw [text, pieces, texts_eq_listPieces args]
      show _ = name.toList ++ '(' :: Piece.listText (_ ++ [.token .closeParen])
      rw [listText_append, List.append_assoc]
      rfl

theorem texts_eq_listPieces : ∀ es : List Expr,
    [',', ' '].intercalate (texts es) =
      Piece.listText ([.token .comma, .space].intercalate (listPieces es))
  | [] => rfl
  | [e] => by
      rw [texts, texts, listPieces, listPieces, List.intercalate_singleton,
        List.intercalate_singleton, text_eq_pieces e]
  | e :: f :: es => by
      have hrest := texts_eq_listPieces (f :: es)
      rw [texts, listPieces] at hrest ⊢
      rw [texts, listPieces, List.intercalate_cons_cons, List.intercalate_cons_cons,
        listText_append, listText_append, ← hrest, ← text_eq_pieces e]
      rfl

end

mutual

/-- In the text of a tree no two pieces run together. -/
theorem spaced_pieces : ∀ e : Expr, Spaced e.pieces
  | .number x => ⟨rfl, trivial⟩
  | .constant name => ⟨rfl, trivial⟩
  | .negate e => by
      have hclosed : Spaced (e.pieces ++ [.token .closeParen]) := (spaced_pieces e).concat rfl
      rw [pieces]
      exact (hclosed.cons rfl).cons rfl
  | .apply op a b => by
      have hclosed : Spaced (b.pieces ++ [.token .closeParen]) := (spaced_pieces b).concat rfl
      have hright : Spaced (.token (.operator op) :: .space ::
        (b.pieces ++ [.token .closeParen])) :=
        ⟨rfl, hclosed.cons rfl⟩
      rw [pieces]
      exact ((spaced_pieces a).append (hright.cons rfl) rfl).cons rfl
  | .call name args => by
      have hclosed : Spaced ([.token .comma, .space].intercalate (listPieces args) ++
          [.token .closeParen]) := (spaced_listPieces args).concat rfl
      rw [pieces]
      exact ⟨rfl, hclosed.cons rfl⟩

theorem spaced_listPieces : ∀ es : List Expr,
    Spaced ([.token .comma, .space].intercalate (listPieces es))
  | [] => trivial
  | [e] => by
      rw [listPieces, listPieces, List.intercalate_singleton]
      exact spaced_pieces e
  | e :: f :: es => by
      have hrest := spaced_listPieces (f :: es)
      rw [listPieces] at hrest ⊢
      rw [listPieces, List.intercalate_cons_cons, List.append_assoc]
      have hnext : Spaced (.space ::
        [.token .comma, .space].intercalate (f.pieces :: listPieces es)) :=
        hrest.cons rfl
      exact (spaced_pieces e).append (hnext.cons rfl) rfl

end

/-! ## The text is an atom of the grammar -/

theorem filterMap_intercalate (pss : List (List Piece)) :
    ([.token .comma, .space].intercalate pss).filterMap Piece.token? =
      [Token.comma].intercalate (pss.map (List.filterMap Piece.token?)) := by
  induction pss with
  | nil => rfl
  | cons ps pss ih =>
      cases pss with
      | nil => simp
      | cons qs pss =>
          rw [List.intercalate_cons_cons, List.filterMap_append, List.filterMap_append, ih]
          simp only [List.map_cons, List.intercalate_cons_cons]
          rfl

theorem listPieces_eq_map (es : List Expr) : listPieces es = es.map pieces := by
  induction es with
  | nil => rfl
  | cons e es ih => rw [listPieces, ih, List.map_cons]

mutual

/-- **The text of a tree is an atom of the grammar**, and the tree is its structure. -/
theorem derives_textTokens : ∀ e : Expr, Derives .atom e.textTokens e
  | .number x => .number x
  | .constant name => .constant name
  | .negate e => by
      have hminus := Derives.minus ((derives_textTokens e).loosen (l := .signed) (by decide))
      have hclosed := Derives.paren (hminus.loosen (by decide))
      rw [textTokens, pieces]
      show Derives .atom (.openParen :: .operator .sub ::
        (e.pieces ++ [Piece.token .closeParen]).filterMap Piece.token?) _
      rw [List.filterMap_append]
      exact hclosed
  | .apply op a b => by
      have hleft := (derives_textTokens a).loosen (l := op.leftOperand) (by cases op <;> decide)
      have hright := (derives_textTokens b).loosen (l := op.rightOperand) (by cases op <;> decide)
      have hsum := (Derives.operation hleft hright).loosen (l := .sum) (Nat.zero_le _)
      have hclosed := Derives.paren hsum
      rw [textTokens, pieces]
      show Derives .atom (.openParen :: (a.pieces ++ _).filterMap Piece.token?) _
      rw [List.filterMap_append]
      show Derives .atom (.openParen :: (_ ++ .operator op ::
        (b.pieces ++ [Piece.token .closeParen]).filterMap Piece.token?)) _
      rw [List.filterMap_append]
      simp only [List.cons_append, List.append_assoc] at hclosed
      exact hclosed
  | .call name args => by
      have hcall := Derives.call name (args.map fun e => (e.textTokens, e)) fun arg harg => by
        obtain ⟨e, he, rfl⟩ := List.mem_map.1 harg
        exact (derives_listTextTokens args e he).loosen (by decide)
      rw [List.map_map, List.map_map] at hcall
      rw [textTokens, pieces]
      show Derives .atom (.name name :: .openParen ::
        (_ ++ [Piece.token .closeParen]).filterMap Piece.token?) _
      rw [List.filterMap_append, filterMap_intercalate, listPieces_eq_map, List.map_map]
      have hargs : args.map (Prod.snd ∘ fun e => (e.textTokens, e)) = args := List.map_id args
      rw [hargs] at hcall
      exact hcall

theorem derives_listTextTokens : ∀ es : List Expr, ∀ e ∈ es, Derives .atom e.textTokens e
  | [], _, h => nomatch h
  | f :: fs, e, h => by
      rcases List.mem_cons.1 h with hhead | hrest
      · exact hhead ▸ derives_textTokens f
      · exact derives_listTextTokens fs e hrest

end

/-! ## Reading -/

/-- The text of a tree is read as its tokens, if its numbers and names are. -/
theorem tokenize_text {e : Expr} (h : ∀ t ∈ e.atoms, t.Printable) :
    tokenize e.text = .ok e.textTokens := by
  have hprintable : ∀ t, Piece.token t ∈ e.pieces → t.Printable := by
    intro t ht
    cases hatom : t.isAtom with
    | true =>
        refine h t ?_
        rw [← (derives_textTokens e).filter_isAtom, List.mem_filter]
        exact ⟨List.mem_filterMap.2 ⟨_, ht, rfl⟩, hatom⟩
    | false =>
        cases t with
        | number x => cases hatom
        | name w => cases hatom
        | _ => trivial
  rw [text_eq_pieces, tokenize_pieces hprintable (spaced_pieces e)]
  rfl

theorem toPostfix_textTokens (e : Expr) : toPostfix e.textTokens = .ok e.toItems :=
  toPostfix_of_derives ((derives_textTokens e).loosen (by decide))

/-- **The tree comes back from its text**: the text is split into tokens, the tokens have a postfix
notation, and this is built into the same tree, if every number of the tree has no sign, every name
is a word, and no operation or call is higher than the limit. -/
theorem text_reads_back (e : Expr) (limit : Nat)
    (hnumbers : ∀ x, .number x ∈ e.atoms → Unsigned x)
    (hnames : ∀ name, .name name ∈ e.atoms → Text.isWord name.toList = true)
    (hheight : ∀ node ∈ e.operations, node.height ≤ limit) :
    ∃ ts items, tokenize e.text = .ok ts ∧ toPostfix ts = .ok items ∧
      ofPostfix limit items = .ok e := by
  have hprintable : ∀ t ∈ e.atoms, t.Printable := by
    intro t ht
    cases t with
    | number x => exact hnumbers x ht
    | name w => exact hnames w ht
    | _ => trivial
  exact ⟨_, _, tokenize_text hprintable, toPostfix_textTokens e, ofPostfix_toItems hheight⟩

/-- The text `(-max(2, min(), PI))` and its tree, which is three high. -/
theorem text_reads_back_negated_call :
    (Expr.negate (.call "max" [.number 2, .call "min" [], .constant "PI"])).text =
        "(-max(2, min(), PI))".toList ∧
      ∃ ts items,
        tokenize (Expr.negate (.call "max" [.number 2, .call "min" [], .constant "PI"])).text =
          .ok ts ∧ toPostfix ts = .ok items ∧
        ofPostfix 3 items =
          .ok (.negate (.call "max" [.number 2, .call "min" [], .constant "PI"])) := by
  refine ⟨by decide +kernel, text_reads_back _ 3 ?_ ?_ ?_⟩
  · intro x hx
    have hx : x = 2 := by simpa [atoms, listAtoms] using hx
    rw [hx]
    exact ⟨by decide +kernel, by decide +kernel, by decide +kernel⟩
  · intro name hname
    have hname : name = "max" ∨ name = "min" ∨ name = "PI" := by
      simpa [atoms, listAtoms] using hname
    rcases hname with rfl | rfl | rfl <;> decide
  · intro node hnode
    have hnode : node = .negate (.call "max" [.number 2, .call "min" [], .constant "PI"]) ∨
        node = .call "max" [.number 2, .call "min" [], .constant "PI"] ∨ node = .call "min" [] := by
      simpa [operations, listOperations] using hnode
    rcases hnode with rfl | rfl | rfl <;> decide

end Expr

end DeskCalc
