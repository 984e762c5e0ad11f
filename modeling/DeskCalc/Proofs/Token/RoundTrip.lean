import DeskCalc.Proofs.Number.Finite
import DeskCalc.Proofs.Token.Printing

/-!
# Tokens and their text

The text of a list of tokens is read as the list where every token can be written as itself: the
numbers are finite and have no sign, and the names are words. These are the only lists that come
back. The tokens of a text are of this kind, but for a number past the largest double: it is
infinite, and it would be written as a word.

* `printable_or_infinity`, `printable_of_tokenize`: the tokens of a text are written as themselves.
* `rewritten`, `tokenize_listText_rewritten`: what an infinity is written as.
* `listText_reads_back`: the lists of tokens that are read from their text.
-/

namespace DeskCalc

open Text Binary64

theorem Decimal.scaledRank_le (coefficient : Nat) (power : Int) :
    scaledRank coefficient power ≤ infinityRank := by
  unfold scaledRank
  split
  · exact Nat.zero_le _
  · split
    · split
      · exact Nat.le_refl _
      · exact nearest_le_infinityRank _ _
    · split
      · exact Nat.zero_le _
      · exact nearest_le_infinityRank _ _

namespace Token

/-- **A token of a text is written as itself**, or it is a number past the largest double. -/
theorem printable_or_infinity {t : Text} {ts : List Token} (h : tokenize t = .ok ts) :
    ∀ token ∈ ts, token.Printable ∨ token = .number (infinity false) := by
  intro token htoken
  obtain ⟨c, t, hscan⟩ := scan_of_mem h htoken
  have hfinds := finds hscan
  generalize scanned c t = u at hfinds
  generalize (scan c t).2 = rest at hfinds
  cases hfinds with
  | symbol hblank hsymbol =>
      left
      cases isSymbol hsymbol <;> trivial
  | word hword =>
      left
      show isWord _ = true
      rw [String.toList_ofList, isWord, hword, Bool.true_and, List.all_takeWhile]
  | number hnumber hmantissa =>
      rw [Decimal.read]
      rcases Nat.lt_or_eq_of_le (Decimal.scaledRank_le _ _) with hfinite | hinfinite
      · exact .inl (unsigned_ofRank hfinite)
      · exact .inr (by rw [hinfinite, infinity])

/-- The tokens of a text are written as themselves, if its numbers are finite. -/
theorem printable_of_tokenize {t : Text} {ts : List Token} (h : tokenize t = .ok ts)
    (hfinite : ∀ x, .number x ∈ ts → x.isFinite = true) : ∀ token ∈ ts, token.Printable := by
  intro token htoken
  rcases printable_or_infinity h token htoken with hprintable | rfl
  · exact hprintable
  · have hinfinity := hfinite _ htoken
    rw [not_isFinite_infinity] at hinfinity
    cases hinfinity

/-- The token that the text of a token is read as: an infinity is written as a word. -/
def rewritten : Token → Token
  | .number x => if x = infinity false then .name "inf" else .number x
  | t => t

theorem text_rewritten (t : Token) : t.rewritten.text = t.text := by
  cases t with
  | number x =>
      rw [rewritten]
      split
      · rename_i hx
        rw [hx]
        decide +kernel
      · rfl
  | _ => rfl

theorem rewritten_infinity : rewritten (.number (infinity false)) = .name "inf" := by
  rw [rewritten, if_pos rfl]

theorem rewritten_eq_self {t : Token} (h : t.Printable) : t.rewritten = t := by
  cases t with
  | number x =>
      replace h : Unsigned x := h
      rw [rewritten, if_neg]
      rintro rfl
      have hfinite := h.isFinite
      rw [not_isFinite_infinity] at hfinite
      cases hfinite
  | _ => rfl

theorem rewritten_ne_infinity (t : Token) : t.rewritten ≠ .number (infinity false) := by
  cases t with
  | number x =>
      rw [rewritten]
      split
      · exact fun h => by cases h
      · rename_i hx
        exact fun h => hx (Token.number.inj h)
  | _ => exact fun h => by cases h

/-- The text of the tokens of a text is read as these tokens, infinities apart. -/
theorem tokenize_listText_rewritten {ts : List Token}
    (h : ∀ t ∈ ts, t.Printable ∨ t = .number (infinity false)) :
    tokenize (listText ts) = .ok (ts.map rewritten) := by
  have htext : listText ts = listText (ts.map rewritten) := by
    rw [listText, listText, List.map_map]
    exact congrArg spaced (List.map_congr_left fun t _ => (text_rewritten t).symm)
  rw [htext]
  refine tokenize_listText fun t ht => ?_
  obtain ⟨s, hs, rfl⟩ := List.mem_map.1 ht
  rcases h s hs with hprintable | rfl
  · rw [rewritten_eq_self hprintable]
    exact hprintable
  · rw [rewritten_infinity]
    show isWord _ = true
    decide

/-- **Reading undoes writing**, for the lists of tokens that can be written and for no others. So
the tokens of a text are read again from their own text, if its numbers are finite. -/
theorem listText_reads_back :
    (∀ ts : List Token, tokenize (listText ts) = .ok ts ↔ ∀ t ∈ ts, t.Printable) ∧
    ∀ (t : Text) (ts : List Token), tokenize t = .ok ts →
      (∀ x, .number x ∈ ts → x.isFinite = true) → tokenize (listText ts) = tokenize t := by
  constructor
  · intro ts
    constructor
    · intro h t ht
      have hkind := printable_or_infinity h
      rcases hkind t ht with hprintable | rfl
      · exact hprintable
      · -- An infinity is read from no text that an infinity is written as.
        have hsame : ts = ts.map rewritten :=
          Except.ok.inj (h.symm.trans (tokenize_listText_rewritten hkind))
        rw [hsame] at ht
        obtain ⟨s, -, hs⟩ := List.mem_map.1 ht
        exact absurd hs (rewritten_ne_infinity s)
    · exact tokenize_listText
  · intro t ts h hfinite
    rw [tokenize_listText (printable_of_tokenize h hfinite), h]

/-- The numeral is written without its exponent and its bare point, and is the same number. -/
theorem listText_reads_back_numeral :
    tokenize "-.5e3f(1,0.1)".toList =
      .ok [.operator .sub, .number 500, .name "f", .openParen, .number 1, .comma, .number 0.1,
        .closeParen] ∧
    listText [.operator .sub, .number 500, .name "f", .openParen, .number 1, .comma, .number 0.1,
      .closeParen] = "- 500 f ( 1 , 0.1 )".toList ∧
    tokenize "- 500 f ( 1 , 0.1 )".toList = tokenize "-.5e3f(1,0.1)".toList := by
  have hread : tokenize "-.5e3f(1,0.1)".toList =
      .ok [.operator .sub, .number 500, .name "f", .openParen, .number 1, .comma, .number 0.1,
        .closeParen] := eq_ok_of_toOption (by decide +kernel)
  have htext : listText [.operator .sub, .number 500, .name "f", .openParen, .number 1, .comma,
      .number 0.1, .closeParen] = "- 500 f ( 1 , 0.1 )".toList := by decide +kernel
  refine ⟨hread, htext, ?_⟩
  rw [← htext]
  refine listText_reads_back.2 _ _ hread fun x hx => ?_
  simp only [List.mem_cons, Token.number.injEq, reduceCtorEq, List.not_mem_nil, or_false,
    false_or] at hx
  rcases hx with rfl | rfl | rfl <;> decide +kernel

end Token

end DeskCalc
