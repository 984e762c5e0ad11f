import DeskCalc.Answer
import DeskCalc.Proofs.Number.ReadBack
import DeskCalc.Proofs.Text.LetterCase
import DeskCalc.Proofs.Token.Scan

/-!
# Tokens of written numbers

The text of a finite double is one number token, whatever comes after it unless that goes on with
the number. So the text that stands for the last answer is read as its value, in parentheses if it
is negative.

* `scanNumber_text`: the text of a number of parts is one number.
* `tokenize_literal_append`: the text of a last answer is read as its tokens.
-/

namespace DeskCalc

open Text Binary64 Decimal

namespace Token

theorem isWordChar_of_isDigit {c : Char} (h : c.isDigit = true) : isWordChar c = true := by
  simp [isWordChar, Char.isAlphanum, h]

/-- Whether a number can go on with the character, behind digits and a point at most. -/
def goesOn (c : Char) : Bool :=
  isWordChar c || c == '.'

theorem goesOn_iff {c : Char} : goesOn c = true ↔ c.isAlphanum = true ∨ c = '_' ∨ c = '.' := by
  rw [goesOn, isWordChar, Bool.or_eq_true, Bool.or_eq_true, beq_iff_eq, beq_iff_eq, or_assoc]

theorem goesOn_of_isWordChar {c : Char} (h : isWordChar c = true) : goesOn c = true := by
  rw [goesOn, h, Bool.true_or]

theorem goesOn_of_isMantissaChar {c : Char} (h : isMantissaChar c = true) : goesOn c = true := by
  rw [isMantissaChar, Bool.or_eq_true] at h
  rw [goesOn, Bool.or_eq_true]
  exact h.imp_left isWordChar_of_isDigit

/-- A character of a word is no symbol. -/
theorem ofSymbol?_of_isWordChar {c : Char} (h : isWordChar c = true) : ofSymbol? c = none := by
  unfold ofSymbol?
  split
  iterate 8 exact absurd h (by decide)
  rfl

/-- No word starts with a digit or a point. -/
theorem isMantissaChar_of_startsWord {c : Char} (h : startsWord c = true) :
    isMantissaChar c = false := by
  have hcode : (65 ≤ c.toNat ∧ c.toNat ≤ 90 ∨ 97 ≤ c.toNat ∧ c.toNat ≤ 122) ∨ c.toNat = 95 := by
    rw [startsWord, Bool.or_eq_true, isAlpha_iff, beq_iff_eq] at h
    exact h.imp_right fun hc => congrArg Char.toNat hc
  rw [← Bool.not_eq_true, isMantissaChar, Bool.or_eq_true, isDigit_iff, beq_iff_eq]
  rintro (hdigit | rfl)
  · omega
  · cases h

theorem scan_digit {c : Char} (h : c.isDigit = true) (t : Text) :
    scan c t = ((scanNumber (c :: t)).1.map some, (scanNumber (c :: t)).2) := by
  have hwordChar := isWordChar_of_isDigit h
  have hnumber : isMantissaChar c = true := by
    rw [isMantissaChar, h, Bool.true_or]
  have hword : startsWord c = false := by
    rw [← Bool.not_eq_true]
    intro hstarts
    rw [isMantissaChar_of_startsWord hstarts] at hnumber
    cases hnumber
  exact scan_number (isBlank_of_isWordChar hwordChar) (ofSymbol?_of_isWordChar hwordChar) hword
    hnumber t

theorem tokenize_symbol {c : Char} {token : Token} (hblank : isBlank c = false)
    (hsymbol : ofSymbol? c = some token) (t : Text) :
    tokenize (c :: t) = (tokenize t).map (token :: ·) := by
  rw [tokenize_cons, scan_symbol hblank hsymbol]
  cases tokenize t <;> rfl

/-- There is no exponent where its letter does not stand. -/
theorem splitExponent_of_head {digit : Char → Bool} {t : Text}
    (h : t.head?.any (fun c => c == 'e' || c == 'E') = false) :
    splitExponent digit t = ([], t) := by
  cases t with
  | nil => rfl
  | cons c t =>
      have hletter : (c == 'e' || c == 'E') = false := h
      simp only [splitExponent, hletter, Bool.false_and, Bool.false_eq_true, if_false]

/-- The text of a number of parts is made of digits and a point. -/
theorem isMantissaChar_of_mem_text {parts : Nat} {c : Char} (h : c ∈ Decimal.text parts) :
    isMantissaChar c = true := by
  obtain ⟨whole, fraction, htext, -, hwhole, hfraction, -, -⟩ := exists_digits parts
  rw [htext] at h
  rw [isMantissaChar, Bool.or_eq_true, beq_iff_eq]
  rcases List.mem_append.1 h with h | h
  · exact .inl (hwhole c h)
  · cases fraction with
    | nil => cases h
    | cons d digits =>
        rcases List.mem_cons.1 h with h | h
        · exact .inr h
        · exact .inl (hfraction c h)

/-- **The text of a number of parts is one number**, where nothing goes on with it. -/
theorem scanNumber_text (parts : Nat) {t : Text} (ht : t.head?.any goesOn = false) :
    scanNumber (Decimal.text parts ++ t) =
      (.ok (.number (ofRank false (nearest parts one))), t) := by
  have hnone : ∀ p : Char → Bool, (∀ c, p c = true → goesOn c = true) → t.head?.any p = false := by
    intro p hp
    cases t with
    | nil => rfl
    | cons c t =>
        have hc : ¬ goesOn c = true := by simpa using ht
        simpa using mt (hp c) hc
  have hmantissa := hnone isMantissaChar fun c => goesOn_of_isMantissaChar
  have hletter := hnone (fun c => c == 'e' || c == 'E') fun c hc => by
    rw [Bool.or_eq_true, beq_iff_eq, beq_iff_eq] at hc
    rcases hc with rfl | rfl <;> rfl
  obtain ⟨whole, fraction, htext, hne, hwhole, hfraction, -, -⟩ := exists_digits parts
  have hrun : ∀ c ∈ Decimal.text parts, isMantissaChar c = true :=
    fun c => isMantissaChar_of_mem_text
  -- One point at most, and a digit before it.
  have hisMantissa : isMantissa (Decimal.text parts) = true := by
    have hnopoint : ∀ u : Text, (∀ c ∈ u, c.isDigit = true) → u.count '.' = 0 := by
      intro u hu
      rw [List.count_eq_zero]
      intro hpoint
      cases hu '.' hpoint
    rw [isMantissa, htext, Bool.and_eq_true, decide_eq_true_eq, List.count_append,
      hnopoint whole hwhole, List.any_append, Bool.or_eq_true]
    constructor
    · cases fraction with
      | nil => exact Nat.zero_le 1
      | cons d digits =>
          have hpoint : List.count '.' (behindPoint (d :: digits)) = 1 := by
            rw [behindPoint, List.count_cons_self, hnopoint _ hfraction]
            exact fun h => by cases h
          omega
    · obtain ⟨c, u, rfl⟩ := List.exists_cons_of_ne_nil hne
      exact .inl (List.any_eq_true.2 ⟨c, List.mem_cons_self, hwhole c List.mem_cons_self⟩)
  simp only [scanNumber, takeWhile_run hrun hmantissa, dropWhile_run hrun hmantissa,
    splitExponent_of_head hletter, hisMantissa, if_true]
  rw [exponentValue, read_text]

theorem tokenize_text_append (parts : Nat) {t : Text} (ht : t.head?.any goesOn = false) :
    tokenize (Decimal.text parts ++ t) =
      (tokenize t).map (.number (ofRank false (nearest parts one)) :: ·) := by
  have hscan := scanNumber_text parts ht
  obtain ⟨whole, fraction, htext, hne, hwhole, -, -, -⟩ := exists_digits parts
  obtain ⟨c, u, rfl⟩ := List.exists_cons_of_ne_nil hne
  rw [htext] at hscan ⊢
  rw [List.cons_append, List.cons_append] at hscan ⊢
  rw [tokenize_cons, scan_digit (hwhole c List.mem_cons_self), hscan]
  cases tokenize t <;> rfl

end Token

namespace Answer

open Token

/-- The tokens that stand for a value: its magnitude, behind a minus sign and in parentheses if it
is negative. -/
def tokens (v : Float) : List Token :=
  if v < 0 then [.openParen, .operator .sub, .number v.abs, .closeParen] else [.number v.abs]

theorem literal_none : literal none = Decimal.text (shortest (rank 0)) := by
  have hzero : rank 0 = 0 := rfl
  rw [hzero, text_shortest_zero]
  rfl

theorem literal_some {v : Float} (h : v.isFinite = true) :
    literal (some v) =
      if v < 0 then '(' :: '-' :: Decimal.text (shortest (rank v)) ++ [')']
      else Decimal.text (shortest (rank v)) := by
  rw [literal, display_eq h]
  by_cases hneg : v < 0
  · rw [if_pos hneg, if_pos hneg, if_pos hneg]
  · rw [if_neg hneg, if_neg hneg, if_neg hneg]

/-- The text of a last answer is the decimal of its magnitude. Without a last answer it is that of
zero. -/
theorem literal_eq {answer : Option Float} (hfinite : ∀ v, answer = some v → v.isFinite = true) :
    literal answer =
      if answer.getD 0 < 0 then
        '(' :: '-' :: Decimal.text (shortest (rank (answer.getD 0))) ++ [')']
      else Decimal.text (shortest (rank (answer.getD 0))) := by
  have hneg : ¬ (0 : Float) < 0 := by decide +kernel
  cases answer with
  | none => rw [Option.getD_none, if_neg hneg, literal_none]
  | some v => exact literal_some (hfinite v rfl)

/-- **The text of a last answer is read as its tokens**, where nothing goes on with it. -/
theorem tokenize_literal_append {answer : Option Float}
    (hfinite : ∀ v, answer = some v → v.isFinite = true) {t : Text}
    (ht : t.head?.any goesOn = false) :
    tokenize (literal answer ++ t) = (tokenize t).map (tokens (answer.getD 0) ++ ·) := by
  have hvalue : (answer.getD 0).isFinite = true := by
    cases answer with
    | some v => exact hfinite v rfl
    | none => decide +kernel
  rw [literal_eq hfinite, tokens]
  generalize answer.getD 0 = v at hvalue ⊢
  have hnumber : ∀ u : Text, u.head?.any goesOn = false →
      tokenize (Decimal.text (shortest (rank v)) ++ u) = (tokenize u).map (.number v.abs :: ·) := by
    intro u hu
    rw [tokenize_text_append _ hu, nearest_shortest ((isFinite_iff v).1 hvalue),
      abs_eq_ofRank hvalue]
  by_cases hneg : v < 0
  · have hclose : (')' :: t).head?.any goesOn = false := rfl
    rw [if_pos hneg, if_pos hneg, List.append_assoc, List.cons_append, List.cons_append,
      tokenize_symbol rfl rfl, tokenize_symbol rfl rfl, List.singleton_append,
      hnumber _ hclose, tokenize_symbol rfl rfl]
    generalize v.abs = m
    cases tokenize t <;> rfl
  · rw [if_neg hneg, if_neg hneg, hnumber t ht]
    generalize v.abs = m
    rfl

end Answer

end DeskCalc
