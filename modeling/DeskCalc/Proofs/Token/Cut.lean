import DeskCalc.Proofs.Text.Stop
import DeskCalc.Proofs.Token.Names

/-!
# Reading a text in parts

A text can be cut where nothing goes on across a character: what stands before it is read as if
nothing came after, and reading goes on from there.

* `stops_of_ofSymbol?`: characters that part all texts.
* `scan_parts`: a step does not see beyond the character.
* `tokenize_parts`, `tokenize_stop`, `tokenize_detached`: the tokens of both parts.
-/

namespace DeskCalc

open Text

/-- Operators, parentheses and commas stop every scanner, but a sign can be that of an exponent. -/
theorem stops_of_ofSymbol? {c : Char} {token : Token} (h : Token.ofSymbol? c = some token)
    (hsign : ¬ (c = '+' ∨ c = '-')) (t : Text) : Stops c t := by
  have hgoes := Token.goesOn_of_ofSymbol? h
  rw [Token.goesOn, Bool.or_eq_false_iff, beq_eq_false_iff_ne] at hgoes
  exact ⟨Token.isDecimalDigit_of_ofSymbol? h, hgoes.1, hgoes.2, fun hc => absurd hc hsign⟩

namespace Token

theorem isMantissaChar_of_stops {c : Char} {u : Text} (h : Stops c u) :
    isMantissaChar c = false := by
  have hdigit : c.isDigit = false := by
    rw [← Bool.not_eq_true]
    intro hdigit
    have hnone := h.not_digit
    rw [isDecimalDigit_of_isDigit hdigit] at hnone
    cases hnone
  rw [isMantissaChar, hdigit, Bool.false_or, beq_eq_false_iff_ne]
  exact h.ne_point

theorem scanNumber_parts {d c : Char} {t u : Text} (hd : isMantissaChar d = true)
    (h : Parts (d :: t) c u) :
    scanNumber (d :: (t ++ c :: u)) =
      ((scanNumber (d :: t)).1, (scanNumber (d :: t)).2 ++ c :: u) := by
  have hmantissa := isMantissaChar_of_stops h.alone
  -- The letter of an exponent stands behind a digit or a point.
  have hletter : ∀ e, (d :: t).dropWhile isMantissaChar = [e] → e = 'e' ∨ e = 'E' → Stops c u := by
    intro e he
    obtain ⟨v, x, hv, hx⟩ := takeWhile_ends (p := isMantissaChar) (t := d :: t) (by simp [hd])
    have happend := List.takeWhile_append_dropWhile (p := isMantissaChar) (l := d :: t)
    rw [hv, he, List.append_assoc] at happend
    rw [isMantissaChar, Bool.or_eq_true, beq_iff_eq] at hx
    exact h.no_exponent v x e happend.symm (hx.imp_left isDecimalDigit_of_isDigit)
  have hexponent := splitExponent_parts (fun _ => isDecimalDigit_of_isDigit) h.alone hletter
  rw [← List.cons_append]
  simp only [scanNumber, takeWhile_stop hmantissa, dropWhile_stop hmantissa, hexponent]
  split <;> rfl

/-- A step in front of a character that parts two texts does not see beyond it. -/
theorem scan_parts {d c : Char} {t u : Text} (h : Parts (d :: t) c u) :
    scan d (t ++ c :: u) = ((scan d t).1, (scan d t).2 ++ c :: u) := by
  have hnot := h.alone.not_wordChar
  simp only [scan, takeWhile_stop hnot, dropWhile_stop hnot]
  split
  · rfl
  · split
    · rfl
    · split
      · rfl
      · split
        · rename_i hd
          rw [scanNumber_parts hd h]
        · rfl

/-- **A text is read in two parts** where a character parts them. -/
theorem tokenize_parts {c : Char} {t u : Text} (h : Parts t c u) :
    tokenize (t ++ c :: u) = do
      let ts ← tokenize t
      let us ← tokenize (c :: u)
      return ts ++ us := by
  induction t using scan_induction with
  | nil =>
      rw [List.nil_append, tokenize]
      cases tokenize (c :: u) <;> rfl
  | step d t ih =>
      have hrest : Parts (scan d t).2 c u := by
        rw [← (scans d t).append.2] at h
        exact h.of_append
      rw [List.cons_append, tokenize_cons, scan_parts h, tokenize_cons, ih hrest]
      cases (scan d t).1 with
      | error fault => rfl
      | ok token? =>
          cases tokenize (scan d t).2 with
          | error fault => rfl
          | ok ts =>
              cases tokenize (c :: u) with
              | error fault => rfl
              | ok us =>
                  show Except.ok _ = Except.ok _
                  rw [List.append_assoc]

theorem tokenize_stop {c : Char} {u : Text} (h : Stops c u) (t : Text) :
    tokenize (t ++ c :: u) = do
      let ts ← tokenize t
      let us ← tokenize (c :: u)
      return ts ++ us :=
  tokenize_parts (h.parts t)

/-- A text and a detached one behind it are read one by one. -/
theorem tokenize_detached {t u : Text} (ht : expectsExponent t = false) (hu : Detached u) :
    tokenize (t ++ u) = do
      let ts ← tokenize t
      let us ← tokenize u
      return ts ++ us := by
  rcases hu.cases ht with rfl | ⟨c, v, rfl, hparts⟩
  · rw [List.append_nil, tokenize]
    cases tokenize t with
    | error fault => rfl
    | ok ts => exact congrArg Except.ok (List.append_nil ts).symm
  · exact tokenize_parts (hparts v)

end Token

end DeskCalc
