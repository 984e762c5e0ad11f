import DeskCalc.Proofs.Postfix.Renaming
import DeskCalc.Proofs.Token.Literal

/-!
# Tokens and letter case

The tokenizer does not look at the case of a letter either. The letter of an exponent may have any,
and the case of a word goes into its name and nowhere else. So a text in lower case has the same
tokens with their names in lower case, and it cannot be read if the text cannot.

* `lowerName`: the name in lower case.
* `exponentValue_lower`, `scanNumber_lower`: a number has the same value.
* `scan_lower`: one step.
* `tokenize_lower`: all steps.
-/

namespace DeskCalc

open Text

namespace Token

/-- The name with its letters in lower case. -/
def lowerName (name : String) : String :=
  String.ofList (lower name.toList)

/-! ## Characters -/

theorem isMantissaChar_toLower (c : Char) : isMantissaChar c.toLower = isMantissaChar c := by
  rw [isMantissaChar, isDigit_toLower, toLower_beq rfl]
  rfl

theorem ofSymbol?_toLower (c : Char) : ofSymbol? c.toLower = ofSymbol? c := by
  cases hletter : c.isAlpha with
  | false => rw [(toLower_eq_iff hletter).2 rfl]
  | true =>
      have hnone : ∀ x : Char, x.isAlpha = true → ofSymbol? x = none := fun x hx =>
        ofSymbol?_of_isWordChar (by rw [isWordChar, Char.isAlphanum, hx]; rfl)
      rw [hnone c hletter, hnone c.toLower ((isAlpha_toLower c).trans hletter)]

theorem isAlpha_of_isMantissaChar {c : Char} (h : isMantissaChar c = true) : c.isAlpha = false := by
  rw [← Bool.not_eq_true]
  intro hletter
  rw [isMantissaChar_of_startsWord (by rw [startsWord, hletter, Bool.true_or])] at h
  cases h

/-! ## Numbers -/

/-- The value of an exponent does not depend on its letter. -/
theorem exponentValue_cons (e e' : Char) (t : Text) :
    exponentValue (e :: t) = exponentValue (e' :: t) := by
  cases t with
  | nil => rfl
  | cons c t =>
      by_cases hminus : c = '-'
      · subst hminus
        rfl
      · by_cases hplus : c = '+'
        · subst hplus
          rfl
        · simp [exponentValue, hminus, hplus]

/-- An exponent has no letter but its first. -/
theorem exponentValue_lower (t : Text) :
    exponentValue (lower (splitExponent Char.isDigit t).1) =
      exponentValue (splitExponent Char.isDigit t).1 := by
  cases t with
  | nil => rfl
  | cons c t =>
      have hself : lower ((splitSign t).1 ++ (splitSign t).2.takeWhile Char.isDigit) =
          (splitSign t).1 ++ (splitSign t).2.takeWhile Char.isDigit := by
        refine lower_eq_self fun x hx => ?_
        rcases List.mem_append.1 hx with hsign | hdigits
        · rcases mem_splitSign hsign with rfl | rfl <;> rfl
        · exact isAlpha_of_isMantissaChar
            (by rw [isMantissaChar, of_mem_takeWhile hdigits, Bool.true_or])
      simp only [splitExponent]
      split
      · show exponentValue (c.toLower :: lower (_ ++ _)) = exponentValue (c :: (_ ++ _))
        rw [hself]
        exact exponentValue_cons _ _ _
      · rfl

/-- **A number is read alike in lower case.** What is no number is refused, with another text. -/
theorem scanNumber_lower (t : Text) :
    (scanNumber (lower t)).1.toOption = (scanNumber t).1.toOption.map (rename lowerName) ∧
      (scanNumber (lower t)).2 = lower (scanNumber t).2 := by
  have hrun : lower (t.takeWhile isMantissaChar) = t.takeWhile isMantissaChar :=
    lower_eq_self fun c hc => isAlpha_of_isMantissaChar (of_mem_takeWhile hc)
  simp only [scanNumber, takeWhile_lower isMantissaChar_toLower,
    dropWhile_lower isMantissaChar_toLower, splitExponent_lower isDigit_toLower,
    exponentValue_lower, hrun]
  cases isMantissa (t.takeWhile isMantissaChar) <;> exact ⟨rfl, rfl⟩

/-! ## Steps -/

/-- **A step reads the same in lower case**: the same token with its name in lower case. -/
theorem scan_lower (c : Char) (t : Text) :
    (scan c.toLower (lower t)).1.toOption =
      (scan c t).1.toOption.map (Option.map (rename lowerName)) ∧
      (scan c.toLower (lower t)).2 = lower (scan c t).2 := by
  have hscans := scans c t
  generalize (scan c t).1 = found at hscans ⊢
  generalize scanned c t = u at hscans
  generalize (scan c t).2 = rest at hscans ⊢
  cases hscans with
  | blank hblank =>
      rw [scan, isBlank_toLower, if_pos hblank]
      exact ⟨rfl, rfl⟩
  | symbol hblank hsymbol =>
      rw [scan_symbol ((isBlank_toLower c).trans hblank) ((ofSymbol?_toLower c).trans hsymbol)]
      cases isSymbol hsymbol <;> exact ⟨rfl, rfl⟩
  | word hblank hsymbol hword =>
      rw [scan_word ((isBlank_toLower c).trans hblank) ((ofSymbol?_toLower c).trans hsymbol)
        ((startsWord_toLower c).trans hword), takeWhile_lower isWordChar_toLower,
        dropWhile_lower isWordChar_toLower]
      refine ⟨?_, rfl⟩
      show some (some (Token.name _)) = some (some (Token.name _))
      rw [lowerName, String.toList_ofList]
      rfl
  | number hblank hsymbol hword hnumber =>
      have hsome : ∀ r : Except Fault Token, (r.map some).toOption = r.toOption.map some := by
        intro r
        cases r <;> rfl
      obtain ⟨hvalue, hrest⟩ := scanNumber_lower (c :: t)
      rw [scan_number ((isBlank_toLower c).trans hblank) ((ofSymbol?_toLower c).trans hsymbol)
        ((startsWord_toLower c).trans hword) ((isMantissaChar_toLower c).trans hnumber)]
      refine ⟨?_, hrest⟩
      change (scanNumber (c.toLower :: lower t)).1.toOption = _ at hvalue
      rw [hsome, hsome, hvalue, Option.map_map, Option.map_map]
      rfl
  | unexpected hblank hsymbol hword hnumber =>
      rw [scan_unexpected ((isBlank_toLower c).trans hblank) ((ofSymbol?_toLower c).trans hsymbol)
        ((startsWord_toLower c).trans hword) ((isMantissaChar_toLower c).trans hnumber)]
      exact ⟨rfl, rfl⟩

/-- **A text in lower case has the same tokens with their names in lower case**, or cannot be read
either. -/
theorem tokenize_lower (t : Text) :
    (tokenize (lower t)).toOption = (tokenize t).toOption.map (List.map (rename lowerName)) := by
  induction t using scan_induction with
  | nil =>
      rw [show lower [] = [] from rfl, tokenize]
      rfl
  | step c t ih =>
      obtain ⟨hfound, hrest⟩ := scan_lower c t
      rw [show lower (c :: t) = c.toLower :: lower t from rfl, tokenize_cons, tokenize_cons, hrest,
        toOption_bind, toOption_bind, hfound]
      cases (scan c t).1.toOption with
      | none => rfl
      | some token? =>
          simp only [Option.map_some, Option.bind_some, toOption_bind, ih]
          cases (tokenize (scan c t).2).toOption with
          | none => rfl
          | some ts => cases token? <;> rfl

end Token

end DeskCalc
