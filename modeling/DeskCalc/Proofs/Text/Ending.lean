import DeskCalc.Answer
import DeskCalc.Proofs.Text.LetterCase
import DeskCalc.Proofs.Text.Numeral

/-!
# How a text ends

Whether a text ends in a value is a matter of its last character that is no blank. Of two texts in a
row it is the second that decides, unless it is blank, so a pass over a text can be followed piece
by piece.

* `lastSolid`, `getLast?_trimEnd`: the last character that is no blank.
* `ending`, `ending_append`: whether it can end a value.
* `endsInValue_iff`: the test of the text that is being typed.
-/

namespace DeskCalc

namespace Text

/-- The last character that is no blank. -/
def lastSolid : Text → Option Char
  | [] => none
  | c :: t => (lastSolid t).or (if isBlank c then none else some c)

theorem lastSolid_append (t u : Text) : lastSolid (t ++ u) = (lastSolid u).or (lastSolid t) := by
  induction t with
  | nil => rw [List.nil_append, lastSolid, Option.or_none]
  | cons c t ih => rw [List.cons_append, lastSolid, ih, Option.or_assoc, lastSolid]

/-- It is what a text without its trailing blanks ends in. -/
theorem getLast?_trimEnd (t : Text) : (trimEnd t).getLast? = lastSolid t := by
  rw [trimEnd, List.getLast?_reverse]
  induction t with
  | nil => rfl
  | cons c t ih =>
      rw [List.reverse_cons, List.dropWhile_append, lastSolid, ← ih]
      cases hrest : t.reverse.dropWhile isBlank with
      | nil =>
          rw [List.isEmpty_nil, if_pos rfl, List.head?_nil, Option.none_or, List.dropWhile_cons]
          cases isBlank c <;> rfl
      | cons d rest => rfl

/-- Whether a value can end in the character. -/
def isValueEnd (c : Char) : Bool :=
  c.isAlphanum || ['_', '.', ')', '%'].contains c

/-- Whether a value can end in the last character that is no blank; nothing for a blank text. -/
def ending (t : Text) : Option Bool :=
  (lastSolid t).map isValueEnd

theorem ending_append (t u : Text) : ending (t ++ u) = (ending u).or (ending t) := by
  rw [ending, lastSolid_append, Option.map_or]
  rfl

theorem ending_cons (c : Char) (t : Text) : ending (c :: t) = (ending t).or (ending [c]) :=
  ending_append [c] t

/-- A text that ends in such a character ends in a value. -/
theorem ending_concat {t : Text} {c : Char} (hblank : isBlank c = false) :
    ending (t ++ [c]) = some (isValueEnd c) := by
  rw [ending_append, ending, lastSolid, lastSolid, hblank]
  rfl

theorem isValueEnd_toLower (c : Char) : isValueEnd c.toLower = isValueEnd c := by
  simp only [isValueEnd, isAlphanum_toLower, List.contains_cons, toLower_beq (x := '_') rfl,
    toLower_beq (x := '.') rfl, toLower_beq (x := ')') rfl, toLower_beq (x := '%') rfl]
  rfl

/-- How a text ends is not a matter of case. -/
theorem ending_lower (t : Text) : ending (lower t) = ending t := by
  induction t with
  | nil => rfl
  | cons c t ih =>
      have hone : ending [c.toLower] = ending [c] := by
        simp only [ending, lastSolid, isBlank_toLower]
        cases isBlank c with
        | true => rfl
        | false => exact congrArg some (isValueEnd_toLower c)
      show ending (c.toLower :: lower t) = _
      rw [ending_cons, ih, hone, ← ending_cons]

end Text

open Text

/-- The test of what is being typed asks for such an ending. -/
theorem Answer.endsInValue_iff (t : Text) : endsInValue t = true ↔ ending t = some true := by
  rw [endsInValue, getLast?_trimEnd, ending]
  cases lastSolid t with
  | none => simp
  | some c => simp [isValueEnd]

end DeskCalc
