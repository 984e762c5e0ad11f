import DeskCalc.Proofs.Expr.Height
import DeskCalc.Proofs.Session.Run
import DeskCalc.Proofs.Token.Scan

/-!
# What the limits do

The limits of height and length guard against large input, and that is all they do. A computation
under tighter limits takes the same steps as under wider ones until a limit stops it, and what it is
stopped with is in one class with every other diagnosis. So a limit can turn a result into that
refusal, but never into another result, nor a refusal of another class into a third.

* `calculate_tightened`, `admittedText_tightened`, `compute_tightened`: the stages of an evaluation.
* `Session.evaluate_limits`: an evaluation.
-/

namespace DeskCalc

/-! ## The limit of height -/

theorem calculate_tightened {tight wide : Nat} (h : tight ≤ wide) (source : Text) :
    Tightened (.tooDeep tight) (calculate tight source) (calculate wide source) := by
  rw [calculate, calculate]
  refine (Tightened.refl (tokenize source)).bind fun tokens => ?_
  refine (Tightened.refl (toPostfix tokens)).bind fun items => ?_
  exact (Expr.ofPostfix_tightened h items).bind fun tree => .refl _

/-! ## The limit of length -/

section
variable {tight wide : Settings} (hlength : tight.maxLength ≤ wide.maxLength)
include hlength

/-- The length is measured before anything is refused as not admitted. -/
theorem admittedText_tightened (raw : Text) :
    Tightened .badExpression (admittedText tight raw) (admittedText wide raw) := by
  rw [admittedText, admittedText]
  by_cases hblank : raw.trim.isEmpty = true
  · rw [if_pos hblank, if_pos hblank]
    exact .refl _
  · rw [if_neg hblank, if_neg hblank]
    by_cases hlong : tight.maxLength < (canonical raw).length
    · right
      exact if_pos hlong
    · have hwide : ¬ wide.maxLength < (canonical raw).length := by omega
      left
      simp only [hlong, hwide, if_false]

/-- **An evaluation under tighter limits** has the same outcome, or it is refused as every bad
expression is. -/
theorem compute_tightened (hheight : tight.maxHeight ≤ wide.maxHeight)
    (hdecimals : tight.decimals = wide.decimals) (answer : Option Float) (raw : Text) :
    Tightened .badExpression (compute tight answer raw) (compute wide answer raw) := by
  rw [compute, compute]
  refine (admittedText_tightened hlength raw).bind fun text => ?_
  dsimp only
  rcases calculate_tightened hheight (Answer.substitute (Answer.literal answer) text) with
    hsame | hdeep
  · left
    rw [hsame, hdecimals]
  · right
    rw [hdeep]
    rfl

end

namespace Session

/-- **The limits only refuse.** Of two sessions with the same last answer and the same decimal
places, the one with the tighter limits answers every text with the same outcome or the same refusal
as the other and keeps the same last answer, or it refuses the text as a bad expression and stays as
it was. -/
theorem evaluate_limits (tight wide : Settings) (hdecimals : tight.decimals = wide.decimals)
    (hheight : tight.maxHeight ≤ wide.maxHeight) (hlength : tight.maxLength ≤ wide.maxLength)
    (answer : Option Float) (raw : Text) :
    (((⟨tight, answer⟩ : Session).evaluate raw).1 = ((⟨wide, answer⟩ : Session).evaluate raw).1 ∧
      ((⟨tight, answer⟩ : Session).evaluate raw).2.answer =
        ((⟨wide, answer⟩ : Session).evaluate raw).2.answer) ∨
    (⟨tight, answer⟩ : Session).evaluate raw = (.error .badExpression, ⟨tight, answer⟩) := by
  simp only [evaluate]
  rcases compute_tightened hlength hheight hdecimals answer raw with hsame | hrefused
  · left
    rw [hsame]
    cases compute wide answer raw with
    | ok outcome => exact ⟨rfl, rfl⟩
    | error refusal => exact ⟨rfl, rfl⟩
  · right
    rw [hrefused]

/-- Three signs in a row are too high for a limit of three, and they are a value under the standard
limits. -/
theorem evaluate_limits_signs :
    ((⟨{ maxHeight := 3 }, none⟩ : Session).evaluate "---1".toList).1 = .error .badExpression ∧
      ∃ outcome, ((⟨.standard, none⟩ : Session).evaluate "---1".toList).1 = .ok outcome ∧
        outcome.value = -1 := by
  have hwide : ((⟨.standard, none⟩ : Session).evaluate "---1".toList).1 = .ok {
      value := -1
      trace := {
        canonical := "---1".toList
        tokens := "- - - 1".toList
        items := "1 neg neg neg".toList
        tree := "(-(-(-1)))".toList } } := eq_ok_of_toOption (by decide +kernel)
  have hother : ((⟨{ maxHeight := 3 }, none⟩ : Session).evaluate "---1".toList).1.toOption =
      none := by
    decide +kernel
  refine ⟨?_, _, hwide, rfl⟩
  obtain ⟨hsame, -⟩ | hrefused :=
    evaluate_limits { maxHeight := 3 } .standard rfl (by decide) (by decide) none "---1".toList
  · rw [hsame, hwide] at hother
    cases hother
  · exact congrArg Prod.fst hrefused

end Session

end DeskCalc
