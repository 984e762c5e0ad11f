import DeskCalc.Proofs.Session.Replay

/-!
# Texts that read alike

Two texts can differ in their canonical notation and still give the same value, with the same
tokens, items and tree. What it takes is told once, stage by stage: the first check that refuses one
of them refuses the other, and what is behind admission calculates alike. Why a calculation fails
does not matter, for all its faults are one class.

* `Outcome.reading`: an outcome without its canonical text.
* `ReadAlike`: two texts that are read alike, stage by stage.
* `ReadAlike.compute_eq`, `ReadAlike.evaluate_eq`: they have the same reading, and leave the same
  session.
-/

namespace DeskCalc

open Text

/-- The value of an outcome and the texts of its tokens, items and tree. -/
def Outcome.reading (outcome : Outcome) : Float × Text × Text × Text :=
  (outcome.value, outcome.trace.tokens, outcome.trace.items, outcome.trace.tree)

/-- Two texts that pass the same checks, and of which the calculation is the same if they pass all
of them. -/
structure ReadAlike (settings : Settings) (answer : Option Float) (raw raw' : Text) : Prop where
  blank : raw.trim.isEmpty = raw'.trim.isEmpty
  length : settings.maxLength < (canonical raw).length ↔
    settings.maxLength < (canonical raw').length
  characters : admitCharacters (canonical raw) = admitCharacters (canonical raw')
  numbers : admitCharacters (canonical raw) = .ok () →
    admitNumbers (canonical raw) = admitNumbers (canonical raw')
  calculation : admitCharacters (canonical raw) = .ok () →
    (calculate settings.maxHeight
        (Answer.substitute (Answer.literal answer) (canonical raw))).toOption =
      (calculate settings.maxHeight
        (Answer.substitute (Answer.literal answer) (canonical raw'))).toOption

namespace ReadAlike

variable {settings : Settings} {answer : Option Float} {raw raw' : Text}

/-- Texts that read alike are admitted or refused alike. -/
theorem admittedText_cases (h : ReadAlike settings answer raw raw') :
    (∃ refusal, admittedText settings raw = .error refusal ∧
      admittedText settings raw' = .error refusal) ∨
    (admittedText settings raw = .ok (canonical raw) ∧
      admittedText settings raw' = .ok (canonical raw') ∧
      admitCharacters (canonical raw) = .ok ()) := by
  rw [admittedText, admittedText, ← h.blank]
  by_cases hblank : raw.trim.isEmpty = true
  · rw [if_pos hblank, if_pos hblank]
    exact .inl ⟨_, rfl, rfl⟩
  by_cases hlong : settings.maxLength < (canonical raw).length
  · simp only [hblank, hlong, h.length.1 hlong, Bool.false_eq_true, if_true, if_false]
    exact .inl ⟨_, rfl, rfl⟩
  have hlong' : ¬ settings.maxLength < (canonical raw').length := mt h.length.2 hlong
  simp only [hblank, hlong, hlong', Bool.false_eq_true, if_false, ← h.characters]
  cases hcharacters : admitCharacters (canonical raw) with
  | error refusal => exact .inl ⟨refusal, rfl, rfl⟩
  | ok admitted =>
      rw [← h.numbers hcharacters]
      cases admitNumbers (canonical raw) with
      | error refusal => exact .inl ⟨refusal, rfl, rfl⟩
      | ok admitted' => exact .inr ⟨rfl, rfl, rfl⟩

/-- **Texts that read alike have the same reading**, or are refused alike. -/
theorem compute_eq (h : ReadAlike settings answer raw raw') :
    (compute settings answer raw).map Outcome.reading =
      (compute settings answer raw').map Outcome.reading := by
  rcases h.admittedText_cases with ⟨refusal, htext, htext'⟩ | ⟨htext, htext', hcharacters⟩
  · rw [compute, compute, htext, htext']
  · have hcalculation := h.calculation hcharacters
    rw [compute, compute, htext, htext']
    dsimp only [bind, Except.bind]
    cases hc : calculate settings.maxHeight
        (Answer.substitute (Answer.literal answer) (canonical raw)) with
    | error fault =>
        cases hc' : calculate settings.maxHeight
            (Answer.substitute (Answer.literal answer) (canonical raw')) with
        | error fault' => rfl
        | ok c' =>
            rw [hc, hc'] at hcalculation
            cases hcalculation
    | ok c =>
        rw [hc, eq_comm] at hcalculation
        rw [eq_ok_of_toOption hcalculation]
        by_cases hfinite : c.value.isFinite = true
        · simp only [hfinite, if_true]
          rfl
        · simp only [hfinite, Bool.false_eq_true, if_false]

/-- **Texts that read alike are evaluated alike**, and leave the same session. -/
theorem evaluate_eq {s : Session} (h : ReadAlike s.settings s.answer raw raw') :
    (s.evaluate raw).1.map Outcome.reading = (s.evaluate raw').1.map Outcome.reading ∧
      (s.evaluate raw).2 = (s.evaluate raw').2 := by
  have hcompute := h.compute_eq
  rw [Session.evaluate, Session.evaluate]
  cases hraw : compute s.settings s.answer raw with
  | error refusal =>
      cases hraw' : compute s.settings s.answer raw' with
      | error refusal' =>
          rw [hraw, hraw'] at hcompute
          exact ⟨hcompute, rfl⟩
      | ok outcome' =>
          rw [hraw, hraw'] at hcompute
          cases hcompute
  | ok outcome =>
      cases hraw' : compute s.settings s.answer raw' with
      | error refusal' =>
          rw [hraw, hraw'] at hcompute
          cases hcompute
      | ok outcome' =>
          rw [hraw, hraw'] at hcompute
          have hvalue : outcome.value = outcome'.value := congrArg Prod.fst (Except.ok.inj hcompute)
          refine ⟨hcompute, ?_⟩
          show ({ s with answer := some outcome.value } : Session) = _
          rw [hvalue]

end ReadAlike

end DeskCalc
