import DeskCalc.Proofs.Number.Stability
import DeskCalc.Session

/-!
# Runs of a session

A session answers one request after another. What a run does to the last answer is told in two ways:
`Updates` says for one request what becomes of it, given the reply, and `Settled` says for every
state of a run what kind of double it is.

* `compute_eq_ok`: what a success of `compute` comes from.
* `step_updates`, `Sound.step`: one request.
* `run_settled`: all states of all runs.
-/

namespace DeskCalc

open Binary64

/-- **A success has passed every stage**, and its value is finite before it is rounded. -/
theorem compute_eq_ok {settings : Settings} {answer : Option Float} {raw : Text}
    {outcome : Outcome} (h : compute settings answer raw = .ok outcome) :
    ∃ text c, admittedText settings raw = .ok text ∧
      calculate settings.maxHeight (Answer.substitute (Answer.literal answer) text) = .ok c ∧
      c.value.isFinite = true ∧
      outcome.value = roundTo settings.decimals c.value ∧
      outcome.trace = {
        canonical := text
        tokens := Token.listText c.tokens
        items := Item.listText c.items
        tree := c.tree.text } := by
  rw [compute] at h
  cases htext : admittedText settings raw with
  | error refusal =>
      rw [htext] at h
      cases h
  | ok text =>
      rw [htext] at h
      dsimp only [bind, Except.bind] at h
      split at h
      · cases h
      · rename_i c hc
        split at h
        · rename_i hfinite
          cases h
          exact ⟨text, c, rfl, hc, hfinite, rfl, rfl⟩
        · cases h

/-! ## Requests -/

/-- What a caller asks of a session. -/
inductive Request where
  | evaluate (raw : Text)
  | evaluateValue (raw : Text)
  | insertAnswer (buffer : Text)
  | setAnswer (v : Float)
  | clearAnswer

/-- What the caller gets. -/
inductive Reply where
  | outcome (result : Except Refusal Outcome)
  | value (result : Except Refusal Float)
  | buffer (t : Text)
  | done (result : Except Refusal Unit)

namespace Session

/-- The reply to a request and the session after it. -/
def step (s : Session) : Request → Reply × Session
  | .evaluate raw => (.outcome (s.evaluate raw).1, (s.evaluate raw).2)
  | .evaluateValue raw => (.value (s.evaluateValue raw).1, (s.evaluateValue raw).2)
  | .insertAnswer buffer => (.buffer (s.insertAnswer buffer), s)
  | .setAnswer v => (.done (s.setAnswer v).1, (s.setAnswer v).2)
  | .clearAnswer => (.done (.ok ()), s.clearAnswer)

/-- The session after some requests. -/
def run (s : Session) (requests : List Request) : Session :=
  requests.foldl (fun s request => (s.step request).2) s

/-- What becomes of the last answer: an evaluation that succeeds puts the value it returns in its
place, `setAnswer` the rounded value, and whatever is refused leaves it alone. -/
inductive Updates (places : Nat) (before : Option Float) : Request → Reply → Option Float → Prop
  | evaluated (raw : Text) (outcome : Outcome) :
      Updates places before (.evaluate raw) (.outcome (.ok outcome)) (some outcome.value)
  | refused (raw : Text) (refusal : Refusal) :
      Updates places before (.evaluate raw) (.outcome (.error refusal)) before
  | valued (raw : Text) (v : Float) :
      Updates places before (.evaluateValue raw) (.value (.ok v)) (some v)
  | valueRefused (raw : Text) (refusal : Refusal) :
      Updates places before (.evaluateValue raw) (.value (.error refusal)) before
  | inserted (buffer result : Text) :
      Updates places before (.insertAnswer buffer) (.buffer result) before
  | set (v : Float) :
      Updates places before (.setAnswer v) (.done (.ok ())) (some (roundTo places v))
  | setRefused (v : Float) (refusal : Refusal) :
      Updates places before (.setAnswer v) (.done (.error refusal)) before
  | cleared : Updates places before .clearAnswer (.done (.ok ())) none

/-- An evaluation succeeds and keeps its value, or is refused and keeps the session. -/
theorem evaluate_cases (s : Session) (raw : Text) :
    (∃ outcome, compute s.settings s.answer raw = .ok outcome ∧
      s.evaluate raw = (.ok outcome, { s with answer := some outcome.value })) ∨
    ∃ refusal, s.evaluate raw = (.error refusal, s) := by
  rw [evaluate]
  cases h : compute s.settings s.answer raw with
  | ok outcome => exact .inl ⟨outcome, rfl, rfl⟩
  | error refusal => exact .inr ⟨refusal, rfl⟩

theorem evaluate_of_compute {s : Session} {raw : Text} {outcome : Outcome}
    (h : compute s.settings s.answer raw = .ok outcome) :
    s.evaluate raw = (.ok outcome, { s with answer := some outcome.value }) := by
  rw [evaluate, h]

/-- A finite value is kept, rounded, and any other one is refused and keeps the session. -/
theorem setAnswer_cases (s : Session) (v : Float) :
    (v.isFinite = true ∧
      s.setAnswer v = (.ok (), { s with answer := some (roundTo s.settings.decimals v) })) ∨
    s.setAnswer v = (.error .nonFiniteResult, s) := by
  rw [setAnswer]
  by_cases h : v.isFinite = true
  · exact .inl ⟨h, if_pos h⟩
  · exact .inr (if_neg h)

/-- **Every request updates the last answer as it should**, and leaves the settings alone. -/
theorem step_updates (s : Session) (request : Request) :
    Updates s.settings.decimals s.answer request (s.step request).1 (s.step request).2.answer ∧
      (s.step request).2.settings = s.settings := by
  cases request with
  | evaluate raw =>
      rw [step]
      obtain ⟨outcome, -, h⟩ | ⟨refusal, h⟩ := s.evaluate_cases raw
      · rw [h]
        exact ⟨.evaluated raw outcome, rfl⟩
      · rw [h]
        exact ⟨.refused raw refusal, rfl⟩
  | evaluateValue raw =>
      rw [step, evaluateValue]
      obtain ⟨outcome, -, h⟩ | ⟨refusal, h⟩ := s.evaluate_cases raw
      · rw [h]
        exact ⟨.valued raw outcome.value, rfl⟩
      · rw [h]
        exact ⟨.valueRefused raw refusal, rfl⟩
  | insertAnswer buffer => exact ⟨.inserted buffer _, rfl⟩
  | setAnswer v =>
      rw [step]
      obtain ⟨-, h⟩ | h := s.setAnswer_cases v
      · rw [h]
        exact ⟨.set v, rfl⟩
      · rw [h]
        exact ⟨.setRefused v .nonFiniteResult, rfl⟩
  | clearAnswer => exact ⟨.cleared, rfl⟩

theorem settings_run (s : Session) (requests : List Request) :
    (s.run requests).settings = s.settings := by
  induction requests generalizing s with
  | nil => rfl
  | cons request requests ih => exact (ih _).trans (s.step_updates request).2

/-! ## The last answer -/

/-- What every last answer is: finite, not the negative zero, and rounded already. -/
structure Settled (places : Nat) (v : Float) : Prop where
  isFinite : v.isFinite = true
  ne_negative_zero : v ≠ ofRank true 0
  roundTo_eq : roundTo places v = v

theorem settled_roundTo (places : Nat) {x : Float} (h : x.isFinite = true) :
    Settled places (roundTo places x) where
  isFinite := isFinite_roundTo places h
  ne_negative_zero := roundTo_ne_negative_zero places h
  roundTo_eq := roundTo_roundTo_of_isFinite places h

/-- The last answer of the session, if there is one, is settled. -/
def Sound (s : Session) : Prop :=
  ∀ v, s.answer = some v → Settled s.settings.decimals v

theorem sound_new (settings : Settings) : (Session.new settings).Sound :=
  fun _ h => by cases h

/-- The value of a success is settled, whatever the last answer was. -/
theorem settled_of_compute_eq_ok {settings : Settings} {answer : Option Float} {raw : Text}
    {outcome : Outcome} (h : compute settings answer raw = .ok outcome) :
    Settled settings.decimals outcome.value := by
  obtain ⟨text, c, -, -, hfinite, hvalue, -⟩ := compute_eq_ok h
  rw [hvalue]
  exact settled_roundTo settings.decimals hfinite

/-- A request keeps the last answer settled. -/
theorem Sound.step {s : Session} (h : s.Sound) (request : Request) : (s.step request).2.Sound := by
  -- Both evaluations leave the same session.
  have hevaluate : ∀ raw, (s.evaluate raw).2.Sound := by
    intro raw
    obtain ⟨outcome, hcompute, heq⟩ | ⟨refusal, heq⟩ := s.evaluate_cases raw
    · rw [heq]
      intro v hv
      cases hv
      exact settled_of_compute_eq_ok hcompute
    · rw [heq]
      exact h
  cases request with
  | evaluate raw => exact hevaluate raw
  | evaluateValue raw => exact hevaluate raw
  | insertAnswer buffer => exact h
  | setAnswer v =>
      show (s.setAnswer v).2.Sound
      obtain ⟨hfinite, heq⟩ | heq := s.setAnswer_cases v
      · rw [heq]
        intro w hw
        cases hw
        exact settled_roundTo s.settings.decimals hfinite
      · rw [heq]
        exact h
  | clearAnswer => exact fun _ hv => by cases hv

theorem Sound.run {s : Session} (h : s.Sound) (requests : List Request) :
    (s.run requests).Sound := by
  induction requests generalizing s with
  | nil => exact h
  | cons request requests ih => exact ih (h.step request)

/-- **In every state of every run the last answer is settled**, and whatever is asked next puts the
returned or the rounded value in its place or leaves it alone. -/
theorem run_settled (settings : Settings) (requests : List Request) :
    (∀ v, ((Session.new settings).run requests).answer = some v → Settled settings.decimals v) ∧
      ∀ request, Updates settings.decimals ((Session.new settings).run requests).answer request
        (((Session.new settings).run requests).step request).1
        (((Session.new settings).run requests).step request).2.answer := by
  have hsettings := settings_run (Session.new settings) requests
  constructor
  · have hsound := (sound_new settings).run requests
    rw [Sound] at hsound
    rw [hsettings] at hsound
    exact hsound
  · intro request
    have hupdates := (step_updates ((Session.new settings).run requests) request).1
    rw [hsettings] at hupdates
    exact hupdates

end Session

end DeskCalc
