import DeskCalc.Proofs.Answer.Insertion
import DeskCalc.Proofs.Session.Replay

/-!
# Recalling the last answer

The word for the last answer, by itself, gives the last answer again. It is written into the text as
a decimal that reads back, a negative one behind a minus sign in parentheses; the tree of that has
the same double as its value, and a last answer is rounded already.

* `Answer.height_tree`, `Answer.eval_tree`: the tree that stands for a value.
* `admittedText_answerWord`: the word is admitted in any case.
* `evaluate_answerWord`: it evaluates to the last answer and changes nothing.
-/

namespace DeskCalc

open Text Token Binary64 Answer

namespace Answer

/-- The tree of a value is two high at most. -/
theorem height_tree (v : Float) : (tree v).height ≤ 2 := by
  rw [tree]
  split
  · exact Nat.le_refl 2
  · exact Nat.le_succ 1

/-- **The tree of a value has this value**, bit for bit, unless that is the negative zero. -/
theorem eval_tree {v : Float} (hfinite : v.isFinite = true) (hzero : v ≠ ofRank true 0) :
    (tree v).eval = .ok v := by
  have hrank := (isFinite_iff v).1 hfinite
  have habs := abs_eq_ofRank hfinite
  rw [tree]
  by_cases hneg : v < 0
  · have hnegated : -v.abs = v := by
      have hsigned : hasSign v = true := ((lt_zero_iff hfinite).1 hneg).1
      rw [habs, neg_eq_ofRank (unsigned_ofRank hrank).isFinite, hasSign_ofRank (Nat.le_of_lt hrank),
        rank_ofRank (Nat.le_of_lt hrank)]
      refine ext_rank ?_ (rank_ofRank (Nat.le_of_lt hrank))
      rw [hasSign_ofRank (Nat.le_of_lt hrank), hsigned]
      rfl
    rw [if_pos hneg]
    exact congrArg Except.ok hnegated
  · have hunsigned : Unsigned v := ⟨hfinite, hneg, hzero⟩
    rw [if_neg hneg, habs, hunsigned.ofRank_rank]
    rfl

/-- The word for the last answer is replaced as a whole. -/
theorem substitute_answerWord (answer : Text) :
    substitute answer Canonical.answerWord = answer := by
  rw [Canonical.answerWord, substitute]
  show answer ++ substitute answer [] = answer
  rw [substitute, List.append_nil]

end Answer

/-- In any case the word for the last answer is admitted, if three characters are. -/
theorem admittedText_answerWord {settings : Settings} (hlength : 3 ≤ settings.maxLength)
    {raw : Text}
    (hraw : lower raw = ['a', 'n', 's']) :
    admittedText settings raw = .ok Canonical.answerWord := by
  have hword : isWord raw = true := by
    rw [← isWord_lower, hraw]
    rfl
  have hcanonical : canonical raw = Canonical.answerWord := by
    rw [canonical_word hword, Canonical.spelling, hraw]
    rfl
  have hblank : raw.trim.isEmpty = false := by
    rw [← Bool.not_eq_true]
    intro hempty
    cases raw with
    | nil => cases hword
    | cons c t =>
        have hsolid := isBlank_of_isWordChar (isWordChar_of_isWord hword c List.mem_cons_self)
        rw [isBlank_of_trim_isEmpty hempty c List.mem_cons_self] at hsolid
        cases hsolid
  have hcharacters : admitCharacters Canonical.answerWord = .ok () :=
    eq_ok_of_toOption (by decide +kernel)
  exact admittedText_eq_ok.2 ⟨hblank, hcanonical.symm, hlength, hcharacters, rfl⟩

namespace Session

/-- With a settled last answer its word has this answer as its value. -/
theorem compute_answerWord {settings : Settings} (hlength : 3 ≤ settings.maxLength)
    (hheight : 2 ≤ settings.maxHeight) {v : Float} (hv : Settled settings.decimals v) {raw : Text}
    (hraw : lower raw = ['a', 'n', 's']) :
    ∃ trace, compute settings (some v) raw = .ok { value := v, trace } := by
  have hfinite : ∀ w, some v = some w → w.isFinite = true := by
    rintro w ⟨⟩
    exact hv.isFinite
  have hlimit : ∀ node ∈ (tree v).operations, node.height ≤ settings.maxHeight := fun node hnode =>
    calc node.height ≤ (tree v).height := Expr.height_le_of_mem_operations _ node hnode
      _ ≤ 2 := height_tree v
      _ ≤ settings.maxHeight := hheight
  have hcalculate : calculate settings.maxHeight
      (substitute (literal (some v)) Canonical.answerWord) =
        .ok ⟨tokens v, (tree v).toItems, tree v, v⟩ := by
    rw [substitute_answerWord]
    exact calculate_eq_ok.2 ⟨tokenize_literal hfinite,
      Grammar.toPostfix_of_derives ((derives_tree v).loosen (by decide)),
      Expr.ofPostfix_toItems hlimit, eval_tree hv.isFinite hv.ne_negative_zero⟩
  have hcompute :=
    compute_of_calculate (admittedText_answerWord hlength hraw) hcalculate hv.isFinite
  rw [hcompute, hv.roundTo_eq]
  exact ⟨_, rfl⟩

/-- **The last answer is its own answer.** In every state of every run with a last answer, the word
for it, in any case, evaluates to the same double and leaves the session as it is, if the settings
admit three characters and trees two high. -/
theorem evaluate_answerWord (settings : Settings) (requests : List Request)
    (hlength : 3 ≤ settings.maxLength) (hheight : 2 ≤ settings.maxHeight) {v : Float}
    (hanswer : ((Session.new settings).run requests).answer = some v) {raw : Text}
    (hraw : lower raw = ['a', 'n', 's']) :
    (∃ trace, ((Session.new settings).run requests).evaluate raw =
      (.ok { value := v, trace }, (Session.new settings).run requests)) ∧
    ((Session.new settings).run requests).evaluateValue raw =
      (.ok v, (Session.new settings).run requests) := by
  have hsettings : ((Session.new settings).run requests).settings = settings :=
    settings_run (Session.new settings) requests
  obtain ⟨trace, hcompute⟩ :=
    compute_answerWord hlength hheight ((run_settled settings requests).1 v hanswer) hraw
  generalize (Session.new settings).run requests = s at hanswer hsettings ⊢
  have hevaluate : s.evaluate raw = (.ok { value := v, trace }, s) := by
    have hsame : ({ s with answer := some v } : Session) = s := by rw [← hanswer]
    rw [← hanswer, ← hsettings] at hcompute
    rw [evaluate_of_compute hcompute]
    exact congrArg (Prod.mk _) hsame
  refine ⟨⟨trace, hevaluate⟩, ?_⟩
  rw [evaluateValue, hevaluate]
  rfl

/-- A negative answer that is no whole number, with the least settings: `Ans` gives it again. -/
theorem evaluate_answerWord_negative :
    let s := (Session.new { maxHeight := 2, maxLength := 3 }).run [.setAnswer (-1 / 3)]
    s.answer = some (-0.333333333333) ∧
      s.evaluateValue "Ans".toList = (.ok (-0.333333333333), s) := by
  intro s
  have hanswer : s.answer = some (-0.333333333333) := by decide +kernel
  exact ⟨hanswer, (evaluate_answerWord { maxHeight := 2, maxLength := 3 } [.setAnswer (-1 / 3)]
    (by decide) (by decide) hanswer (by decide)).2⟩

end Session

end DeskCalc
