import DeskCalc.Proofs.Canonical.Idempotence
import DeskCalc.Proofs.Canonical.LetterCase

/-!
# The normal form read off the text

Whether a text is in normal form can be seen without a pass over it: by what it does not contain,
and by how its words are written. The texts that look like this are the canonical notations, all of
them and no others.

* `starFree_iff`, `percentFree_iff`: stars and percent signs.
* `spellWords_eq_self_iff`, `spelling_eq_self_iff`: words.
* `InNormalForm`, `normal_iff`: how a text in normal form looks.
* `canonical_inNormalForm`, `canonical_eq_self_iff`: what is a canonical notation.
-/

namespace DeskCalc

open Text

namespace Canonical

/-! ## Stars and percent signs -/

theorem starFree_iff (t : Text) : StarFree t ↔ ¬ ['*', '*'] <:+: t := by
  induction t with
  | nil => exact iff_of_true trivial (by simp)
  | cons c t ih =>
      rw [StarFree, ih, List.infix_cons_iff, List.cons_prefix_cons,
        List.singleton_prefix_iff_head?_eq_some, not_or, not_and, eq_comm]

theorem startsPercent_iff (t : Text) : startsPercent t = true ↔ ['%'] <+: t ∨ ['.', '%'] <+: t := by
  cases t with
  | nil => simp [startsPercent]
  | cons c t =>
      rw [startsPercent, Bool.or_eq_true, Bool.and_eq_true, beq_iff_eq, beq_iff_eq, beq_iff_eq,
        List.singleton_prefix_iff_head?_eq_some, List.head?_cons, Option.some_inj,
        List.cons_prefix_cons, List.singleton_prefix_iff_head?_eq_some, eq_comm (a := '.')]

theorem percentFree_iff (t : Text) :
    PercentFree t ↔ ∀ d, isDecimalDigit d = true → ¬ [d, '%'] <:+: t ∧ ¬ [d, '.', '%'] <:+: t := by
  induction t with
  | nil => exact iff_of_true trivial (by simp)
  | cons c t ih =>
      rw [PercentFree, ih, ← Bool.not_eq_true, startsPercent_iff, not_or]
      simp only [List.infix_cons_iff, List.cons_prefix_cons, not_or, not_and]
      constructor
      · rintro ⟨hhere, hlater⟩ d hd
        exact ⟨⟨fun hc => (hhere (hc ▸ hd)).1, (hlater d hd).1⟩, fun hc => (hhere (hc ▸ hd)).2,
          (hlater d hd).2⟩
      · intro h
        exact ⟨fun hc => ⟨(h c hc).1.1 rfl, (h c hc).2.1 rfl⟩, fun d hd =>
          ⟨(h d hd).1.2, (h d hd).2.2⟩⟩

/-! ## Words -/

/-- Lexemes stay as they are if and only if each word that is not glued is in its canonical
spelling. -/
theorem respell_eq_self_iff {ls : List Lexeme} (hne : ∀ l ∈ ls, l.text ≠ []) (t : Text) :
    respell t.getLast? ls = ls ↔ ∀ before w after, ls = before ++ .word w :: after →
      (t ++ before.flatMap Lexeme.text).getLast?.any glues = false → spelling w = w := by
  induction ls generalizing t with
  | nil => exact iff_of_true rfl fun before w after h => by cases before <;> cases h
  | cons l ls ih =>
      -- No lexeme is empty, so the text before the next one ends as this one does.
      have hlast : l.text.getLast? = (t ++ l.text).getLast? := by
        rw [List.getLast?_append, List.getLast?_eq_some_getLast (hne l List.mem_cons_self),
          Option.some_or]
      rw [respell, List.cons.injEq, hlast,
        ih (fun m hm => hne m (List.mem_cons_of_mem l hm)) (t ++ l.text)]
      constructor
      · rintro ⟨hl, hrest⟩ before w after hsplit hfree
        cases before with
        | nil =>
            cases hsplit
            rw [List.flatMap_nil, List.append_nil] at hfree
            rw [respellOne, hfree] at hl
            exact Lexeme.word.inj hl
        | cons m before =>
            cases hsplit
            rw [List.flatMap_cons, ← List.append_assoc] at hfree
            exact hrest before w after rfl hfree
      · intro h
        refine ⟨?_, fun before w after hsplit hfree => ?_⟩
        · cases l with
          | numeral v => rfl
          | other c => rfl
          | word w =>
              rw [respellOne]
              split
              · rfl
              · rename_i hfree
                rw [h [] w ls rfl (by simpa using hfree)]
        · refine h (l :: before) w after (congrArg (l :: ·) hsplit) ?_
          rwa [List.flatMap_cons, ← List.append_assoc]

/-- **The last pass has nothing to do** if and only if each word that is not glued is in its
canonical spelling. -/
theorem spellWords_eq_self_iff (t : Text) : spellWords t = t ↔
    ∀ before w after, lexemes t = before ++ .word w :: after →
      (before.flatMap Lexeme.text).getLast?.any glues = false → spelling w = w := by
  have hrespell : spellWords t = t ↔ respell none (lexemes t) = lexemes t := by
    constructor
    · intro h
      rw [← lexemes_spellWords, h]
    · intro h
      rw [spellWords, spell_eq_flatMap, h, flatMap_text_lexemes]
  rw [hrespell]
  exact respell_eq_self_iff (fun l hl => (formed_of_mem_lexemes hl).text_ne_nil) []

/-- Whether the name has a canonical case. -/
def IsKnownName (name : String) : Prop :=
  name ∈ ["PI", "E", "ANS"] ∨ Vocabulary.isFunction name = true

/-- A known name is what its lower case is known for. -/
theorem known?_of_isKnownName {name : String} (h : IsKnownName name) :
    known? (lower name.toList) = some name.toList := by
  have hword : isAdmittedWord name.toList = true := by
    rw [isAdmittedWord, String.ofList_toList]
    rcases h with hspecial | hfunction
    · simp only [List.mem_cons, List.not_mem_nil, or_false] at hspecial
      rcases hspecial with rfl | rfl | rfl <;> rfl
    · rw [Vocabulary.contains_of_isFunction hfunction, Bool.or_true]
  exact known?_of_isAdmittedWord hword

/-- What a lower case is known for is a known name that it writes. -/
theorem isKnownName_of_known? {w v : Text} (h : known? (lower w) = some v) :
    IsKnownName (String.ofList v) ∧ lower w = lower v := by
  rw [known?] at h
  split at h
  · rename_i hpi
    cases h
    exact ⟨.inl (by decide), hpi⟩
  split at h
  · rename_i he
    cases h
    exact ⟨.inl (by decide), he⟩
  split at h
  · rename_i hans
    cases h
    exact ⟨.inl (by decide), hans⟩
  split at h
  · rename_i hfunction
    cases h
    exact ⟨.inr hfunction, (lower_lower w).symm⟩
  · cases h

/-- **A word is in its canonical spelling** if and only if it is each known name that it writes in
some case. -/
theorem spelling_eq_self_iff (w : Text) : spelling w = w ↔
    ∀ name : String, IsKnownName name → lower w = lower name.toList → w = name.toList := by
  rw [spelling_eq_getD]
  constructor
  · intro h name hname hlower
    rw [hlower, known?_of_isKnownName hname] at h
    exact h.symm
  · intro h
    cases hknown : known? (lower w) with
    | none => rfl
    | some v =>
        obtain ⟨hname, hlower⟩ := isKnownName_of_known? hknown
        have hw := h (String.ofList v) hname (by rwa [String.toList_ofList])
        rw [String.toList_ofList] at hw
        exact hw.symm

/-! ## The normal form -/

/-- How a text in normal form looks. -/
structure InNormalForm (t : Text) : Prop where
  /-- There is no glyph. -/
  noGlyph : ∀ c ∈ ['×', '÷', '−', 'π'], c ∉ t
  /-- No two stars touch. -/
  noStars : ¬ ['*', '*'] <:+: t
  /-- No percent sign follows a decimal digit, or a point that follows one. -/
  noPercent : ∀ d, isDecimalDigit d = true → ¬ [d, '%'] <:+: t ∧ ¬ [d, '.', '%'] <:+: t
  /-- A word that writes a known name in some case, and does not follow a letter, a digit, an
  underscore or a point, writes it in the canonical case. -/
  spelled : ∀ before w after, lexemes t = before ++ .word w :: after →
    (before.flatMap Lexeme.text).getLast?.any glues = false →
    ∀ name : String, IsKnownName name → lower w = lower name.toList → w = name.toList

theorem normal_iff (t : Text) : Normal t ↔ InNormalForm t := by
  have hspelled : spellWords t = t ↔ _ := spellWords_eq_self_iff t
  simp only [spelling_eq_self_iff] at hspelled
  constructor
  · intro h
    exact ⟨fun c hglyph hc => h.glyphFree c hc hglyph, (starFree_iff t).1 h.starFree,
      (percentFree_iff t).1 h.percentFree, hspelled.1 h.spelled⟩
  · intro h
    exact ⟨fun c hc hglyph => h.noGlyph c hglyph hc, (percentFree_iff t).2 h.noPercent,
      (starFree_iff t).2 h.noStars, hspelled.2 h.spelled⟩

end Canonical

open Canonical

/-- **The canonical notation of any text is in normal form.** -/
theorem canonical_inNormalForm (raw : Text) : InNormalForm (canonical raw) :=
  (normal_iff (canonical raw)).1 (normal_canonical raw)

/-- The canonical notation of `2×LOG10(5.%)**π−3Ans`, in which `log10` stands behind a star and
`Ans` is glued. -/
theorem canonical_inNormalForm_logarithm :
    canonical "2×LOG10(5.%)**π−3Ans".toList = "2*log10((5./100))^PI-3Ans".toList ∧
    InNormalForm "2*log10((5./100))^PI-3Ans".toList := by
  have hcanonical : canonical "2×LOG10(5.%)**π−3Ans".toList =
      "2*log10((5./100))^PI-3Ans".toList := by
    decide +kernel
  exact ⟨hcanonical, hcanonical ▸ canonical_inNormalForm "2×LOG10(5.%)**π−3Ans".toList⟩

/-- **The canonical notations are the texts in normal form.** -/
theorem canonical_eq_self_iff (t : Text) : canonical t = t ↔ InNormalForm t := by
  rw [← normal_iff]
  constructor
  · intro h
    rw [← h]
    exact normal_canonical t
  · exact Normal.canonical_eq_self

end DeskCalc
