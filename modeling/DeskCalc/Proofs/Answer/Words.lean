import DeskCalc.Proofs.Admission.Words
import DeskCalc.Proofs.Answer.Substitution
import DeskCalc.Proofs.Token.Names
import Mathlib.Data.List.Basic

/-!
# Words around the last answer

The last answer is written without letters and underscores. So it brings no word into a text, and as
runs of word characters are replaced as a whole, it cuts none: the words that stand alone afterwards
stood alone before.

* `mem_literal`: the characters of the text of an answer.
* `mem_substitute`: what substitution puts into a text.
* `HasAlone`, `hasAlone_of_substitute`: the words of a text with the answer in it.
-/

namespace DeskCalc.Answer

open Text Token Canonical

/-- The text of a last answer is a decimal, or one behind a minus sign in parentheses. -/
theorem literal_cases {answer : Option Float} (hfinite : ∀ v, answer = some v → v.isFinite = true) :
    ∃ parts, literal answer = Decimal.text parts ∨
      literal answer = '(' :: '-' :: Decimal.text parts ++ [')'] := by
  have hliteral := literal_eq hfinite
  by_cases hneg : answer.getD 0 < 0
  · exact ⟨_, .inr (hliteral.trans (if_pos hneg))⟩
  · exact ⟨_, .inl (hliteral.trans (if_neg hneg))⟩

/-- The text of a last answer is made of digits, points, parentheses and minus signs. -/
theorem mem_literal {answer : Option Float} (hfinite : ∀ v, answer = some v → v.isFinite = true)
    {c : Char} (h : c ∈ literal answer) : isMantissaChar c = true ∨ c ∈ ['(', '-', ')'] := by
  obtain ⟨parts, hplain | hparens⟩ := literal_cases hfinite
  · rw [hplain] at h
    exact .inl (isMantissaChar_of_mem_text h)
  · rw [hparens] at h
    simp only [List.cons_append, List.mem_cons, List.mem_append, List.not_mem_nil, or_false] at h
    rcases h with rfl | rfl | h | rfl
    · exact .inr (by decide)
    · exact .inr (by decide)
    · exact .inl (isMantissaChar_of_mem_text h)
    · exact .inr (by decide)

theorem not_startsWord_of_mem_literal {answer : Option Float}
    (hfinite : ∀ v, answer = some v → v.isFinite = true) {c : Char} (h : c ∈ literal answer) :
    startsWord c = false := by
  rw [← Bool.not_eq_true]
  intro hstarts
  rcases mem_literal hfinite h with hmantissa | hmark
  · rw [isMantissaChar_of_startsWord hstarts] at hmantissa
    cases hmantissa
  · simp only [List.mem_cons, List.not_mem_nil, or_false] at hmark
    rcases hmark with rfl | rfl | rfl <;> cases hstarts

theorem isAdmitted_of_mem_literal {answer : Option Float}
    (hfinite : ∀ v, answer = some v → v.isFinite = true) {c : Char} (h : c ∈ literal answer) :
    isAdmitted c = true := by
  rcases mem_literal hfinite h with hmantissa | hmark
  · exact isAdmitted_iff.2 (.inl (goesOn_of_isMantissaChar hmantissa))
  · simp only [List.mem_cons, List.not_mem_nil, or_false] at hmark
    rcases hmark with rfl | rfl | rfl <;> rfl

/-- Substitution brings in the characters of the answer and no others. -/
theorem mem_substitute {answer t : Text} {c : Char} (h : c ∈ substitute answer t) :
    c ∈ t ∨ c ∈ answer := by
  fun_induction substitute answer t with
  | case1 => cases h
  | case2 d t hword run ih =>
      have happend : d :: t = run ++ t.dropWhile isWordChar := by
        rw [List.cons_append, List.takeWhile_append_dropWhile]
      rw [happend, List.mem_append]
      rcases List.mem_append.1 h with hrun | hrest
      · split at hrun
        · exact .inr hrun
        · exact .inl (.inl hrun)
      · exact (ih hrest).imp_left .inr
  | case3 d t hword ih =>
      rcases List.mem_cons.1 h with hd | hrest
      · exact .inl (List.mem_cons.2 (.inl hd))
      · exact (ih hrest).imp_left (List.mem_cons_of_mem d)

/-- A text without the first letter of the word for the answer stays as it is. -/
theorem substitute_eq_self {answer t : Text} (h : ∀ c ∈ t, c ≠ 'A') : substitute answer t = t := by
  have happend := @substituteAfter_append answer [] [] t h
  rw [substituteAfter_nil, List.append_nil] at happend
  exact happend

/-! ## Words that stand alone -/

/-- Somewhere in a text behind the character `previous` the word stands alone. -/
def HasAlone (previous : Option Char) (word t : Text) : Prop :=
  ∃ before after, t = before ++ (word ++ after) ∧ (before.getLast?.or previous).any goesOn = false ∧
    after.head?.any isWordChar = false

section
variable {previous : Option Char} {word : Text} (hword : isWord word = true)
include hword

theorem exists_cons_of_isWord : ∃ c w, word = c :: w ∧ startsWord c = true := by
  cases word with
  | nil => cases hword
  | cons c w => exact ⟨c, w, rfl, (isWord_cons hword).1⟩

/-- Where no word character is, no word starts. -/
theorem ne_append_of_isWord {t u : Text} (ht : t.head?.any isWordChar = false) : t ≠ word ++ u := by
  obtain ⟨c, w, rfl, hstarts⟩ := exists_cons_of_isWord hword
  rintro rfl
  rw [List.cons_append, List.head?_cons, Option.any_some, isWordChar_of_startsWord hstarts] at ht
  cases ht

theorem ne_nil_of_isWord {before after : Text}
    (h : (before ++ (word ++ after)).head?.any isWordChar = false) : before ≠ [] := by
  rintro rfl
  exact ne_append_of_isWord hword h rfl

theorem hasAlone_cons {c : Char} (hc : isWordChar c = false) {t : Text} :
    HasAlone previous word (c :: t) ↔ HasAlone (some c) word t := by
  have hlast : ∀ u : Text, (c :: u).getLast?.or previous = u.getLast?.or (some c) := by
    intro u
    cases u with
    | nil => rfl
    | cons x u => simp [List.getLast?_cons]
  constructor
  · rintro ⟨before, after, hsplit, hbefore, hafter⟩
    cases before with
    | nil => exact absurd hsplit (ne_append_of_isWord hword hc)
    | cons x before =>
        obtain ⟨rfl, rfl⟩ := List.cons.inj hsplit
        exact ⟨before, after, rfl, by rwa [hlast] at hbefore, hafter⟩
  · rintro ⟨before, after, rfl, hbefore, hafter⟩
    exact ⟨c :: before, after, rfl, by rwa [hlast], hafter⟩

/-- What stands alone behind a run stands alone with the run in front of it. -/
theorem HasAlone.append_left {t : Text} (h : HasAlone previous word t)
    (ht : t.head?.any isWordChar = false) (run : Text) : HasAlone previous word (run ++ t) := by
  obtain ⟨before, after, rfl, hbefore, hafter⟩ := h
  refine ⟨run ++ before, after, (List.append_assoc _ _ _).symm, ?_, hafter⟩
  rwa [List.getLast?_append_of_ne_nil _ (ne_nil_of_isWord hword ht)]

/-- A word that stands alone in two texts in a row starts in one of them. -/
theorem HasAlone.of_append {u t : Text} (h : HasAlone previous word (u ++ t))
    (ht : t.head?.any isWordChar = false) :
    HasAlone previous word t ∨ ∃ before v after, u = before ++ v ∧ v ≠ [] ∧ word ++ after = v ++ t ∧
      (before.getLast?.or previous).any goesOn = false ∧ after.head?.any isWordChar = false := by
  obtain ⟨before, after, hsplit, hbefore, hafter⟩ := h
  rcases List.append_eq_append_iff.1 hsplit with ⟨b, rfl, rfl⟩ | ⟨v, rfl, hsame⟩
  · left
    rw [List.getLast?_append_of_ne_nil _ (ne_nil_of_isWord hword ht)] at hbefore
    exact ⟨b, after, rfl, hbefore, hafter⟩
  · right
    refine ⟨before, v, after, rfl, ?_, hsame, hbefore, hafter⟩
    rintro rfl
    exact ne_append_of_isWord hword ht hsame.symm

/-- A word that stands alone where a run of word characters is, is the run. -/
theorem eq_run_of_alone {before after run v rest : Text}
    (hafter : after.head?.any isWordChar = false)
    (hrun : ∀ x ∈ run, isWordChar x = true) (hrest : rest.head?.any isWordChar = false)
    (hbefore : (before.getLast?.or previous).any goesOn = false) (hsplit : run = before ++ v)
    (hsame : word ++ after = v ++ rest) : before = [] ∧ word = run := by
  have hnil : before = [] := by
    cases hlast : before.getLast? with
    | none => exact List.getLast?_eq_none_iff.1 hlast
    | some x =>
        have hx :=
          hrun x (by rw [hsplit]; exact List.mem_append_left v (List.mem_of_getLast? hlast))
        rw [hlast, Option.some_or, Option.any_some, goesOn_of_isWordChar hx] at hbefore
        cases hbefore
  refine ⟨hnil, ?_⟩
  rw [hnil, List.nil_append] at hsplit
  rw [← takeWhile_run (isWordChar_of_isWord hword) hafter, hsame, ← hsplit,
    takeWhile_run hrun hrest]

/-- **A word that stands alone in a text with the answer stood alone in the text without it**, and
it is not the word for the answer. -/
theorem hasAlone_of_substitute {answer t : Text} (hanswer : ∀ c ∈ answer, startsWord c = false)
    (h : HasAlone previous word (substitute answer t)) :
    word ≠ answerWord ∧ HasAlone previous word t := by
  fun_induction substitute answer t generalizing previous with
  | case1 =>
      obtain ⟨before, after, hsplit, -, -⟩ := h
      exact absurd (List.append_eq_nil_iff.1 hsplit.symm).2 (ne_append_of_isWord hword rfl).symm
  | case2 c t hc run =>
      rename_i ih
      have hfollows := head?_dropWhile_any isWordChar t
      have hstop : (substitute answer (t.dropWhile isWordChar)).head?.any isWordChar = false := by
        rwa [head?_substitute hfollows]
      have hrun : ∀ x ∈ run, isWordChar x = true := fun x => of_mem_run hc
      have happend : c :: t = run ++ t.dropWhile isWordChar := by
        rw [List.cons_append, List.takeWhile_append_dropWhile]
      rw [happend]
      rcases h.of_append hword hstop with hrest | ⟨before, v, after, hu, hne, hsame, hbefore,
        hafter⟩
      · exact (ih hrest).imp_right fun h => h.append_left hword hfollows run
      · split at hu
        · -- No word starts in the answer.
          obtain ⟨d, w, rfl, hstarts⟩ := exists_cons_of_isWord hword
          obtain ⟨x, v, rfl⟩ := List.exists_cons_of_ne_nil hne
          obtain ⟨rfl, -⟩ := List.cons.inj hsame
          rw [hanswer d (by rw [hu]; simp)] at hstarts
          cases hstarts
        · rename_i hkept
          obtain ⟨rfl, hsame⟩ := eq_run_of_alone hword hafter hrun hstop hbefore hu hsame
          rw [hsame]
          exact ⟨hkept, [], _, rfl, hbefore, hfollows⟩
  | case3 c t hc ih =>
      rw [Bool.not_eq_true] at hc
      rw [hasAlone_cons hword hc] at h ⊢
      exact ih h

end

end DeskCalc.Answer
