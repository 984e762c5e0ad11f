import DeskCalc.Proofs.Canonical.LetterCase
import DeskCalc.Proofs.Session.Firewall
import DeskCalc.Proofs.Session.Reading
import DeskCalc.Proofs.Token.LetterCase

/-!
# Letter case does not matter

What is typed in another case has the same reading, or is refused alike, as long as no word is glued
to what precedes it. The canonical texts agree up to the letters of exponents, and so do the texts
with the last answer in them. These are read as the same tokens up to the case of names, which are
ordered alike or refused alike. If they are an expression, its names are in the vocabulary, which
has no two names that differ in case alone, so the tokens are the same.

* `substitute_foldExponents`: the last answer and the letters of exponents.
* `eq_of_map_rename`: names of the vocabulary in lower case.
* `calculate_of_lower_eq`: texts that differ in case alone calculate alike.
* `Session.evaluate_case`: an evaluation.
-/

namespace DeskCalc

open Text Token Canonical

namespace Canonical

/-! ## The letters of exponents -/

theorem lower_foldExponents (t : Text) : lower (foldExponents t) = lower t := by
  rw [lower, lower, foldExponents, List.map_map]
  refine List.map_congr_left fun c _ => ?_
  by_cases hc : c = 'E'
  · subst hc
    rfl
  · rw [Function.comp_apply, foldExponent, if_neg hc]

theorem foldExponents_eq_self {t : Text} (h : 'E' ∉ t) : foldExponents t = t := by
  have hchar : ∀ c ∈ t, foldExponent c = id c := by
    intro c hc
    refine if_neg ?_
    rintro rfl
    exact h hc
  rw [foldExponents, List.map_congr_left hchar, List.map_id]

/-- The word for the last answer comes from itself alone. -/
theorem foldExponents_eq_answerWord (t : Text) : foldExponents t = answerWord ↔ t = answerWord := by
  constructor
  · intro h
    have hletter : 'E' ∉ t := by
      intro hmem
      have hfolded : 'e' ∈ foldExponents t := List.mem_map.2 ⟨'E', hmem, rfl⟩
      rw [h] at hfolded
      exact absurd hfolded (by decide)
    rwa [foldExponents_eq_self hletter] at h
  · rintro rfl
    rfl

theorem isWordChar_foldExponent (c : Char) : isWordChar (foldExponent c) = isWordChar c := by
  by_cases hc : c = 'E'
  · subst hc
    rfl
  · rw [foldExponent, if_neg hc]

end Canonical

namespace Answer

/-- **The last answer is written in the same places**, whatever the letters of exponents are. -/
theorem substitute_foldExponents {answer : Text} (hanswer : foldExponents answer = answer)
    (t : Text) : substitute answer (foldExponents t) = foldExponents (substitute answer t) := by
  have hcomp : isWordChar ∘ foldExponent = isWordChar := funext isWordChar_foldExponent
  have hrun : ∀ u, (foldExponents u).takeWhile isWordChar = foldExponents (u.takeWhile isWordChar) ∧
      (foldExponents u).dropWhile isWordChar = foldExponents (u.dropWhile isWordChar) := by
    intro u
    rw [foldExponents, List.takeWhile_map, List.dropWhile_map, hcomp]
    exact ⟨rfl, rfl⟩
  have happend : ∀ u v, foldExponents (u ++ v) = foldExponents u ++ foldExponents v := fun _ _ =>
    List.map_append
  fun_induction substitute answer t with
  | case1 => rw [show foldExponents [] = [] from rfl, substitute]
  | case2 c t hc run =>
      rename_i ih
      have hfolded : foldExponent c :: (foldExponents t).takeWhile isWordChar =
          foldExponents run := by
        rw [(hrun t).1]
        rfl
      rw [show foldExponents (c :: t) = foldExponent c :: foldExponents t from rfl, substitute,
        isWordChar_foldExponent, if_pos hc]
      simp only [hfolded, (hrun t).2, ih, happend, foldExponents_eq_answerWord]
      split
      · rw [hanswer]
      · rfl
  | case3 c t hc ih =>
      rw [show foldExponents (c :: t) = foldExponent c :: foldExponents t from rfl, substitute,
        isWordChar_foldExponent, if_neg hc, ih]
      rfl

end Answer

/-! ## Names in lower case -/

/-- No two names of the vocabulary differ in case alone. -/
theorem Vocabulary.eq_of_lowerName {name name' : String} (h : contains name = true)
    (h' : contains name' = true) (hlower : lowerName name = lowerName name') : name = name' := by
  have hknown : ∀ {n : String}, contains n = true → known? (lower n.toList) = some n.toList := by
    intro n hn
    exact known?_of_isAdmittedWord (by
      rw [isAdmittedWord, String.ofList_toList, hn, Bool.or_true])
  have hsame : lower name.toList = lower name'.toList := String.ofList_injective hlower
  have hlist := hknown h
  rw [hsame, hknown h'] at hlist
  exact (String.toList_injective (Option.some.inj hlist)).symm

/-- Tokens with names of the vocabulary are the same if they are in lower case. -/
theorem eq_of_map_rename {ts us : List Token}
    (hts : ∀ name, .name name ∈ ts → Vocabulary.contains name = true)
    (hus : ∀ name, .name name ∈ us → Vocabulary.contains name = true)
    (h : ts.map (Token.rename lowerName) = us.map (Token.rename lowerName)) : ts = us := by
  induction ts generalizing us with
  | nil => exact (List.map_eq_nil_iff.1 h.symm).symm
  | cons t ts ih =>
      cases us with
      | nil => cases h
      | cons u us =>
          obtain ⟨hhead, htail⟩ := List.cons.inj h
          have hsame : t = u := by
            cases t with
            | name word =>
                cases u with
                | name word' =>
                    have hname := Vocabulary.eq_of_lowerName (hts word List.mem_cons_self)
                      (hus word' List.mem_cons_self) (Token.name.inj hhead)
                    rw [hname]
                | _ => cases hhead
            | _ => cases u <;> first | exact hhead | cases hhead
          rw [hsame, ih (fun name hname => hts name (List.mem_cons_of_mem t hname))
            (fun name hname => hus name (List.mem_cons_of_mem u hname)) htail]

section
variable {answer : Option Float} (hfinite : ∀ v, answer = some v → v.isFinite = true)
    {text text' : Text}
  (hadmitted : admitCharacters text = .ok ()) (hadmitted' : admitCharacters text' = .ok ())
include hfinite hadmitted hadmitted'

/-- **Texts that differ in case alone calculate alike**, if they come from admitted ones. -/
theorem calculate_of_lower_eq (maxHeight : Nat)
    (hlower : lower (Answer.substitute (Answer.literal answer) text) =
      lower (Answer.substitute (Answer.literal answer) text')) :
    (calculate maxHeight (Answer.substitute (Answer.literal answer) text)).toOption =
      (calculate maxHeight (Answer.substitute (Answer.literal answer) text')).toOption := by
  have htokens := tokenize_lower (Answer.substitute (Answer.literal answer) text)
  rw [hlower, tokenize_lower] at htokens
  rw [calculate, calculate, toOption_bind, toOption_bind]
  cases hread : tokenize (Answer.substitute (Answer.literal answer) text) with
  | error fault =>
      rw [hread] at htokens
      rw [Option.map_eq_none_iff.1 htokens]
      rfl
  | ok ts =>
      rw [hread] at htokens
      obtain ⟨us, hus, hsame⟩ := Option.map_eq_some_iff.1 htokens
      have hread' := eq_ok_of_toOption hus
      have hordered := toPostfix_rename lowerName ts
      rw [← hsame, toPostfix_rename] at hordered
      rw [hus]
      show (toPostfix ts >>= _).toOption = (toPostfix us >>= _).toOption
      rw [toOption_bind, toOption_bind]
      cases hitems : toPostfix ts with
      | error fault =>
          cases hitems' : toPostfix us with
          | error fault' => rfl
          | ok items' =>
              rw [hitems, hitems'] at hordered
              cases hordered
      | ok items =>
          cases hitems' : toPostfix us with
          | error fault' =>
              rw [hitems, hitems'] at hordered
              cases hordered
          | ok items' =>
              have hequal : us = ts := eq_of_map_rename
                (fun _ => contains_of_toPostfix hfinite hadmitted' hread' hitems')
                (fun _ => contains_of_toPostfix hfinite hadmitted hread hitems) hsame
              subst hequal
              rw [hitems] at hitems'
              cases hitems'
              rfl

end

namespace Session

/-- **Letter case does not matter** in any state of any run: texts that differ in the case of
letters alone have the same reading, or are refused alike, and leave the same session, if no word
behind the first three passes is glued to what precedes it. -/
theorem evaluate_case (settings : Settings) (requests : List Request) {raw raw' : Text}
    (hcase : lower raw = lower raw') (hglued : NoneGlued (unspelled raw)) :
    let s := (Session.new settings).run requests
    (s.evaluate raw).1.map Outcome.reading = (s.evaluate raw').1.map Outcome.reading ∧
      (s.evaluate raw).2 = (s.evaluate raw').2 := by
  have hfinite : ∀ w, ((Session.new settings).run requests).answer = some w → w.isFinite = true :=
    fun w hw => ((sound_new settings).run requests w hw).isFinite
  generalize (Session.new settings).run requests = s at hfinite ⊢
  have hcharacters := admitCharacters_canonical hcase hglued
  have hlength := length_eq_of_lower_eq (lower_canonical hcase)
  have halike : ReadAlike s.settings s.answer raw raw' := by
    refine ⟨?_, by rw [hlength], hcharacters, fun _ => ?_, fun hadmitted => ?_⟩
    · rw [← isEmpty_lower, ← trim_lower, hcase, trim_lower, isEmpty_lower]
    · rw [admitNumbers, admitNumbers, ← hasTwoPoints_lower, lower_canonical hcase,
        hasTwoPoints_lower]
    · have hliteral : foldExponents (Answer.literal s.answer) = Answer.literal s.answer := by
        refine foldExponents_eq_self fun hletter => ?_
        cases Answer.not_startsWord_of_mem_literal hfinite hletter
      refine calculate_of_lower_eq hfinite hadmitted (hcharacters ▸ hadmitted) _ ?_
      rw [← lower_foldExponents, ← Answer.substitute_foldExponents hliteral,
        foldExponents_canonical hcase hglued hadmitted, Answer.substitute_foldExponents hliteral,
        lower_foldExponents]
  exact halike.evaluate_eq

/-- The canonical texts of `Max(1E2,aNs)` and `mAX(1e2,ANS)` differ in the letter of the exponent
alone. -/
theorem evaluate_case_exponent :
    let s := (Session.new .standard).run [.setAnswer 7]
    canonical "Max(1E2,aNs)".toList = "max(1E2,ANS)".toList ∧
      canonical "mAX(1e2,ANS)".toList = "max(1e2,ANS)".toList ∧
      (s.evaluate "Max(1E2,aNs)".toList).1.map Outcome.reading =
        (s.evaluate "mAX(1e2,ANS)".toList).1.map Outcome.reading := by
  have hlexemes : lexemes (unspelled "Max(1E2,aNs)".toList) =
      [.word ['M', 'a', 'x'], .other '(', .numeral ['1', 'E', '2'], .other ',',
      .word ['a', 'N', 's'],
        .other ')'] := by decide +kernel
  have hglued : NoneGlued (unspelled "Max(1E2,aNs)".toList) := by
    intro before w after hsplit
    rw [hlexemes] at hsplit
    rcases before with _ | ⟨a, _ | ⟨b, _ | ⟨c, _ | ⟨d, _ | ⟨e, _ | ⟨f, rest⟩⟩⟩⟩⟩⟩
    · cases hsplit
      rfl
    · cases hsplit
    · cases hsplit
    · cases hsplit
    · cases hsplit
      rfl
    · cases hsplit
    · simp at hsplit
  exact ⟨by decide +kernel, by decide +kernel,
    (evaluate_case .standard [.setAnswer 7] (by decide) hglued).1⟩

end Session

end DeskCalc
