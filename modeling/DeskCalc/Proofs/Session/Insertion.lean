import DeskCalc.Proofs.Canonical.Seam
import DeskCalc.Proofs.Session.Reading
import DeskCalc.Proofs.Session.Recall

/-!
# The last answer inserted and written as a word

The last answer can enter an expression in two ways: it is inserted as text into what is being
typed, before any pass, or its word is typed and replaced behind admission. Both give the same
reading. Where the answer is inserted, nothing goes on from the text before it: that ends in a times
sign, an operator, an opening parenthesis or a blank, unless it ends in the glyph of pi or in the
sign of an exponent. So the passes keep both as they are, and behind admission the two texts are the
same. Text with a character that is never admitted is refused either way.

* `opened`, `exists_opened_parts`: the text before the answer.
* `Separate`: two texts that are searched one by one.
* `readAlike_opened`: the answer and the word for it read alike.
* `Session.evaluate_insertAnswer`: inserting the answer and writing its word.
-/

namespace DeskCalc

open Text Token Canonical

namespace Answer

/-! ## The text before the answer -/

/-- The buffer as it is when the last answer is appended, with a times sign behind a value. -/
def opened (buffer : Text) : Text :=
  if endsInValue buffer then buffer ++ ['*'] else buffer

/-- The buffer ends in a digit or a point, the letter of an exponent and a sign. -/
def EndsInExponent (buffer : Text) : Prop :=
  ∃ u d e x, buffer = u ++ [d, e, x] ∧ isMantissaChar d = true ∧ (e = 'e' ∨ e = 'E') ∧
    x ∈ ['+', '-', '−']

/-- Behind a character that ends no value nothing goes on. -/
theorem exists_ofGlyph_stops {y : Char} (hknown : isAdmitted y = true ∨ y ∈ glyphs) (hpi : y ≠ 'π')
    (hend : isBlank y = true ∨ isValueEnd y = false) :
    ∃ c, ofGlyph y = [c] ∧ Stops c [] ∧ c ≠ '%' ∧ (c = '+' ∨ c = '-' → y ∈ ['+', '-', '−']) := by
  by_cases hglyph : y ∈ glyphs
  · simp only [glyphs, List.mem_cons, List.not_mem_nil, or_false] at hglyph
    rcases hglyph with rfl | rfl | rfl | rfl
    · exact ⟨'*', rfl, stops_star [], by decide, by decide⟩
    · have hsymbol : ofSymbol? '/' = some (.operator .div) := rfl
      exact ⟨'/', rfl, stops_of_ofSymbol? hsymbol (by decide) [], by decide, by decide⟩
    · exact ⟨'-', rfl, ⟨by decide, by decide, by decide, fun _ => rfl⟩, by decide,
        fun _ => by decide⟩
    · exact absurd rfl hpi
  · have hadmitted := hknown.resolve_right hglyph
    have hgoes : goesOn y = false := by
      rcases hend with hblank | hvalue
      · exact goesOn_of_isBlank hblank
      · rw [← Bool.not_eq_true]
        intro hgoes
        rw [isValueEnd_of_goesOn hgoes] at hvalue
        cases hvalue
    refine ⟨y, ofGlyph_of_not_mem hglyph, stops_of_isAdmitted hadmitted hgoes rfl, ?_, ?_⟩
    · rintro rfl
      rcases hend with hblank | hvalue
      · cases hblank
      · cases hvalue
    · rintro (rfl | rfl)
      · exact List.mem_cons_self
      · exact List.mem_cons_of_mem _ List.mem_cons_self

/-- In a text of admitted characters and glyphs a mantissa ends in a digit of ASCII or in a point.
-/
theorem isMantissaChar_of_known {d : Char} (hknown : isAdmitted d = true ∨ d ∈ glyphs)
    (hd : isDecimalDigit d = true ∨ d = '.') : isMantissaChar d = true := by
  rcases hd with hdigit | rfl
  · have hglyph : d ∉ glyphs := by
      intro hmem
      simp only [glyphs, List.mem_cons, List.not_mem_nil, or_false] at hmem
      rcases hmem with rfl | rfl | rfl | rfl <;> exact absurd hdigit (by decide)
    have hchar : goesOn d = true ∨ isBlank d = true ∨ ∃ token, ofSymbol? d = some token := by
      rcases isAdmitted_iff.1 (hknown.resolve_right hglyph) with hgoes | hblank | hsymbol | rfl
      · exact .inl hgoes
      · exact .inr (.inl hblank)
      · exact .inr (.inr hsymbol)
      · cases hdigit
    rw [isDecimalDigit_eq_isDigit hchar] at hdigit
    rw [isMantissaChar, hdigit, Bool.true_or]
  · rfl

section
variable {buffer : Text} (hpi : buffer.getLast? ≠ some 'π') (hexponent : ¬ EndsInExponent buffer)
  (hknown : ∀ c ∈ buffer, isAdmitted c = true ∨ c ∈ glyphs)
include hpi hexponent hknown

/-- **The text before the answer is empty, or ends in a character that parts it from what follows.**
-/
theorem exists_opened_parts :
    opened buffer = [] ∨ ∃ v c, replaceGlyphs (opened buffer) = v ++ [c] ∧ Stops c [] ∧ c ≠ '%' ∧
      ∀ u, Parts v c u := by
  rw [opened]
  by_cases hvalue : endsInValue buffer = true
  · rw [if_pos hvalue]
    exact .inr ⟨replaceGlyphs buffer, '*', replaceGlyphs_append buffer ['*'], stops_star [],
      by decide, fun u => (stops_star u).parts _⟩
  rw [if_neg hvalue]
  rcases List.eq_nil_or_concat buffer with rfl | ⟨v, y, rfl⟩
  · exact .inl rfl
  rw [List.concat_eq_append] at hpi hexponent hknown hvalue ⊢
  have hend : isBlank y = true ∨ isValueEnd y = false := by
    rw [← Bool.not_eq_true, or_iff_not_imp_left, Bool.not_eq_true]
    intro hblank hends
    exact hvalue ((endsInValue_iff _).2 (by rw [ending_concat hblank, hends]))
  have hlast : y ≠ 'π' := fun hy => hpi (by rw [List.getLast?_concat, hy])
  obtain ⟨c, hc, halone, hpercent, hsign⟩ := exists_ofGlyph_stops (hknown y (by simp)) hlast hend
  have hreplaced : replaceGlyphs (v ++ [y]) = replaceGlyphs v ++ [c] := by
    rw [replaceGlyphs_append, ← hc]
    exact congrArg _ (List.append_nil _)
  refine .inr ⟨replaceGlyphs v, c, hreplaced, halone, hpercent, fun u =>
    ⟨halone, fun w d e hw hd he => ?_⟩⟩
  refine ⟨halone.not_digit, halone.not_wordChar, halone.ne_point, fun hsigned =>
    absurd ?_ hexponent⟩
  -- A mantissa and the letter of an exponent were typed as they are.
  have hletter : e ∉ glyphEnds := by
    rcases he with rfl | rfl <;> decide
  rw [← List.singleton_append, ← List.append_assoc] at hw
  obtain ⟨v', rfl, hv'⟩ := concat_of_replaceGlyphs hletter hw
  obtain ⟨v'', rfl, -⟩ := concat_of_replaceGlyphs (not_mem_glyphEnds hd) hv'
  have hmantissa := isMantissaChar_of_known (hknown d (by simp)) hd
  exact ⟨v'', d, e, y, by simp, hmantissa, he, hsign hsigned⟩

end

/-! ## Two texts that are searched one by one -/

/-- No word, no pair of points and no word for the last answer reaches from the first text into the
second. -/
structure Separate (t u : Text) : Prop where
  words : words (t ++ u) = words t ++ words u
  points : hasTwoPoints (t ++ u) = (hasTwoPoints t || hasTwoPoints u)
  substitute : ∀ answer, substitute answer (t ++ u) = substitute answer t ++ substitute answer u

namespace Separate

theorem nil (u : Text) : Separate [] u where
  words := by
    rw [DeskCalc.words, DeskCalc.words, lexemes]
    rfl
  points := rfl
  substitute answer := by
    rw [Answer.substitute.eq_1]
    rfl

variable {t u : Text}

theorem of_stops {c : Char} (hc : Stops c [])
    (h : DeskCalc.words (t ++ c :: u) = DeskCalc.words t ++ DeskCalc.words u) :
    Separate (t ++ [c]) u where
  words := by
    rw [List.append_assoc, List.singleton_append, h, words_stop hc, DeskCalc.words.eq_1 [], lexemes]
    exact congrArg (· ++ _) (List.append_nil _).symm
  points := by
    rw [List.append_assoc, List.singleton_append, hasTwoPoints_stop hc.ne_point,
      hasTwoPoints_stop hc.ne_point]
    exact congrArg (· || _) (Bool.or_false _).symm
  substitute answer := by
    rw [List.append_assoc, List.singleton_append, substitute_stop hc.not_wordChar,
      substitute_stop hc.not_wordChar, Answer.substitute.eq_1, List.append_assoc]
    rfl

/-- Behind a text that is separate, what is admitted by itself makes no difference to admission. -/
theorem admitCharacters_eq (h : Separate t u) (hu : admitCharacters u = .ok ()) :
    admitCharacters (t ++ u) = admitCharacters t := by
  obtain ⟨hcharacters, hwords⟩ := admitCharacters_eq_ok.1 hu
  rw [admitCharacters, admitCharacters, h.words, List.all_append, List.all_append,
    List.all_eq_true.2 hcharacters, List.all_eq_true.2 hwords, Bool.and_true, Bool.and_true]

theorem admitNumbers_eq (h : Separate t u) (hu : admitNumbers u = .ok ()) :
    admitNumbers (t ++ u) = admitNumbers t := by
  rw [admitNumbers, admitNumbers, h.points, admitNumbers_eq_ok.1 hu, Bool.or_false]

end Separate

/-- What is in normal form stays as it is behind the text before the answer, and is separate from
it. -/
theorem exists_separate {buffer : Text} (hpi : buffer.getLast? ≠ some 'π')
    (hexponent : ¬ EndsInExponent buffer)
    (hknown : ∀ c ∈ buffer, isAdmitted c = true ∨ c ∈ glyphs) :
    ∃ k, ∀ u, Normal u → u.head? ≠ some '*' → canonical (opened buffer ++ u) = k ++ u ∧
      Separate k u := by
  rcases exists_opened_parts hpi hexponent hknown with hnil | ⟨v, c, hglyphs, halone, hpercent,
    hparts⟩
  · rw [hnil]
    exact ⟨[], fun u hu _ => ⟨hu.canonical_eq_self, .nil u⟩⟩
  · obtain ⟨k, x, hx, happend⟩ := exists_canonical_append hglyphs halone hpercent
    refine ⟨k ++ [x], fun u hu hhead => ?_⟩
    obtain ⟨hcanonical, hwords⟩ := happend u hu hhead (hparts u)
    exact ⟨by rw [hcanonical, List.append_assoc, List.singleton_append], .of_stops hx hwords⟩

/-! ## The answer and the word for it -/

theorem normal_answerWord : Normal answerWord where
  glyphFree := glyphFree_of_isAdmitted
    (admitCharacters_eq_ok.1 (eq_ok_of_toOption (by decide +kernel))).1
  percentFree := percentFree_of_ne (by simp [answerWord])
  starFree := starFree_of_ne (by simp [answerWord])
  spelled := by decide +kernel

theorem trim_isEmpty_of_ending {t : Text} {e : Bool} (h : ending t = some e) :
    t.trim.isEmpty = false := by
  have hblank : ∀ u : Text, (∀ c ∈ u, isBlank c = true) → lastSolid u = none := by
    intro u
    induction u with
    | nil => exact fun _ => rfl
    | cons c u ih =>
        intro hall
        rw [lastSolid, ih fun x hx => hall x (List.mem_cons_of_mem c hx), hall c List.mem_cons_self]
        rfl
  rw [← Bool.not_eq_true]
  intro hempty
  rw [ending, hblank t (isBlank_of_trim_isEmpty hempty)] at h
  cases h

/-- **The answer and the word for it read alike** behind the same text, if both texts are short
enough. -/
theorem readAlike_opened {settings : Settings} {answer : Option Float}
    (hfinite : ∀ v, answer = some v → v.isFinite = true) {buffer : Text}
    (hpi : buffer.getLast? ≠ some 'π') (hexponent : ¬ EndsInExponent buffer)
    (hliteral : (canonical (opened buffer ++ literal answer)).length ≤ settings.maxLength)
    (hword : (canonical (opened buffer ++ answerWord)).length ≤ settings.maxLength) :
    ReadAlike settings answer (opened buffer ++ literal answer) (opened buffer ++ answerWord) := by
  have hblank : (opened buffer ++ literal answer).trim.isEmpty =
      (opened buffer ++ answerWord).trim.isEmpty := by
    have hends : ∀ u, ending u = some true → (opened buffer ++ u).trim.isEmpty = false := by
      intro u hu
      exact trim_isEmpty_of_ending (e := true) (by rw [ending_append, hu]; rfl)
    rw [hends _ (ending_literal hfinite), hends _ rfl]
  have hlength : settings.maxLength < (canonical (opened buffer ++ literal answer)).length ↔
      settings.maxLength < (canonical (opened buffer ++ answerWord)).length := by omega
  by_cases hknown : ∀ c ∈ buffer, isAdmitted c = true ∨ c ∈ glyphs
  · obtain ⟨k, hk⟩ := exists_separate hpi hexponent hknown
    have htyped := typed_literal hfinite
    have hcharacters := htyped.characters
    have hnumbers := htyped.numbers
    rw [(normal_literal hfinite).canonical_eq_self] at hcharacters hnumbers
    obtain ⟨hinserted, hbefore⟩ := hk (literal answer) (normal_literal hfinite) fun hhead =>
      (ne_of_mem_literal hfinite (List.mem_of_head? hhead)).2 rfl
    obtain ⟨hwritten, hbefore'⟩ := hk answerWord normal_answerWord (by decide)
    refine ⟨hblank, hlength, ?_, fun _ => ?_, fun _ => ?_⟩
    · rw [hinserted, hwritten, hbefore.admitCharacters_eq hcharacters,
        hbefore'.admitCharacters_eq (eq_ok_of_toOption (by decide +kernel))]
    · rw [hinserted, hwritten, hbefore.admitNumbers_eq hnumbers, hbefore'.admitNumbers_eq rfl]
    · have hself : substitute (literal answer) (literal answer) = literal answer := by
        refine substitute_eq_self fun c hc => ?_
        rintro rfl
        cases not_startsWord_of_mem_literal hfinite hc
      rw [hinserted, hwritten, hbefore.substitute, hbefore'.substitute, hself,
        substitute_answerWord]
  · -- A character that is never admitted is kept in both texts.
    simp only [not_forall, not_or] at hknown
    obtain ⟨c, hmem, hadmitted, hglyph⟩ := hknown
    have hrefused : ∀ u, admitCharacters (canonical (opened buffer ++ u)) =
        .error .invalidCharacters := by
      intro u
      refine admitCharacters_of_mem (List.mem_append_left u ?_) hglyph (by simpa using hadmitted)
      rw [opened]
      split
      · exact List.mem_append_left _ hmem
      · exact hmem
    refine ⟨hblank, hlength, by rw [hrefused, hrefused], ?_, ?_⟩
    · intro hok
      rw [hrefused] at hok
      cases hok
    · intro hok
      rw [hrefused] at hok
      cases hok

end Answer

namespace Session

open Answer

/-- **Inserting the last answer and writing the word for it agree.** In every state of every run
with a last answer, and for every buffer that ends neither in the glyph of pi nor in the sign of an
exponent, the buffer with the answer inserted has the same reading as the buffer with the word in
its place, or is refused alike, and leaves the same session, if both canonical texts are short
enough. -/
theorem evaluate_insertAnswer (settings : Settings) (requests : List Request) {v : Float}
    (hanswer : ((Session.new settings).run requests).answer = some v) {buffer : Text}
    (hpi : buffer.getLast? ≠ some 'π') (hexponent : ¬ EndsInExponent buffer)
    (hliteral : (canonical (((Session.new settings).run requests).insertAnswer buffer)).length ≤
      settings.maxLength)
    (hword : (canonical (opened buffer ++ answerWord)).length ≤ settings.maxLength) :
    let s := (Session.new settings).run requests
    (s.evaluate (s.insertAnswer buffer)).1.map Outcome.reading =
        (s.evaluate (opened buffer ++ answerWord)).1.map Outcome.reading ∧
      (s.evaluate (s.insertAnswer buffer)).2 = (s.evaluate (opened buffer ++ answerWord)).2 := by
  have hsettings : ((Session.new settings).run requests).settings = settings :=
    settings_run (Session.new settings) requests
  have hfinite : ∀ w, ((Session.new settings).run requests).answer = some w → w.isFinite = true :=
    fun w hw => ((sound_new settings).run requests w hw).isFinite
  generalize (Session.new settings).run requests = s at hanswer hsettings hfinite hliteral ⊢
  have hinserted : s.insertAnswer buffer = opened buffer ++ literal s.answer := by
    rw [insertAnswer, Answer.insert, hanswer]
    rfl
  rw [hinserted, ← hsettings] at hliteral
  rw [← hsettings] at hword
  have halike := (readAlike_opened hfinite hpi hexponent hliteral hword).evaluate_eq
  rw [← hinserted] at halike
  exact halike

/-- Behind the glyph for minus the answer -2.5 is inserted without a times sign. -/
theorem evaluate_insertAnswer_glyph :
    let s := (Session.new .standard).run [.setAnswer (-2.5)]
    s.insertAnswer "8−".toList = "8−(-2.5)".toList ∧
      (s.evaluate "8−(-2.5)".toList).1.map Outcome.reading =
        (s.evaluate "8−ANS".toList).1.map Outcome.reading := by
  intro s
  have hanswer : s.answer = some (-2.5) := by decide +kernel
  have hinserted : s.insertAnswer "8−".toList = "8−(-2.5)".toList := by decide +kernel
  have hexponent : ¬ EndsInExponent "8−".toList := by
    rintro ⟨u, d, e, x, hbuffer, -⟩
    have hlength := congrArg List.length hbuffer
    rw [List.length_append] at hlength
    exact absurd hlength (by simp)
  have hopened : opened "8−".toList ++ answerWord = "8−ANS".toList := by decide +kernel
  have hagree : (s.evaluate (s.insertAnswer "8−".toList)).1.map Outcome.reading =
      (s.evaluate (opened "8−".toList ++ answerWord)).1.map Outcome.reading :=
    (evaluate_insertAnswer .standard [.setAnswer (-2.5)] hanswer (by decide) hexponent
      (by decide +kernel) (by decide +kernel)).1
  rw [hinserted, hopened] at hagree
  exact ⟨hinserted, hagree⟩

end Session

end DeskCalc
