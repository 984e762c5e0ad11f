import DeskCalc.Proofs.Canonical.Marks

/-!
# Letter case in canonical notation

No pass looks at the case of a letter, and the last one writes every word that it knows in the case
of the vocabulary. So what is typed in another case gets the same canonical notation, but for three
things: the letters of exponents, words that are not known, and words that are glued to what
precedes them. Where no word is glued and the words are admitted, only the letters of exponents are
left. Admission does not see any of this.

* `unspelled`, `lower_unspelled`: the first three passes.
* `known?`, `known?_of_isAdmittedWord`: the spelling of a word as a table on lower case.
* `NoneGlued`, `lexemes_canonical`: texts in which no word is glued.
* `admitCharacters_canonical`: admission and letter case.
* `foldExponents`, `foldExponents_canonical`: the canonical notation up to the letters of exponents.
-/

namespace DeskCalc

open Text Token

/-- Texts that differ in case alone have two points in a row alike. -/
theorem hasTwoPoints_lower (t : Text) : hasTwoPoints (lower t) = hasTwoPoints t := by
  induction t with
  | nil => rfl
  | cons c t ih =>
      have hhead : ((lower t).head? == some '.') = (t.head? == some '.') := by
        cases t with
        | nil => rfl
        | cons d t => exact toLower_beq rfl d
      rw [show lower (c :: t) = c.toLower :: lower t from rfl, hasTwoPoints_cons, hasTwoPoints_cons,
        hhead, ih, toLower_beq rfl]

theorem isAdmitted_toLower (c : Char) : isAdmitted c.toLower = isAdmitted c := by
  have hmark : ∀ x : Char, x.isAlpha = false → (c.toLower == x) = (c == x) :=
    fun x hx => toLower_beq hx c
  simp only [isAdmitted, isAlphanum_toLower, isBlank_toLower, List.contains_cons, List.contains_nil,
    hmark '.' rfl, hmark '+' rfl, hmark '-' rfl, hmark '*' rfl, hmark '/' rfl, hmark '^' rfl,
    hmark '(' rfl, hmark ')' rfl, hmark ',' rfl, hmark '%' rfl, hmark '_' rfl]

namespace Canonical

/-! ## The first three passes -/

/-- The text after the passes over glyphs, percent signs and stars. -/
def unspelled (raw : Text) : Text :=
  joinStars (expandPercents (replaceGlyphs raw))

theorem lower_replaceGlyphs (t : Text) :
    lower (replaceGlyphs (lower t)) = lower (replaceGlyphs t) := by
  have hone : ∀ c : Char, lower (ofGlyph c.toLower) = lower (ofGlyph c) := by
    intro c
    by_cases hglyph : c ∈ glyphs
    · rw [(toLower_eq_iff (isAlpha_of_mem_glyphs hglyph)).2 rfl]
    · have hlower : c.toLower ∉ glyphs := fun hmem =>
        hglyph ((toLower_eq_iff (isAlpha_of_mem_glyphs hmem)).1 rfl ▸ hmem)
      rw [ofGlyph_of_not_mem hglyph, ofGlyph_of_not_mem hlower]
      exact lower_lower [c]
  induction t with
  | nil => rfl
  | cons c t ih =>
      calc lower (ofGlyph c.toLower ++ replaceGlyphs (lower t))
          = lower (ofGlyph c.toLower) ++ lower (replaceGlyphs (lower t)) := List.map_append
        _ = lower (ofGlyph c) ++ lower (replaceGlyphs t) := by rw [hone, ih]
        _ = lower (ofGlyph c ++ replaceGlyphs t) := List.map_append.symm

theorem expandPercents_lower (t : Text) : expandPercents (lower t) = lower (expandPercents t) := by
  have hsplit : ∀ c t, splitNumeral (c.toLower :: lower t) =
      (lower (splitNumeral (c :: t)).1, lower (splitNumeral (c :: t)).2) :=
    fun c t => splitNumeral_lower (c :: t)
  have hhead : ∀ u : Text, (lower u).head? = some '%' ↔ u.head? = some '%' := by
    intro u
    cases u with
    | nil => exact Iff.rfl
    | cons c u =>
        show some c.toLower = some '%' ↔ some c = some '%'
        rw [Option.some_inj, Option.some_inj, toLower_eq_iff rfl]
  fun_induction expandPercents t with
  | case1 => rw [show lower [] = [] from rfl, expandPercents]
  | case2 c t hnumeral ih =>
      rw [show lower (c :: t) = c.toLower :: lower t from rfl, expandPercents]
      simp only [hsplit, isEmpty_lower, hnumeral, if_true, ih]
      rfl
  | case3 c t hnumeral hpercent ih =>
      have htail : (lower (splitNumeral (c :: t)).2).tail = lower (splitNumeral (c :: t)).2.tail :=
        List.map_tail.symm
      rw [show lower (c :: t) = c.toLower :: lower t from rfl, expandPercents]
      simp only [hsplit, isEmpty_lower, hnumeral, hhead, hpercent, if_true, Bool.false_eq_true,
        if_false, htail, ih]
      simp [lower, hundredth]
  | case4 c t hnumeral hpercent ih =>
      rw [show lower (c :: t) = c.toLower :: lower t from rfl, expandPercents]
      simp only [hsplit, isEmpty_lower, hnumeral, hhead, hpercent, Bool.false_eq_true, if_false, ih]
      rfl

theorem joinStars_lower (t : Text) : joinStars (lower t) = lower (joinStars t) := by
  fun_induction joinStars t with
  | case1 t ih =>
      show '^' :: joinStars (lower t) = _
      rw [ih]
      rfl
  | case2 c t hstars ih =>
      have hpair : ∀ r, c.toLower = '*' → lower t = '*' :: r → False := by
        intro r hc hr
        cases t with
        | nil => cases hr
        | cons d t =>
            refine hstars t ((toLower_eq_iff rfl).1 hc) ?_
            rw [(toLower_eq_iff (x := '*') rfl).1 (List.cons.inj hr).1]
      show joinStars (c.toLower :: lower t) = _
      rw [joinStars_cons hpair, ih]
      rfl
  | case3 => rfl

/-- **The first three passes do not look at case**: texts that differ in case alone still do so
behind them. -/
theorem lower_unspelled {raw raw' : Text} (h : lower raw = lower raw') :
    lower (unspelled raw) = lower (unspelled raw') := by
  have hself : ∀ t, lower (unspelled t) =
      joinStars (expandPercents (lower (replaceGlyphs (lower t)))) := by
    intro t
    rw [lower_replaceGlyphs, expandPercents_lower, joinStars_lower, unspelled]
  rw [hself, hself, h]

theorem lower_canonical {raw raw' : Text} (h : lower raw = lower raw') :
    lower (canonical raw) = lower (canonical raw') := by
  show lower (spellWords (unspelled raw)) = lower (spellWords (unspelled raw'))
  rw [lower_spellWords, lower_spellWords, lower_unspelled h]

/-! ## Spelling -/

/-- The canonical spelling of a word in lower case, if the word is known. -/
def known? (word : Text) : Option Text :=
  if word = ['p', 'i'] then some ['P', 'I']
  else if word = ['e'] then some ['E']
  else if word = ['a', 'n', 's'] then some answerWord
  else if Vocabulary.isFunction (String.ofList word) then some word
  else none

theorem spelling_eq_getD (w : Text) : spelling w = (known? (lower w)).getD w := by
  rw [spelling, known?]
  split
  · rfl
  split
  · rfl
  split
  · rfl
  rw [Vocabulary.functionName?]

/-- A word that is admitted is known and spelled as it should be. -/
theorem known?_of_isAdmittedWord {w : Text} (h : isAdmittedWord w = true) :
    known? (lower w) = some w := by
  rw [isAdmittedWord, Bool.or_eq_true, beq_iff_eq] at h
  rcases h with rfl | hcontains
  · rfl
  · have hknown :=
      Vocabulary.of_contains (p := fun name => known? (lower name.toList) == some name.toList)
      (by decide) hcontains
    rw [String.toList_ofList] at hknown
    exact beq_iff_eq.1 hknown

/-- Whether a word is admitted in its canonical spelling is a matter of its lower case. -/
theorem isAdmittedWord_spelling (w : Text) :
    isAdmittedWord (spelling w) = (known? (lower w)).any isAdmittedWord := by
  rw [spelling_eq_getD]
  cases hknown : known? (lower w) with
  | some name => rfl
  | none =>
      show isAdmittedWord w = false
      rw [← Bool.not_eq_true]
      intro hword
      rw [known?_of_isAdmittedWord hword] at hknown
      cases hknown

/-! ## Texts in which no word is glued -/

/-- No word of the text follows a letter, a digit, an underscore or a point. -/
def NoneGlued (t : Text) : Prop :=
  ∀ before w after, lexemes t = before ++ .word w :: after →
    (before.flatMap Lexeme.text).getLast?.any glues = false

/-- Whether a word is glued is not a matter of case. -/
theorem NoneGlued.of_lower_eq {t u : Text} (h : NoneGlued t) (hlower : lower u = lower t) :
    NoneGlued u := by
  intro before w after hsplit
  have hlexemes : (lexemes t).map Lexeme.lower = (lexemes u).map Lexeme.lower := by
    rw [← lexemes_lower, ← lexemes_lower, hlower]
  rw [hsplit, List.map_append, List.map_cons] at hlexemes
  obtain ⟨before', rest, hsplit', hbefore, hrest⟩ := List.map_eq_append_iff.1 hlexemes
  obtain ⟨l, after', rfl, hl, -⟩ := List.map_eq_cons_iff.1 hrest
  have htext : lower (before.flatMap Lexeme.text) = lower (before'.flatMap Lexeme.text) := by
    rw [lower_flatMap_text, lower_flatMap_text, hbefore]
  have hlast : (before.flatMap Lexeme.text).getLast?.map Char.toLower =
      (before'.flatMap Lexeme.text).getLast?.map Char.toLower := by
    rw [← List.getLast?_map, ← List.getLast?_map]
    exact congrArg List.getLast? htext
  rw [any_glues_of_map_eq hlast]
  cases l with
  | numeral v => cases hl
  | other c => cases hl
  | word v => exact h before' v after' hsplit'

/-- What a lexeme of a text is made of. -/
def Formed : Lexeme → Prop
  | .numeral t => t ≠ [] ∧ ∀ c ∈ t, isDecimalDigit c = true ∨ c ∈ ['.', 'e', 'E', '+', '-']
  | .word t => t ≠ []
  | .other c => startsWord c = false

theorem formed_of_mem_lexemes {t : Text} {l : Lexeme} (h : l ∈ lexemes t) : Formed l := by
  fun_induction lexemes t with
  | case1 => cases h
  | case2 c t hnumeral hstart ih =>
      rcases List.mem_cons.1 h with rfl | hrest
      · exact List.cons_ne_nil c _
      · exact ih hrest
  | case3 c t hnumeral hstart ih =>
      rcases List.mem_cons.1 h with rfl | hrest
      · exact Bool.eq_false_iff.2 hstart
      · exact ih hrest
  | case4 c t hnumeral ih =>
      rcases List.mem_cons.1 h with rfl | hrest
      · exact ⟨by simpa using hnumeral, fun x hx => mem_splitNumeral hx⟩
      · exact ih hrest

theorem Formed.text_ne_nil {l : Lexeme} (h : Formed l) : l.text ≠ [] := by
  cases l with
  | numeral t => exact h.1
  | word t => exact h
  | other c => exact List.cons_ne_nil c []

/-- Where no word is glued, every word is spelled, whatever stands before it. -/
theorem respell_of_not_glued {ls : List Lexeme} (hne : ∀ l ∈ ls, l.text ≠ []) (t : Text)
    (h : ∀ before w after, ls = before ++ .word w :: after →
      (t ++ before.flatMap Lexeme.text).getLast?.any glues = false) :
    respell t.getLast? ls = ls.map (respellOne none) := by
  induction ls generalizing t with
  | nil => rfl
  | cons l ls ih =>
      have hl : respellOne t.getLast? l = respellOne none l := by
        cases l with
        | numeral v => rfl
        | other c => rfl
        | word w =>
            have hfree := h [] w ls rfl
            rw [List.flatMap_nil, List.append_nil] at hfree
            rw [respellOne, respellOne, hfree, Option.any_none]
      have hlast : l.text.getLast? = (t ++ l.text).getLast? := by
        rw [List.getLast?_append, List.getLast?_eq_some_getLast (hne l List.mem_cons_self),
          Option.some_or]
      have hrest := ih (fun m hm => hne m (List.mem_cons_of_mem l hm)) (t ++ l.text) (by
        rintro before w after rfl
        rw [List.append_assoc, ← List.flatMap_cons]
        exact h (l :: before) w after rfl)
      rw [respell, hl, hlast, hrest, List.map_cons]

/-- **Where no word is glued, the canonical notation falls into the lexemes with every word
spelled.** -/
theorem lexemes_canonical {raw : Text} (h : NoneGlued (unspelled raw)) :
    lexemes (canonical raw) = (lexemes (unspelled raw)).map (respellOne none) := by
  rw [← respell_of_not_glued (fun l hl => (formed_of_mem_lexemes hl).text_ne_nil) [] h]
  exact lexemes_spellWords (unspelled raw)

theorem words_canonical {raw : Text} (h : NoneGlued (unspelled raw)) :
    words (canonical raw) = (words (unspelled raw)).map spelling := by
  rw [words, words, lexemes_canonical h, List.filterMap_map, List.map_filterMap]
  refine congrArg (fun f => List.filterMap f _) (funext fun l => ?_)
  cases l <;> rfl

theorem words_lower (t : Text) : words (lower t) = (words t).map lower := by
  rw [words, words, lexemes_lower, List.filterMap_map, List.map_filterMap]
  refine congrArg (fun f => List.filterMap f _) (funext fun l => ?_)
  cases l <;> rfl

/-! ## Admission -/

/-- **Admission does not look at case**, where no word is glued. -/
theorem admitCharacters_canonical {raw raw' : Text} (h : lower raw = lower raw')
    (hglued : NoneGlued (unspelled raw)) :
    admitCharacters (canonical raw) = admitCharacters (canonical raw') := by
  have hcharacters : ∀ t, t.all isAdmitted = (lower t).all isAdmitted := by
    intro t
    rw [lower, List.all_map]
    exact congrArg t.all (funext fun c => (isAdmitted_toLower c).symm)
  have hwords : ∀ t, NoneGlued (unspelled t) → (words (canonical t)).all isAdmittedWord =
      (words (lower (unspelled t))).all fun w => (known? w).any isAdmittedWord := by
    intro t ht
    rw [words_canonical ht, words_lower, List.all_map, List.all_map]
    exact congrArg (words (unspelled t)).all (funext isAdmittedWord_spelling)
  rw [admitCharacters, admitCharacters, hcharacters, hcharacters (canonical raw'),
    lower_canonical h, hwords raw hglued, hwords raw' (hglued.of_lower_eq (lower_unspelled h.symm)),
    lower_unspelled h]

/-! ## Exponents -/

/-- The character with one letter for exponents. -/
def foldExponent (c : Char) : Char :=
  if c = 'E' then 'e' else c

/-- The text with one letter for exponents. -/
def foldExponents (t : Text) : Text :=
  t.map foldExponent

/-- The text of a lexeme in lower case, with the words that are known in their spelling. -/
def folded : Lexeme → Text
  | .word w => foldExponents ((known? w).getD w)
  | l => l.text

/-- Where the only letters are those of exponents, folding them is lower case. -/
theorem foldExponents_eq_lower {t : Text} (h : ∀ c ∈ t, c.isAlpha = false ∨ c = 'e' ∨ c = 'E') :
    foldExponents t = lower t := by
  refine List.map_congr_left fun c hc => ?_
  rcases h c hc with hother | rfl | rfl
  · have hne : c ≠ 'E' := by
      rintro rfl
      cases hother
    rw [foldExponent, if_neg hne, (toLower_eq_iff hother).2 rfl]
  · rfl
  · rfl

/-- A lexeme with its word spelled is known up to the letters of exponents from its lower case. -/
theorem foldExponents_respellOne {l : Lexeme} (hl : Formed l)
    (hword : ∀ w, l = .word w → isAdmittedWord (spelling w) = true) :
    foldExponents (respellOne none l).text = folded l.lower := by
  cases l with
  | numeral t =>
      refine foldExponents_eq_lower fun c hc => ?_
      rcases hl.2 c hc with hdigit | hmark
      · exact .inl (isAlpha_of_isDecimalDigit hdigit)
      · simp only [List.mem_cons, List.not_mem_nil, or_false] at hmark
        rcases hmark with rfl | rfl | rfl | rfl | rfl
        · exact .inl rfl
        · exact .inr (.inl rfl)
        · exact .inr (.inr rfl)
        · exact .inl rfl
        · exact .inl rfl
  | word w =>
      have hknown := known?_of_isAdmittedWord (hword w rfl)
      rw [lower_spelling] at hknown
      show foldExponents (spelling w) = foldExponents ((known? (lower w)).getD (lower w))
      rw [hknown, Option.getD_some]
  | other c =>
      have hletter : c.isAlpha = false := (Bool.or_eq_false_iff.1 hl).1
      exact foldExponents_eq_lower fun x hx => .inl (by rwa [List.mem_singleton.1 hx])

/-- **Texts that differ in case alone have the same canonical notation up to the letters of
exponents**, if they are admitted and no word is glued. -/
theorem foldExponents_canonical {raw raw' : Text} (h : lower raw = lower raw')
    (hglued : NoneGlued (unspelled raw)) (hadmitted : admitCharacters (canonical raw) = .ok ()) :
    foldExponents (canonical raw) = foldExponents (canonical raw') := by
  have hlist : ∀ ls : List Lexeme,
      (∀ l ∈ ls, Formed l ∧ ∀ w, l = .word w → isAdmittedWord (spelling w) = true) →
      foldExponents ((ls.map (respellOne none)).flatMap Lexeme.text) =
        (ls.map Lexeme.lower).flatMap folded := by
    intro ls hls
    induction ls with
    | nil => rfl
    | cons l ls ih =>
        obtain ⟨hformed, hword⟩ := hls l List.mem_cons_self
        rw [List.map_cons, List.flatMap_cons, List.map_cons, List.flatMap_cons,
          ← foldExponents_respellOne hformed hword,
          ← ih fun m hm => hls m (List.mem_cons_of_mem l hm)]
        exact List.map_append
  have hone : ∀ t, NoneGlued (unspelled t) → admitCharacters (canonical t) = .ok () →
      foldExponents (canonical t) = (lexemes (lower (unspelled t))).flatMap folded := by
    intro t ht hok
    rw [← flatMap_text_lexemes (canonical t), lexemes_canonical ht, lexemes_lower]
    refine hlist _ fun l hl => ⟨formed_of_mem_lexemes hl, ?_⟩
    rintro w rfl
    refine (admitCharacters_eq_ok.1 hok).2 _ ?_
    rw [words_canonical ht]
    exact List.mem_map_of_mem (List.mem_filterMap.2 ⟨_, hl, rfl⟩)
  rw [hone raw hglued hadmitted, lower_unspelled h]
  refine (hone raw' (hglued.of_lower_eq (lower_unspelled h.symm)) ?_).symm
  rw [← admitCharacters_canonical h hglued, hadmitted]

end Canonical

end DeskCalc
