import DeskCalc.Admission
import DeskCalc.Proofs.Token.Cut

/-!
# Words and names

The canonical notation finds the words of a text with one scanner and the tokenizer its names with
another. They know different digits, and a numeral of the first need not be a number of the second.
But a text that can be read has none of the characters and numbers on which they differ, and so both
cut it at the same places.

* `char_of_tokenize`: the characters of a text that can be read.
* `splitNumeral_of_isMantissa`: a number that can be read is a numeral.
* `Finds.lexemes_eq`: what a step reads is one lexeme.
* `words_of_tokenize`: the words are the names.
* `hasTwoPoints_of_tokenize`: no two points follow one another.
-/

namespace DeskCalc

open Text

namespace Token

/-! ## Characters -/

/-- A character that a step reads goes on with a number or a word, or it is a blank or a symbol. -/
theorem Finds.char_of_mem {c x : Char} {t u rest : Text} {token? : Option Token}
    (h : Finds c t token? u rest) (hx : x ∈ u) :
    goesOn x = true ∨ isBlank x = true ∨ ∃ token, ofSymbol? x = some token := by
  cases h with
  | blank hblank =>
      rw [List.mem_singleton.1 hx]
      exact .inr (.inl hblank)
  | symbol hblank hsymbol =>
      rw [List.mem_singleton.1 hx]
      exact .inr (.inr ⟨_, hsymbol⟩)
  | word hword =>
      exact .inl (goesOn_of_isWordChar (of_mem_run (isWordChar_of_startsWord hword) hx))
  | number hnumber hmantissa =>
      rcases List.mem_append.1 hx with hrun | hexponent
      · exact .inl (goesOn_of_isMantissaChar (of_mem_takeWhile hrun))
      · rcases mem_splitExponent hexponent with hdigit | hmark
        · exact .inl (goesOn_of_isWordChar (isWordChar_of_isDigit hdigit))
        · simp only [List.mem_cons, List.not_mem_nil, or_false] at hmark
          rcases hmark with rfl | rfl | rfl | rfl
          · exact .inl rfl
          · exact .inl rfl
          · exact .inr (.inr ⟨_, rfl⟩)
          · exact .inr (.inr ⟨_, rfl⟩)

theorem char_of_tokenize {t : Text} {ts : List Token} (h : tokenize t = .ok ts) {x : Char}
    (hx : x ∈ t) : goesOn x = true ∨ isBlank x = true ∨ ∃ token, ofSymbol? x = some token := by
  induction t using scan_induction generalizing ts with
  | nil => cases hx
  | step c t ih =>
      obtain ⟨token?, us, hscan, hrest, -⟩ := tokenize_cons_eq_ok h
      have hscans := scans c t
      rw [← hscans.append.2] at hx
      rcases List.mem_append.1 hx with hread | hlater
      · exact (finds hscan).char_of_mem hread
      · exact ih hrest hlater

/-- The digits among such characters are those of ASCII. -/
theorem isDecimalDigit_eq_isDigit {x : Char}
    (h : goesOn x = true ∨ isBlank x = true ∨ ∃ token, ofSymbol? x = some token) :
    isDecimalDigit x = x.isDigit := by
  have hnone : isDecimalDigit x = false → isDecimalDigit x = x.isDigit := by
    intro hdecimal
    rw [hdecimal, eq_comm, ← Bool.not_eq_true]
    intro hdigit
    rw [isDecimalDigit_of_isDigit hdigit] at hdecimal
    cases hdecimal
  rcases h with hgoes | hblank | ⟨token, hsymbol⟩
  · rw [goesOn_iff, Char.isAlphanum, Bool.or_eq_true] at hgoes
    rcases hgoes with (hletter | hdigit) | rfl | rfl
    · refine hnone (isDecimalDigit_of_startsWord ?_)
      rw [startsWord, hletter, Bool.true_or]
    · rw [hdigit, isDecimalDigit_of_isDigit hdigit]
    · rfl
    · rfl
  · exact hnone (isDecimalDigit_of_isBlank hblank)
  · exact hnone (isDecimalDigit_of_ofSymbol? hsymbol)

/-- The digits of a text that can be read are those of ASCII. -/
theorem isDigit_of_tokenize {t : Text} {ts : List Token} (h : tokenize t = .ok ts) {x : Char}
    (hx : x ∈ t) : isDecimalDigit x = x.isDigit :=
  isDecimalDigit_eq_isDigit (char_of_tokenize h hx)

/-! ## Numbers -/

/-- A mantissa is a run of digits, or two with a point between them. -/
theorem isMantissa_cases {run : Text} (hrun : ∀ x ∈ run, isMantissaChar x = true)
    (h : isMantissa run = true) :
    (run ≠ [] ∧ ∀ x ∈ run, x.isDigit = true) ∨
      ∃ whole fraction, run = whole ++ '.' :: fraction ∧ whole ++ fraction ≠ [] ∧
        (∀ x ∈ whole, x.isDigit = true) ∧ ∀ x ∈ fraction, x.isDigit = true := by
  have hdigit : ∀ x ∈ run, x ≠ '.' → x.isDigit = true := by
    intro x hx hne
    have hchar := hrun x hx
    rw [isMantissaChar, Bool.or_eq_true, beq_iff_eq] at hchar
    exact hchar.resolve_right hne
  rw [isMantissa, Bool.and_eq_true, decide_eq_true_eq, List.any_eq_true] at h
  obtain ⟨hcount, d, hd, hdigit_d⟩ := h
  by_cases hpoint : '.' ∈ run
  · right
    obtain ⟨whole, fraction, rfl⟩ := List.append_of_mem hpoint
    rw [List.count_append, List.count_cons_self] at hcount
    have hwhole : '.' ∉ whole := List.count_eq_zero.1 (by omega)
    have hfraction : '.' ∉ fraction := List.count_eq_zero.1 (by omega)
    refine ⟨whole, fraction, rfl, ?_, ?_, ?_⟩
    · intro hnil
      obtain ⟨rfl, rfl⟩ := List.append_eq_nil_iff.1 hnil
      rw [List.mem_singleton.1 hd] at hdigit_d
      cases hdigit_d
    · exact fun x hx => hdigit x (List.mem_append_left _ hx) fun heq => hwhole (heq ▸ hx)
    · exact fun x hx => hdigit x (List.mem_append_right _ (List.mem_cons_of_mem _ hx))
        fun heq => hfraction (heq ▸ hx)
  · exact .inl ⟨List.ne_nil_of_mem hd, fun x hx => hdigit x hx fun heq => hpoint (heq ▸ hx)⟩

theorem splitMantissa_of_isMantissa {t : Text} (hdigits : ∀ x ∈ t, isDecimalDigit x = x.isDigit)
    (h : isMantissa (t.takeWhile isMantissaChar) = true) :
    splitMantissa t = (t.takeWhile isMantissaChar, t.dropWhile isMantissaChar) := by
  have happend := List.takeWhile_append_dropWhile (p := isMantissaChar) (l := t)
  have hstop := head?_dropWhile_any isMantissaChar t
  have hrun : ∀ x ∈ t.takeWhile isMantissaChar, isMantissaChar x = true := fun x => of_mem_takeWhile
  rw [← happend] at hdigits
  conv => lhs; rw [← happend]
  generalize t.takeWhile isMantissaChar = run at *
  generalize t.dropWhile isMantissaChar = rest at *
  have hdecimal : rest.head?.any isDecimalDigit = false := by
    cases rest with
    | nil => rfl
    | cons c rest =>
        have hc : isMantissaChar c = false := hstop
        rw [isMantissaChar, Bool.or_eq_false_iff] at hc
        exact (hdigits c (by simp)).trans hc.1
  have hpoint : rest.head? ≠ some '.' := by
    intro hhead
    rw [hhead] at hstop
    cases hstop
  rcases isMantissa_cases hrun h with ⟨-, hall⟩ | ⟨whole, fraction, rfl, hsome, hwhole, hfraction⟩
  · exact splitMantissa_digits
      (fun x hx => (hdigits x (List.mem_append_left rest hx)).trans (hall x hx)) hdecimal hpoint
  · rw [List.append_assoc, List.cons_append]
    refine splitMantissa_point ?_ ?_ hsome hdecimal
    · exact fun x hx => (hdigits x (by simp [hx])).trans (hwhole x hx)
    · exact fun x hx => (hdigits x (by simp [hx])).trans (hfraction x hx)

/-- A number that can be read is a numeral, if its digits are those of ASCII. -/
theorem splitNumeral_of_isMantissa {t : Text}
    (hdigits : ∀ x ∈ t, isDecimalDigit x = x.isDigit)
    (h : isMantissa (t.takeWhile isMantissaChar) = true) :
    splitNumeral t =
      (t.takeWhile isMantissaChar ++ (splitExponent Char.isDigit (t.dropWhile isMantissaChar)).1,
        (splitExponent Char.isDigit (t.dropWhile isMantissaChar)).2) := by
  have hexponent : splitExponent isDecimalDigit (t.dropWhile isMantissaChar) =
      splitExponent Char.isDigit (t.dropWhile isMantissaChar) :=
    splitExponent_congr fun x hx => hdigits x ((List.dropWhile_sublist isMantissaChar).subset hx)
  have hsome : (t.takeWhile isMantissaChar).isEmpty = false := by
    rw [← Bool.not_eq_true, List.isEmpty_iff]
    intro hnil
    rw [hnil] at h
    cases h
  simp only [splitNumeral, splitMantissa_of_isMantissa hdigits h, hexponent, hsome,
    Bool.false_eq_true, if_false]

/-- What a step reads of a number is the numeral at the front of the text. -/
theorem Finds.splitNumeral_eq {c : Char} {t u rest : Text} {x : Float}
    (h : Finds c t (some (.number x)) u rest)
    (hdigits : ∀ y ∈ c :: t, isDecimalDigit y = y.isDigit) : splitNumeral (c :: t) = (u, rest) := by
  cases h with
  | symbol hblank hsymbol => cases isSymbol hsymbol
  | number hnumber hmantissa => exact splitNumeral_of_isMantissa hdigits hmantissa

/-! ## Words -/

/-- The text of a name, nothing for other tokens. -/
def word? : Token → Option Text
  | .name w => some w.toList
  | _ => none

/-- **What a step reads is one lexeme**, which is a word if it is a name. -/
theorem Finds.lexemes_eq {c : Char} {t u rest : Text} {token? : Option Token}
    (h : Finds c t token? u rest) (hdigits : ∀ x ∈ c :: t, isDecimalDigit x = x.isDigit) :
    ∃ l : Lexeme, lexemes (c :: t) = l :: lexemes rest ∧ l.text = u ∧
      l.word? = token?.bind word? := by
  -- A blank or a symbol is a lexeme, but no word.
  have hother : goesOn c = false → isDecimalDigit c = false →
      lexemes (c :: t) = .other c :: lexemes t := by
    intro hgoes hdecimal
    have hnone := Bool.or_eq_false_iff.1 hgoes
    have hpoint : c ≠ '.' := by simpa using hnone.2
    have hstarts : startsWord c = false := by
      rw [← Bool.not_eq_true]
      intro hstarts
      rw [isWordChar_of_startsWord hstarts] at hnone
      cases hnone.1
    rw [lexemes]
    simp only [splitNumeral_of_head hdecimal hpoint, List.isEmpty_nil, hstarts, if_true,
      Bool.false_eq_true, if_false]
  cases h with
  | blank hblank =>
      exact ⟨_, hother (goesOn_of_isBlank hblank) (isDecimalDigit_of_isBlank hblank), rfl, rfl⟩
  | symbol hblank hsymbol =>
      refine ⟨_, hother (goesOn_of_ofSymbol? hsymbol) (isDecimalDigit_of_ofSymbol? hsymbol), rfl,
        ?_⟩
      cases isSymbol hsymbol <;> rfl
  | word hword =>
      have hpoint : c ≠ '.' := by
        rintro rfl
        cases hword
      refine ⟨.word (c :: t.takeWhile isWordChar), ?_, rfl, by simp [Lexeme.word?, word?]⟩
      rw [lexemes]
      simp only [splitNumeral_of_head (isDecimalDigit_of_startsWord hword) hpoint, List.isEmpty_nil,
        hword, if_true]
  | number hnumber hmantissa =>
      have hsplit := splitNumeral_of_isMantissa hdigits hmantissa
      have hsome : (splitNumeral (c :: t)).1.isEmpty = false := by
        rw [hsplit, List.takeWhile_cons_of_pos hnumber]
        rfl
      refine ⟨.numeral (splitNumeral (c :: t)).1, ?_, congrArg Prod.fst hsplit, rfl⟩
      rw [lexemes]
      simp only [hsome, Bool.false_eq_true, if_false]
      rw [hsplit]

/-- The words of what a step reads are its name. -/
theorem Finds.words_eq {c : Char} {t u rest : Text} {token? : Option Token}
    (h : Finds c t token? u rest) (hdigits : ∀ x ∈ c :: t, isDecimalDigit x = x.isDigit) :
    words (c :: t) = token?.toList.filterMap word? ++ words rest := by
  obtain ⟨l, hlexemes, -, hword⟩ := h.lexemes_eq hdigits
  rw [words, hlexemes, List.filterMap_cons, hword]
  cases token? with
  | none => rfl
  | some token => cases token <;> rfl

/-- **The words of a text that can be read are its names**, in the same order. -/
theorem words_of_tokenize {t : Text} {ts : List Token} (h : tokenize t = .ok ts) :
    words t = ts.filterMap word? := by
  have hdigits : ∀ x ∈ t, isDecimalDigit x = x.isDigit := fun x => isDigit_of_tokenize h
  induction t using scan_induction generalizing ts with
  | nil =>
      rw [tokenize] at h
      cases h
      simp [words, lexemes]
  | step c t ih =>
      obtain ⟨token?, us, hscan, hrest, rfl⟩ := tokenize_cons_eq_ok h
      have hlater : ∀ x ∈ (scan c t).2, isDecimalDigit x = x.isDigit :=
        fun x => isDigit_of_tokenize hrest
      rw [(finds hscan).words_eq hdigits, ih hrest hlater, List.filterMap_append]

/-! ## Points -/

theorem hasTwoPoints_cons (c : Char) (t : Text) :
    hasTwoPoints (c :: t) = (c == '.' && t.head? == some '.' || hasTwoPoints t) := by
  by_cases hc : c = '.'
  · subst hc
    cases t with
    | nil => rfl
    | cons d t =>
        by_cases hd : d = '.'
        · subst hd
          rfl
        · simp [hasTwoPoints, hd]
  · simp [hasTwoPoints, hc]

/-- No two points follow one another across a character that is none. -/
theorem hasTwoPoints_stop {c : Char} (hc : c ≠ '.') (t u : Text) :
    hasTwoPoints (t ++ c :: u) = (hasTwoPoints t || hasTwoPoints u) := by
  induction t with
  | nil =>
      rw [List.nil_append, hasTwoPoints_cons, beq_false_of_ne hc]
      rfl
  | cons d t ih =>
      have hhead : ((t ++ c :: u).head? == some '.') = (t.head? == some '.') := by
        cases t with
        | nil => simpa using hc
        | cons x t => rfl
      rw [List.cons_append, hasTwoPoints_cons, hasTwoPoints_cons, hhead, ih, Bool.or_assoc]

/-- A text with one point at most brings no two together in front of another, unless it ends in its
point and the other starts with one. -/
theorem hasTwoPoints_append {u t : Text} (hcount : u.count '.' ≤ 1)
    (hend : u.getLast? = some '.' → t.head? ≠ some '.') :
    hasTwoPoints (u ++ t) = hasTwoPoints t := by
  induction u with
  | nil => rfl
  | cons c u ih =>
      rw [List.count_cons] at hcount
      have hrest : hasTwoPoints (u ++ t) = hasTwoPoints t := by
        refine ih (by omega) fun hlast => hend ?_
        rw [List.getLast?_cons, hlast]
        rfl
      have hhead : (c == '.' && (u ++ t).head? == some '.') = false := by
        rw [Bool.and_eq_false_iff, beq_eq_false_iff_ne, beq_eq_false_iff_ne]
        by_cases hc : c = '.'
        · subst hc
          right
          cases u with
          | nil => exact hend rfl
          | cons d u =>
              rintro ⟨rfl⟩
              simp at hcount
        · exact .inl hc
      rw [List.cons_append, hasTwoPoints_cons, hhead, hrest, Bool.false_or]

/-- A step reads one point at most, and leaves none behind one. -/
theorem Finds.points {c : Char} {t u rest : Text} {token? : Option Token}
    (h : Finds c t token? u rest) :
    u.count '.' ≤ 1 ∧ (u.getLast? = some '.' → rest.head? ≠ some '.') := by
  have hnone : ∀ {u : Text}, '.' ∉ u →
      u.count '.' ≤ 1 ∧ (u.getLast? = some '.' → rest.head? ≠ some '.') := by
    intro u hu
    rw [List.count_eq_zero.2 hu]
    exact ⟨Nat.zero_le 1, fun hlast => absurd (List.mem_of_getLast? hlast) hu⟩
  cases h with
  | blank hblank =>
      refine hnone fun hpoint => ?_
      rw [← List.mem_singleton.1 hpoint] at hblank
      cases hblank
  | symbol hblank hsymbol =>
      refine hnone fun hpoint => ?_
      rw [← List.mem_singleton.1 hpoint] at hsymbol
      cases hsymbol
  | word hword =>
      refine hnone fun hpoint => ?_
      rcases List.mem_cons.1 hpoint with rfl | hpoint
      · cases hword
      · cases of_mem_takeWhile hpoint
  | number hnumber hmantissa =>
      rw [isMantissa, Bool.and_eq_true, decide_eq_true_eq] at hmantissa
      have hexponent : '.' ∉
          (splitExponent Char.isDigit ((c :: t).dropWhile isMantissaChar)).1 := by
        intro hpoint
        rcases mem_splitExponent hpoint with hdigit | hmark
        · cases hdigit
        · exact absurd hmark (by decide)
      rw [List.count_append, List.count_eq_zero.2 hexponent]
      refine ⟨hmantissa.1, fun hlast hhead => ?_⟩
      by_cases hnil : (splitExponent Char.isDigit ((c :: t).dropWhile isMantissaChar)).1 = []
      -- Without an exponent the digits and points go on as far as they can.
      · have happend := splitExponent_append Char.isDigit ((c :: t).dropWhile isMantissaChar)
        rw [hnil, List.nil_append] at happend
        have hstop := head?_dropWhile_any isMantissaChar (c :: t)
        rw [← happend, hhead] at hstop
        cases hstop
      · obtain ⟨v, d, hd, hv⟩ := splitExponent_ends hnil
        rw [hv, ← List.append_assoc, List.getLast?_concat] at hlast
        rw [Option.some.inj hlast] at hd
        cases hd

/-- **No two points follow one another** in a text that can be read. -/
theorem hasTwoPoints_of_tokenize {t : Text} {ts : List Token} (h : tokenize t = .ok ts) :
    hasTwoPoints t = false := by
  induction t using scan_induction generalizing ts with
  | nil => rfl
  | step c t ih =>
      obtain ⟨token?, us, hscan, hrest, -⟩ := tokenize_cons_eq_ok h
      obtain ⟨hcount, hend⟩ := (finds hscan).points
      rw [← (scans c t).append.2, hasTwoPoints_append hcount hend]
      exact ih hrest

end Token

end DeskCalc
