import DeskCalc.Proofs.Admission.Words
import DeskCalc.Proofs.Canonical.Idempotence
import DeskCalc.Proofs.Expr.Names
import DeskCalc.Proofs.Token.Words

/-!
# Expressions are in normal form

A text that can be read has no glyphs and no percent signs, an expression has no two times signs in
a row, and names of the vocabulary are spelled as they should be. So an expression whose names have
a meaning is its own canonical notation, and it is admitted.

* `toPostfix_mul_mul`: no expression has two times signs in a row.
* `spellWords_eq_self`: a text stays as it is where its words do.
* `canonical_word`: the canonical notation of a word.
* `normal_of_toPostfix`, `admitCharacters_of_tokenize`: an expression that resolves is in normal
  form, and admitted.
-/

namespace DeskCalc

open Text Token

/-! ## Times signs -/

/-- **No expression has two times signs in a row.** -/
theorem toPostfix_mul_mul (us vs : List Token) :
    ∃ fault, toPostfix (us ++ .operator .mul :: .operator .mul :: vs) = .error fault := by
  rw [toPostfix, OperatorStack.run_append]
  cases OperatorStack.start.run _ us with
  | error fault => exact ⟨fault, rfl⟩
  | ok s =>
      refine ⟨.malformed, ?_⟩
      cases hvalue : s.afterValue with
      | true => simp [OperatorStack.run, OperatorStack.step, OperatorStack.operator, hvalue, bind,
          Except.bind]
      | false => simp [OperatorStack.run, OperatorStack.step, OperatorStack.operator, hvalue, bind,
          Except.bind]

theorem stops_star (t : Text) : Stops '*' t :=
  ⟨by decide, by decide, by decide, fun h => by simp at h⟩

namespace Canonical

/-- A text has no two stars in a row, or it can be cut before them. -/
theorem starFree_or (t : Text) : StarFree t ∨ ∃ a u, t = a ++ '*' :: '*' :: u := by
  induction t with
  | nil => exact .inl trivial
  | cons c t ih =>
      rcases ih with hfree | ⟨a, u, rfl⟩
      · by_cases hstars : c = '*' ∧ t.head? = some '*'
        · obtain ⟨rfl, hhead⟩ := hstars
          obtain ⟨u, rfl⟩ := List.head?_eq_some_iff.1 hhead
          exact .inr ⟨[], u, rfl⟩
        · exact .inl ⟨fun hc hhead => hstars ⟨hc, hhead⟩, hfree⟩
      · exact .inr ⟨c :: a, u, rfl⟩

theorem starFree_of_toPostfix {t : Text} {ts : List Token} {items : List Item}
    (htokens : tokenize t = .ok ts) (hitems : toPostfix ts = .ok items) : StarFree t := by
  refine (starFree_or t).resolve_right ?_
  rintro ⟨a, u, rfl⟩
  rw [tokenize_stop (stops_star _), tokenize_symbol rfl rfl, tokenize_symbol rfl rfl] at htokens
  obtain ⟨us, -, hrest⟩ := bind_eq_ok.1 htokens
  obtain ⟨vs, hvs, heq⟩ := bind_eq_ok.1 hrest
  cases hu : tokenize u with
  | error fault =>
      rw [hu] at hvs
      cases hvs
  | ok ws =>
      rw [hu] at hvs
      cases hvs
      cases heq
      obtain ⟨fault, hfault⟩ := toPostfix_mul_mul us ws
      rw [hfault] at hitems
      cases hitems

theorem starFree_of_ne {t : Text} (h : ∀ c ∈ t, c ≠ '*') : StarFree t := by
  refine (starFree_or t).resolve_right ?_
  rintro ⟨a, u, rfl⟩
  exact h '*' (by simp) rfl

/-! ## Glyphs and percent signs -/

/-- No glyph is admitted. -/
theorem glyphFree_of_isAdmitted {t : Text} (h : ∀ c ∈ t, isAdmitted c = true) : GlyphFree t := by
  intro c hc hglyph
  have hadmitted := h c hc
  simp only [glyphs, List.mem_cons, List.not_mem_nil, or_false] at hglyph
  rcases hglyph with rfl | rfl | rfl | rfl <;> cases hadmitted

theorem percentFree_of_ne {t : Text} (h : ∀ c ∈ t, c ≠ '%') : PercentFree t := by
  have hfree := (PercentFree.append h (t := []) trivial rfl).1
  rwa [List.append_nil] at hfree

/-! ## Words -/

theorem respell_eq_self {ls : List Lexeme} (h : ∀ w, .word w ∈ ls → spelling w = w)
    (previous : Option Char) : respell previous ls = ls := by
  induction ls generalizing previous with
  | nil => rfl
  | cons l ls ih =>
      have hl : respellOne previous l = l := by
        cases l with
        | word w =>
            have hw := h w List.mem_cons_self
            rw [respellOne, hw, ite_self]
        | numeral t => rfl
        | other c => rfl
      rw [respell, hl, ih fun w hw => h w (List.mem_cons_of_mem l hw)]

/-- A text stays as it is in the last pass, if its words are spelled as they should be. -/
theorem spellWords_eq_self {t : Text} (h : ∀ w ∈ words t, spelling w = w) : spellWords t = t := by
  have hwords : ∀ w, .word w ∈ lexemes t → spelling w = w := fun w hw =>
    h w (List.mem_filterMap.2 ⟨_, hw, rfl⟩)
  rw [spellWords, spell_eq_flatMap, respell_eq_self hwords, flatMap_text_lexemes]

theorem spelling_of_contains {name : String} (h : Vocabulary.contains name = true) :
    spelling name.toList = name.toList :=
  beq_iff_eq.1 (Vocabulary.of_contains (p := fun name => spelling name.toList == name.toList)
    (by decide) h)

end Canonical

/-- Whether a text is a word is not a matter of case. -/
theorem Text.isWord_lower (t : Text) : isWord (lower t) = isWord t := by
  cases t with
  | nil => rfl
  | cons c t =>
      have hall : (lower t).all isWordChar = t.all isWordChar := by
        rw [lower, List.all_map]
        exact congrArg t.all (funext isWordChar_toLower)
      show (startsWord c.toLower && (lower t).all isWordChar) = _
      rw [startsWord_toLower, hall, isWord]

/-- **A word by itself is brought to canonical notation by its spelling.** -/
theorem canonical_word {w : Text} (hw : isWord w = true) : canonical w = Canonical.spelling w := by
  have hchar : ∀ c ∈ w, isWordChar c = true := isWordChar_of_isWord hw
  have hglyphs : Canonical.GlyphFree w := Canonical.glyphFree_of_isAdmitted fun c hc =>
    isAdmitted_iff.2 (.inl (goesOn_of_isWordChar (hchar c hc)))
  have hpercents : Canonical.PercentFree w := Canonical.percentFree_of_ne fun c hc => by
    rintro rfl
    cases hchar _ hc
  have hstars : Canonical.StarFree w := Canonical.starFree_of_ne fun c hc => by
    rintro rfl
    cases hchar _ hc
  have hlexemes : lexemes w = [.word w] := by
    have hone := lexemes_word (t := []) hw rfl
    rwa [List.append_nil, lexemes] at hone
  rw [canonical, Canonical.replaceGlyphs_eq_self hglyphs,
    Canonical.expandPercents_eq_self hpercents, Canonical.joinStars_eq_self hstars,
    Canonical.spellWords, hlexemes]
  exact List.append_nil _

/-! ## Expressions -/

section
variable {t : Text} {ts : List Token} (htokens : tokenize t = .ok ts)
  (hnames : ∀ name, .name name ∈ ts → Vocabulary.contains name = true)
include htokens

theorem isAdmitted_of_tokenize {c : Char} (hc : c ∈ t) : isAdmitted c = true ∧ c ≠ '%' := by
  have hchar := char_of_tokenize htokens hc
  refine ⟨isAdmitted_iff.2 (hchar.imp_right (Or.imp_right .inl)), ?_⟩
  rintro rfl
  rcases hchar with hgoes | hblank | ⟨token, hsymbol⟩
  · cases hgoes
  · cases hblank
  · cases hsymbol

include hnames

theorem contains_of_mem_words {w : Text} (hw : w ∈ words t) :
    Vocabulary.contains (String.ofList w) = true := by
  rw [words_of_tokenize htokens] at hw
  obtain ⟨token, htoken, hword⟩ := List.mem_filterMap.1 hw
  cases token with
  | name name =>
      cases hword
      rw [String.ofList_toList]
      exact hnames name htoken
  | _ => cases hword

/-- A text that can be read and whose names have a meaning is admitted. -/
theorem admitCharacters_of_tokenize : admitCharacters t = .ok () := by
  refine admitCharacters_eq_ok.2 ⟨fun c hc => (isAdmitted_of_tokenize htokens hc).1, fun w hw => ?_⟩
  rw [isAdmittedWord, contains_of_mem_words htokens hnames hw, Bool.or_true]

/-- **An expression whose names have a meaning is in normal form.** -/
theorem normal_of_toPostfix {items : List Item} (hitems : toPostfix ts = .ok items) :
    Canonical.Normal t where
  glyphFree := Canonical.glyphFree_of_isAdmitted fun _ hc => (isAdmitted_of_tokenize htokens hc).1
  percentFree := Canonical.percentFree_of_ne fun _ hc => (isAdmitted_of_tokenize htokens hc).2
  starFree := Canonical.starFree_of_toPostfix htokens hitems
  spelled := by
    refine Canonical.spellWords_eq_self fun w hw => ?_
    have hspelled := Canonical.spelling_of_contains (contains_of_mem_words htokens hnames hw)
    rwa [String.toList_ofList] at hspelled

end

end DeskCalc
