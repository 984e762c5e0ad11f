import DeskCalc.Admission
import DeskCalc.Proofs.Answer.Words
import DeskCalc.Proofs.Canonical.Appending
import DeskCalc.Proofs.Canonical.Readable

/-!
# What is typed, and the tokens that it is read as

Two texts with an operator, a parenthesis or a comma between them are admitted and read one by one:
nothing that is looked for in a text, a numeral, a word, two points or the word for the last answer,
reaches across such a character.

* `Typed`, `Typed.join`: the tokens of a text in two parts.
* `Typed.separate`, `Typed.parens`: parts between parentheses and commas.
* `typed_function`, `typed_sign`: the names of functions and the operators, in every spelling.
-/

namespace DeskCalc

open Text Token Canonical

theorem isBlank_of_ofSymbol? {c : Char} {token : Token} (h : ofSymbol? c = some token) :
    isBlank c = false := by
  cases isSymbol h with
  | operator op => cases op <;> rfl
  | openParen => rfl
  | closeParen => rfl
  | comma => rfl

namespace Answer

/-- Texts with a character between them that no word goes on with are substituted one by one. -/
theorem substitute_stop {answer : Text} {c : Char} (hc : isWordChar c = false) (t u : Text) :
    substitute answer (t ++ c :: u) = substitute answer t ++ c :: substitute answer u := by
  fun_induction substitute answer t with
  | case1 =>
      rw [List.nil_append, substitute, if_neg (by rw [hc]; exact Bool.false_ne_true)]
      rfl
  | case2 d t hd run =>
      rename_i ih
      rw [List.cons_append, substitute, if_pos hd]
      simp only [takeWhile_stop hc, dropWhile_stop hc, ih, List.append_assoc]
      rfl
  | case3 d t hd ih =>
      rw [List.cons_append, substitute, if_neg hd, ih]
      rfl

/-- What is typed is admitted and is read, with the last answer in it, as the given tokens. -/
structure Typed (answer : Option Float) (raw : Text) (ts : List Token) : Prop where
  characters : admitCharacters (canonical raw) = .ok ()
  numbers : admitNumbers (canonical raw) = .ok ()
  tokens : tokenize (substitute (literal answer) (canonical raw)) = .ok ts

/-- A text in parentheses. -/
def inParens (t : Text) : Text :=
  '(' :: t ++ [')']

namespace Typed

variable {answer : Option Float} {t u : Text} {ts us : List Token}

/-- **Texts on both sides of a symbol are read one by one**, if they are brought to canonical
notation one by one. -/
theorem join (ht : Typed answer t ts) (hu : Typed answer u us) {c : Char} {token : Token}
    (hsymbol : ofSymbol? c = some token) (hstops : ∀ v, Stops c v)
    (hcanonical : canonical (t ++ c :: u) = canonical t ++ c :: canonical u) :
    Typed answer (t ++ c :: u) (ts ++ token :: us) := by
  refine ⟨?_, ?_, ?_⟩
  · obtain ⟨htchars, htwords⟩ := admitCharacters_eq_ok.1 ht.characters
    obtain ⟨huchars, huwords⟩ := admitCharacters_eq_ok.1 hu.characters
    rw [hcanonical, admitCharacters_eq_ok]
    constructor
    · intro x hx
      rcases List.mem_append.1 hx with hx | hx
      · exact htchars x hx
      · rcases List.mem_cons.1 hx with rfl | hx
        · exact isAdmitted_iff.2 (.inr (.inr (.inl ⟨token, hsymbol⟩)))
        · exact huchars x hx
    · intro w hw
      rw [words_stop (hstops _)] at hw
      rcases List.mem_append.1 hw with hw | hw
      · exact htwords w hw
      · exact huwords w hw
  · rw [hcanonical, admitNumbers_eq_ok, hasTwoPoints_stop (hstops []).ne_point,
      admitNumbers_eq_ok.1 ht.numbers, admitNumbers_eq_ok.1 hu.numbers]
    rfl
  · rw [hcanonical, substitute_stop (hstops []).not_wordChar, tokenize_stop (hstops _), ht.tokens,
      tokenize_symbol (isBlank_of_ofSymbol? hsymbol) hsymbol, hu.tokens]
    rfl

/-- **Parentheses and commas can stand between any two texts**, for they are no times signs. -/
theorem separate (ht : Typed answer t ts) (hu : Typed answer u us) {c : Char} {token : Token}
    (hsymbol : ofSymbol? c = some token) (hc : c ∈ ['(', ')', ',']) :
    Typed answer (t ++ c :: u) (ts ++ token :: us) := by
  have hother : c ∉ glyphs ∧ c ≠ '%' ∧ c ≠ '*' ∧ ¬ (c = '+' ∨ c = '-') := by
    simp only [List.mem_cons, List.not_mem_nil, or_false] at hc
    rcases hc with rfl | rfl | rfl <;> decide
  obtain ⟨hglyph, hpercent, hstar, hsign⟩ := hother
  have hstops := stops_of_ofSymbol? hsymbol hsign
  exact ht.join hu hsymbol hstops (canonical_stop hglyph hpercent hstops (fun h => absurd h hstar)
    fun h => absurd h hstar)

/-- A text whose canonical notation is read as it is, with all names in the vocabulary, is admitted.
-/
theorem of_tokenize {raw : Text} (hcanonical : canonical raw = t) (hread : tokenize t = .ok ts)
    (hnames : ∀ name, .name name ∈ ts → Vocabulary.contains name = true)
    (hletter : ∀ c ∈ t, c ≠ 'A') : Typed answer raw ts := by
  subst hcanonical
  refine ⟨admitCharacters_of_tokenize hread hnames, ?_, ?_⟩
  · rw [admitNumbers_eq_ok]
    exact hasTwoPoints_of_tokenize hread
  · rw [substitute_eq_self hletter, hread]

theorem nil (answer : Option Float) : Typed answer [] [] :=
  of_tokenize (t := []) (by decide +kernel) (by rw [tokenize]) (fun _ h => by cases h) fun _ h => by
    cases h

/-- A text in parentheses between two others. -/
theorem parens_append (ht : Typed answer t ts) (hu : Typed answer u us) {v : Text} {vs : List Token}
    (hv : Typed answer v vs) :
    Typed answer (t ++ inParens u ++ v) (ts ++ .openParen :: us ++ .closeParen :: vs) := by
  have hinside := hu.separate hv (c := ')') rfl (by decide)
  have hboth := ht.separate hinside (c := '(') rfl (by decide)
  simpa [inParens] using hboth

/-- A text in parentheses behind another one. -/
theorem parens (ht : Typed answer t ts) (hu : Typed answer u us) :
    Typed answer (t ++ inParens u) (ts ++ .openParen :: us ++ [.closeParen]) := by
  have happend := ht.parens_append hu (nil answer)
  rwa [List.append_nil] at happend

end Typed

/-! ## Names and operators -/

/-- A text that is brought to a name of the vocabulary is read as this name. -/
theorem typed_name {raw : Text} {name : String} (hname : Vocabulary.contains name = true)
    (hcanonical : canonical raw = name.toList) (answer : Option Float) :
    Typed answer raw [.name name] := by
  have hword : isWord name.toList = true :=
    Vocabulary.of_contains (p := fun name => isWord name.toList) (by decide) hname
  have hread : tokenize name.toList = .ok [.name name] := by
    have happend := tokenize_word_append hword (t := []) rfl
    rw [List.append_nil, tokenize, String.ofList_toList] at happend
    exact happend
  refine .of_tokenize hcanonical hread ?_ ?_
  · intro other hother
    cases List.mem_singleton.1 hother
    exact hname
  · rintro c hc rfl
    exact Vocabulary.not_mem_of_contains hname hc

/-- The spelling of the name of a function is its lower case. -/
theorem spelling_of_isFunction {f : Text}
    (h : Vocabulary.isFunction (String.ofList (lower f)) = true) : spelling f = lower f := by
  have hother : ∀ w, Vocabulary.isFunction (String.ofList w) = false → lower f ≠ w := by
    rintro w hw rfl
    rw [h] at hw
    cases hw
  rw [spelling, if_neg (hother _ (by decide)), if_neg (hother _ (by decide)),
    if_neg (hother _ (by decide)), Vocabulary.functionName?, if_pos h]
  rfl

/-- **The name of a function is read in any case.** -/
theorem typed_function {f : Text} (h : Vocabulary.isFunction (String.ofList (lower f)) = true)
    (answer : Option Float) : Typed answer f [.name (String.ofList (lower f))] := by
  have hcontains := Vocabulary.contains_of_isFunction h
  have hword : isWord f = true := by
    have hlower :=
      Vocabulary.of_contains (p := fun name => isWord name.toList) (by decide) hcontains
    rwa [String.toList_ofList, isWord_lower] at hlower
  refine typed_name hcontains ?_ answer
  rw [canonical_word hword, spelling_of_isFunction h, String.toList_ofList]

end Answer

/-- What can be typed for an operator: its character, a glyph of the keyboard, or two stars. -/
def Operator.signs : Operator → List Text
  | .add => [['+']]
  | .sub => [['-'], ['−']]
  | .mul => [['*'], ['×']]
  | .div => [['/'], ['÷']]
  | .pow => [['^'], ['*', '*']]

/-- Each of them is brought to the character of the operator. -/
theorem Answer.typed_sign {op : Operator} {sign : Text} (h : sign ∈ op.signs)
    (answer : Option Float) : Typed answer sign [.operator op] := by
  have hcanonical : canonical sign = [op.symbol] := by
    have hall : ∀ op : Operator, ∀ sign ∈ op.signs, canonical sign = [op.symbol] := by
      intro op
      cases op <;> decide +kernel
    exact hall op sign h
  have hsymbol : ofSymbol? op.symbol = some (.operator op) := by
    cases op <;> rfl
  have hread : tokenize [op.symbol] = .ok [.operator op] := by
    rw [tokenize_symbol (isBlank_of_ofSymbol? hsymbol) hsymbol, tokenize]
    rfl
  refine .of_tokenize hcanonical hread ?_ ?_
  · intro name hname
    cases List.mem_singleton.1 hname
  · intro c hc
    rw [List.mem_singleton.1 hc]
    cases op <;> decide

end DeskCalc
