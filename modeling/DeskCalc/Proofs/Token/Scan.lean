import DeskCalc.Proofs.Text.Numeral
import DeskCalc.Token.Lexer

/-!
# Reading a text token by token

`tokenize` repeats one step: `scan` reads what stands at the front of a text, a token or a blank,
and leaves the text after it. With the step told by itself, a tokenizer that also remembers where
each token stands is the same repetition with more to carry.

* `tokenize_cons`: tokenizing is scanning again and again.
* `Scans`, `scans`: what a step can do.
* `Finds`, `finds`: what it finds if it does not fail.
* `locate`, `map_snd_locate`, `of_mem_locate`: the tokens with the texts in front of them.
-/

namespace DeskCalc

open Text

/-! ## Computations that can fail -/

section
variable {ε α β : Type} {r : Except ε α} {f : α → Except ε β}

theorem bind_eq_ok {y : β} : r >>= f = .ok y ↔ ∃ x, r = .ok x ∧ f x = .ok y := by
  cases r with
  | error fault => exact ⟨fun h => (by cases h), fun ⟨x, h, _⟩ => (by cases h)⟩
  | ok x =>
      refine ⟨fun h => ⟨x, rfl, h⟩, ?_⟩
      rintro ⟨x', ⟨⟩, h⟩
      exact h

theorem eq_ok_of_toOption {x : α} (h : r.toOption = some x) : r = .ok x := by
  cases r with
  | error fault => cases h
  | ok y =>
      cases h
      rfl

theorem toOption_bind (r : Except ε α) (f : α → Except ε β) :
    (r >>= f).toOption = r.toOption.bind fun x => (f x).toOption := by
  cases r <;> rfl

theorem bind_eq_error {fault : ε} :
    r >>= f = .error fault ↔ r = .error fault ∨ ∃ x, r = .ok x ∧ f x = .error fault := by
  cases r with
  | error found =>
      constructor
      · intro h
        cases h
        exact .inl rfl
      · rintro (⟨⟨⟩⟩ | ⟨x, ⟨⟩, -⟩)
        rfl
  | ok x =>
      refine ⟨fun h => .inr ⟨x, rfl, h⟩, ?_⟩
      rintro (⟨⟨⟩⟩ | ⟨x', ⟨⟩, h⟩)
      exact h

end

namespace Token

/-! ## Steps -/

/-- One step of reading the text `c :: t`: the token at its front, none for a blank, and the text
after it. -/
def scan (c : Char) (t : Text) : Except Fault (Option Token) × Text :=
  if isBlank c then (.ok none, t)
  else match ofSymbol? c with
    | some token => (.ok (some token), t)
    | none =>
      if startsWord c then
        (.ok (some (.name (String.ofList (c :: t.takeWhile isWordChar)))), t.dropWhile isWordChar)
      else if isMantissaChar c then ((scanNumber (c :: t)).1.map some, (scanNumber (c :: t)).2)
      else (.error (.unexpectedChar c), t)

/-- The symbols: the operators, the parentheses and the comma. -/
inductive IsSymbol : Char → Token → Prop
  | operator (op : Operator) : IsSymbol op.symbol (.operator op)
  | openParen : IsSymbol '(' .openParen
  | closeParen : IsSymbol ')' .closeParen
  | comma : IsSymbol ',' .comma

theorem isSymbol {c : Char} {token : Token} (h : ofSymbol? c = some token) : IsSymbol c token := by
  unfold ofSymbol? at h
  split at h
  all_goals cases h
  · exact .openParen
  · exact .closeParen
  · exact .comma
  · exact .operator .add
  · exact .operator .sub
  · exact .operator .mul
  · exact .operator .div
  · exact .operator .pow

/-- **Tokenizing is scanning again and again.** -/
theorem tokenize_cons (c : Char) (t : Text) :
    tokenize (c :: t) = do
      let token? ← (scan c t).1
      let tokens ← tokenize (scan c t).2
      return token?.toList ++ tokens := by
  rw [tokenize, scan]
  by_cases hblank : isBlank c = true
  · rw [if_pos hblank, if_pos hblank]
    cases tokenize t <;> rfl
  · rw [if_neg hblank, if_neg hblank]
    cases ofSymbol? c with
    | some token => rfl
    | none =>
        by_cases hword : startsWord c = true
        · simp only [if_pos hword]
          rfl
        · by_cases hnumber : isMantissaChar c = true
          · simp only [if_neg hword, if_pos hnumber]
            cases (scanNumber (c :: t)).1 <;> rfl
          · simp only [if_neg hword, if_neg hnumber]
            rfl

theorem snd_scanNumber (t : Text) :
    (scanNumber t).2 = (splitExponent Char.isDigit (t.dropWhile isMantissaChar)).2 := by
  simp only [scanNumber]
  split <;> rfl

section
variable {c : Char} (hblank : isBlank c = false)
include hblank

theorem scan_symbol {token : Token} (hsymbol : ofSymbol? c = some token) (t : Text) :
    scan c t = (.ok (some token), t) := by
  rw [scan, hblank, if_neg Bool.false_ne_true, hsymbol]

variable (hsymbol : ofSymbol? c = none)
include hsymbol

theorem scan_word (hword : startsWord c = true) (t : Text) :
    scan c t = (.ok (some (.name (String.ofList (c :: t.takeWhile isWordChar)))),
      t.dropWhile isWordChar) := by
  rw [scan, hblank, if_neg Bool.false_ne_true, hsymbol]
  exact if_pos hword

variable (hword : startsWord c = false)
include hword

theorem scan_number (hnumber : isMantissaChar c = true) (t : Text) :
    scan c t = ((scanNumber (c :: t)).1.map some, (scanNumber (c :: t)).2) := by
  rw [scan, hblank, if_neg Bool.false_ne_true, hsymbol]
  simp only [hword, hnumber, Bool.false_eq_true, if_false, if_true]

theorem scan_unexpected (hnumber : isMantissaChar c = false) (t : Text) :
    scan c t = (.error (.unexpectedChar c), t) := by
  rw [scan, hblank, if_neg Bool.false_ne_true, hsymbol]
  simp only [hword, hnumber, Bool.false_eq_true, if_false]

end

/-- What a step at `c :: t` can do: what it finds, what it reads and what it leaves. -/
inductive Scans (c : Char) (t : Text) : Except Fault (Option Token) → Text → Text → Prop
  | blank (hblank : isBlank c = true) : Scans c t (.ok none) [c] t
  | symbol {token : Token} (hblank : isBlank c = false) (hsymbol : ofSymbol? c = some token) :
      Scans c t (.ok (some token)) [c] t
  | word (hblank : isBlank c = false) (hsymbol : ofSymbol? c = none)
      (hword : startsWord c = true) :
      Scans c t (.ok (some (.name (String.ofList (c :: t.takeWhile isWordChar)))))
        (c :: t.takeWhile isWordChar) (t.dropWhile isWordChar)
  | number (hblank : isBlank c = false) (hsymbol : ofSymbol? c = none)
      (hword : startsWord c = false) (hnumber : isMantissaChar c = true) :
      Scans c t ((scanNumber (c :: t)).1.map some)
        ((c :: t).takeWhile isMantissaChar ++
          (splitExponent Char.isDigit ((c :: t).dropWhile isMantissaChar)).1)
        (scanNumber (c :: t)).2
  | unexpected (hblank : isBlank c = false) (hsymbol : ofSymbol? c = none)
      (hword : startsWord c = false) (hnumber : isMantissaChar c = false) :
      Scans c t (.error (.unexpectedChar c)) [c] t

/-- What a step reads and what it leaves make up the text, and it reads something. -/
theorem Scans.append {c : Char} {t u rest : Text} {found : Except Fault (Option Token)}
    (h : Scans c t found u rest) : u ≠ [] ∧ u ++ rest = c :: t := by
  cases h with
  | blank hblank => exact ⟨List.cons_ne_nil c [], rfl⟩
  | symbol hblank hsymbol => exact ⟨List.cons_ne_nil c [], rfl⟩
  | word hblank hsymbol hword =>
      refine ⟨List.cons_ne_nil c _, ?_⟩
      rw [List.cons_append, List.takeWhile_append_dropWhile]
  | number hblank hsymbol hword hnumber =>
      constructor
      · simp [List.takeWhile_cons_of_pos hnumber]
      · rw [snd_scanNumber, List.append_assoc, splitExponent_append,
          List.takeWhile_append_dropWhile]
  | unexpected hblank hsymbol hword hnumber => exact ⟨List.cons_ne_nil c [], rfl⟩

theorem exists_scans (c : Char) (t : Text) : ∃ u, Scans c t (scan c t).1 u (scan c t).2 := by
  cases hblank : isBlank c with
  | true =>
      rw [scan, if_pos hblank]
      exact ⟨[c], .blank hblank⟩
  | false =>
      cases hsymbol : ofSymbol? c with
      | some token =>
          rw [scan_symbol hblank hsymbol]
          exact ⟨[c], .symbol hblank hsymbol⟩
      | none =>
          cases hword : startsWord c with
          | true =>
              rw [scan_word hblank hsymbol hword]
              exact ⟨_, .word hblank hsymbol hword⟩
          | false =>
              cases hnumber : isMantissaChar c with
              | true =>
                  rw [scan_number hblank hsymbol hword hnumber]
                  exact ⟨_, .number hblank hsymbol hword hnumber⟩
              | false =>
                  rw [scan_unexpected hblank hsymbol hword hnumber]
                  exact ⟨[c], .unexpected hblank hsymbol hword hnumber⟩

/-- What a step reads of the text `c :: t`. -/
def scanned (c : Char) (t : Text) : Text :=
  (c :: t).take ((c :: t).length - (scan c t).2.length)

/-- **A step finds, reads and leaves** what its first character decides. -/
theorem scans (c : Char) (t : Text) : Scans c t (scan c t).1 (scanned c t) (scan c t).2 := by
  obtain ⟨u, h⟩ := exists_scans c t
  have happend := h.append.2
  have hlength := congrArg List.length happend
  rw [List.length_append] at hlength
  have hread : scanned c t = u := by
    rw [scanned, ← hlength, Nat.add_sub_cancel, ← happend, List.take_left]
  rwa [hread]

/-- What a step finds that does not fail, with what it reads and what it leaves. -/
inductive Finds (c : Char) (t : Text) : Option Token → Text → Text → Prop
  | blank (hblank : isBlank c = true) : Finds c t none [c] t
  | symbol {token : Token} (hblank : isBlank c = false) (hsymbol : ofSymbol? c = some token) :
      Finds c t (some token) [c] t
  | word (hword : startsWord c = true) :
      Finds c t (some (.name (String.ofList (c :: t.takeWhile isWordChar))))
        (c :: t.takeWhile isWordChar) (t.dropWhile isWordChar)
  | number (hnumber : isMantissaChar c = true)
      (hmantissa : isMantissa ((c :: t).takeWhile isMantissaChar) = true) :
      Finds c t (some (.number (Decimal.read ((c :: t).takeWhile isMantissaChar)
          (exponentValue (splitExponent Char.isDigit ((c :: t).dropWhile isMantissaChar)).1))))
        ((c :: t).takeWhile isMantissaChar ++
          (splitExponent Char.isDigit ((c :: t).dropWhile isMantissaChar)).1)
        (splitExponent Char.isDigit ((c :: t).dropWhile isMantissaChar)).2

theorem Scans.finds {c : Char} {t u rest : Text} {found : Except Fault (Option Token)}
    (h : Scans c t found u rest) {token? : Option Token} (hfound : found = .ok token?) :
    Finds c t token? u rest := by
  cases h with
  | blank hblank =>
      cases hfound
      exact .blank hblank
  | symbol hblank hsymbol =>
      cases hfound
      exact .symbol hblank hsymbol
  | word hblank hsymbol hword =>
      cases hfound
      exact .word hword
  | number hblank hsymbol hword hnumber =>
      rw [snd_scanNumber]
      simp only [scanNumber] at hfound
      split at hfound
      · rename_i hmantissa
        cases hfound
        exact .number hnumber hmantissa
      · cases hfound
  | unexpected hblank hsymbol hword hnumber => cases hfound

theorem finds {c : Char} {t : Text} {token? : Option Token} (h : (scan c t).1 = .ok token?) :
    Finds c t token? (scanned c t) (scan c t).2 :=
  (scans c t).finds h

/-- A number ends in a digit or in a point. -/
theorem number_ends {c : Char} (t : Text) (h : isMantissaChar c = true) :
    ∃ u d, (c :: t).takeWhile isMantissaChar ++
        (splitExponent Char.isDigit ((c :: t).dropWhile isMantissaChar)).1 = u ++ [d] ∧
      isMantissaChar d = true := by
  by_cases hexponent : (splitExponent Char.isDigit ((c :: t).dropWhile isMantissaChar)).1 = []
  · rw [hexponent, List.append_nil]
    refine takeWhile_ends ?_
    rw [List.takeWhile_cons_of_pos h]
    exact List.cons_ne_nil c _
  · obtain ⟨u, d, hd, hu⟩ := splitExponent_ends hexponent
    refine ⟨(c :: t).takeWhile isMantissaChar ++ u, d, ?_, ?_⟩
    · rw [hu, List.append_assoc]
    · rw [isMantissaChar, hd, Bool.true_or]

/-- Only a word is read as a name. -/
theorem Finds.word_eq {c : Char} {t u rest : Text} {word : String}
    (h : Finds c t (some (.name word)) u rest) :
    startsWord c = true ∧ word = String.ofList (c :: t.takeWhile isWordChar) := by
  cases h with
  | symbol hblank hsymbol => cases isSymbol hsymbol
  | word hword => exact ⟨hword, rfl⟩

theorem length_scan_lt (c : Char) (t : Text) : (scan c t).2.length < (c :: t).length := by
  obtain ⟨hne, happend⟩ := (scans c t).append
  have hlength := congrArg List.length happend
  have hpos := List.length_pos_iff.2 hne
  rw [List.length_append] at hlength
  omega

/-- What holds of the empty text and of a text whenever it holds after one step holds of every text.
-/
theorem scan_induction {motive : Text → Prop} (nil : motive [])
    (step : ∀ c t, motive (scan c t).2 → motive (c :: t)) (t : Text) : motive t := by
  match t with
  | [] => exact nil
  | c :: t => exact step c t (scan_induction nil step (scan c t).2)
termination_by t.length
decreasing_by exact length_scan_lt c t

/-- A text can be read if its first step and the rest can. -/
theorem tokenize_cons_eq_ok {c : Char} {t : Text} {ts : List Token}
    (h : tokenize (c :: t) = .ok ts) :
    ∃ token? us, (scan c t).1 = .ok token? ∧ tokenize (scan c t).2 = .ok us ∧
      ts = token?.toList ++ us := by
  rw [tokenize_cons] at h
  obtain ⟨token?, hscan, hrest⟩ := bind_eq_ok.1 h
  obtain ⟨us, hus, heq⟩ := bind_eq_ok.1 hrest
  cases heq
  exact ⟨token?, us, hscan, hus, rfl⟩

/-- Every token is found by a step. -/
theorem scan_of_mem {t : Text} {ts : List Token} (h : tokenize t = .ok ts) {token : Token}
    (hmem : token ∈ ts) : ∃ c rest, (scan c rest).1 = .ok (some token) := by
  induction t using scan_induction generalizing ts with
  | nil =>
      rw [tokenize] at h
      cases h
      cases hmem
  | step c t ih =>
      obtain ⟨token?, us, hscan, hrest, rfl⟩ := tokenize_cons_eq_ok h
      rcases List.mem_append.1 hmem with hhere | hlater
      · rw [Option.mem_toList] at hhere
        exact ⟨c, t, hscan.trans (congrArg _ hhere)⟩
      · exact ih hrest hlater

/-- A text that cannot be read fails in its first step or in the rest. -/
theorem tokenize_cons_eq_error {c : Char} {t : Text} {fault : Fault}
    (h : tokenize (c :: t) = .error fault) :
    (scan c t).1 = .error fault ∨ tokenize (scan c t).2 = .error fault := by
  rw [tokenize_cons] at h
  refine (bind_eq_error.1 h).imp_right ?_
  rintro ⟨token?, -, hrest⟩
  rcases bind_eq_error.1 hrest with hfault | ⟨us, -, hnone⟩
  · exact hfault
  · cases hnone

end Token

open Token

/-- The tokens of a text that stands behind the text `before`, each with all the text in front of
it. -/
def locate (before : Text) : Text → Except Fault (List (Text × Token))
  | [] => .ok []
  | c :: t => do
    let token? ← (scan c t).1
    let located ← locate (before ++ scanned c t) (scan c t).2
    return (token?.map (before, ·)).toList ++ located
termination_by t => t.length
decreasing_by exact length_scan_lt c t

/-- **Without their places the located tokens are the tokens.** -/
theorem map_snd_locate (before t : Text) :
    (locate before t).map (List.map Prod.snd) = tokenize t := by
  fun_induction locate before t with
  | case1 before => simp [tokenize, Except.map]
  | case2 before c t ih =>
      rw [tokenize_cons, ← ih]
      cases (scan c t).1 with
      | error fault => rfl
      | ok token? =>
          cases locate (before ++ scanned c t) (scan c t).2 with
          | error fault => rfl
          | ok located =>
              show Except.ok _ = Except.ok _
              rw [List.map_append]
              cases token? <;> rfl

/-- **A located token stands where it says**: it is read behind the text that it comes with. -/
theorem of_mem_locate {before t : Text} {located : List (Text × Token)}
    (h : locate before t = .ok located) {place : Text} {token : Token}
    (hmem : (place, token) ∈ located) :
    ∃ u c rest, place = before ++ u ∧ t = u ++ c :: rest ∧ (scan c rest).1 = .ok (some token) := by
  fun_induction locate before t generalizing located with
  | case1 before =>
      cases h
      cases hmem
  | case2 before c t ih =>
      cases hscan : (scan c t).1 with
      | error fault =>
          rw [hscan] at h
          cases h
      | ok token? =>
          cases hrest : locate (before ++ scanned c t) (scan c t).2 with
          | error fault =>
              rw [hscan, hrest] at h
              cases h
          | ok later =>
              rw [hscan, hrest] at h
              cases h
              rcases List.mem_append.1 hmem with hhere | hlater
              · obtain ⟨found, hfound, hplace⟩ :=
                  Option.map_eq_some_iff.1 (Option.mem_toList.1 hhere)
                cases hplace
                exact ⟨[], c, t, (List.append_nil _).symm, rfl, hscan.trans (hfound ▸ rfl)⟩
              -- The places of later tokens count what this step has read.
              · obtain ⟨u, d, rest, hplace, hsplit, htoken⟩ := ih hrest hlater
                refine ⟨scanned c t ++ u, d, rest, ?_, ?_, htoken⟩
                · rw [hplace, List.append_assoc]
                · rw [List.append_assoc, ← hsplit, (scans c t).append.2]

end DeskCalc
