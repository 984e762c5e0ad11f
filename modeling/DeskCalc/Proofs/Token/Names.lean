import DeskCalc.Proofs.Grammar.Completeness
import DeskCalc.Proofs.Token.Printing
import Mathlib.Data.List.Chain

/-!
# Where names come from

A name token is a word of the text, but a word that starts right behind a number is cut out of a
longer run of word characters, as the `x` of `3x` is. No expression has a number directly before a
name. So in a text that is an expression every name stands alone.

* `Token.Ready`, `Token.Finds.ready`: what has been read ends in a number if it touches what comes
  next.
* `name_of_locate`: a name stands alone or behind a number token.
* `toPostfix_number_operand`: no expression has an operand right behind a number.
* `toPostfix_atom_atom`, `isChain_of_toPostfix`: nor one number or name right behind another.
* `alone_of_toPostfix`: the names of an expression stand alone in its text.
* `exists_name_of_mem`: what can only be in a name is in one.
-/

namespace DeskCalc

open Text

/-- The word stands by itself between two texts: it does not go on from the first, as the rest of a
number would, and the second does not go on with it. -/
structure Text.Alone (word before after : Text) : Prop where
  isWord : isWord word = true
  before : before.getLast?.any Token.goesOn = false
  after : after.head?.any isWordChar = false

namespace Token

theorem goesOn_of_isBlank {c : Char} (h : isBlank c = true) : goesOn c = false := by
  rw [← Bool.not_eq_true]
  intro hc
  rw [goesOn, Bool.or_eq_true, beq_iff_eq] at hc
  rcases hc with hword | rfl
  · rw [isBlank_of_isWordChar hword] at h
    cases h
  · cases h

theorem goesOn_of_ofSymbol? {c : Char} {token : Token} (h : ofSymbol? c = some token) :
    goesOn c = false := by
  rw [← Bool.not_eq_true]
  intro hc
  rw [goesOn, Bool.or_eq_true, beq_iff_eq] at hc
  rcases hc with hword | rfl
  · rw [ofSymbol?_of_isWordChar hword] at h
    cases h
  · cases h

/-- Symbols are no digits of any script. -/
theorem isDecimalDigit_of_ofSymbol? {c : Char} {token : Token} (h : ofSymbol? c = some token) :
    isDecimalDigit c = false := by
  cases isSymbol h with
  | operator op => cases op <;> rfl
  | openParen => rfl
  | closeParen => rfl
  | comma => rfl

/-! ## Names in a text -/

/-- What has been read ends in a number, if the text before touches a word that comes next. -/
def Ready (read : List Token) (before t : Text) : Prop :=
  t.head?.any startsWord = true → before.getLast?.any goesOn = true →
    ∃ x, read.getLast? = some (.number x)

theorem ready_concat {read : List Token} {before t : Text} {c : Char} (hc : goesOn c = false) :
    Ready read (before ++ [c]) t := by
  intro _ htouches
  rw [List.getLast?_concat, Option.any_some, hc] at htouches
  cases htouches

/-- Every step leaves this true: only behind a number can a word start that touches it. -/
theorem Finds.ready {c : Char} {t u rest : Text} {token? : Option Token}
    (h : Finds c t token? u rest) (read : List Token) (before : Text) :
    Ready (read ++ token?.toList) (before ++ u) rest := by
  cases h with
  | blank hblank => exact ready_concat (goesOn_of_isBlank hblank)
  | symbol hblank hsymbol => exact ready_concat (goesOn_of_ofSymbol? hsymbol)
  | word hword =>
      intro hstarts
      cases hhead : (t.dropWhile isWordChar).head? with
      | none =>
          rw [hhead] at hstarts
          cases hstarts
      | some d =>
          have hnot := head?_dropWhile_any isWordChar t
          rw [hhead, Option.any_some] at hnot hstarts
          rw [isWordChar_of_startsWord hstarts] at hnot
          cases hnot
  | number hnumber hmantissa => exact fun _ _ => ⟨_, List.getLast?_concat⟩

/-- **A name stands alone or behind a number token**, whatever has been read before. -/
theorem name_of_locate {read : List Token} {before t : Text} {located : List (Text × Token)}
    (hready : Ready read before t) (h : locate before t = .ok located) {place : Text}
    {name : String} (hmem : (place, .name name) ∈ located) :
    place.getLast?.any goesOn = false ∨
      ∃ us x vs, read ++ located.map Prod.snd = us ++ .number x :: .name name :: vs := by
  fun_induction locate before t generalizing read located with
  | case1 before =>
      cases h
      cases hmem
  | case2 before c t ih =>
      cases hscan : (scan c t).1 with
      | error fault =>
          rw [hscan] at h
          cases h
      | ok token? =>
          cases hrest : locate (before ++ scanned c t) (scan c t).2 with
          | error fault =>
              rw [hscan, hrest] at h
              cases h
          | ok later =>
              rw [hscan, hrest] at h
              cases h
              rcases List.mem_append.1 hmem with hhere | hlater
              · obtain ⟨token, rfl, hplace⟩ := Option.map_eq_some_iff.1 (Option.mem_toList.1 hhere)
                cases hplace
                cases htouches : place.getLast?.any goesOn with
                | false => exact .inl rfl
                | true =>
                    right
                    obtain ⟨x, hx⟩ := hready (finds hscan).word_eq.1 htouches
                    obtain ⟨us, rfl⟩ := List.getLast?_eq_some_iff.1 hx
                    exact ⟨us, x, later.map Prod.snd, by simp⟩
              · refine (ih ((finds hscan).ready read before) hrest hlater).imp_right ?_
                rintro ⟨us, x, vs, hsplit⟩
                refine ⟨us, x, vs, ?_⟩
                rw [← hsplit, List.append_assoc]
                congr 1
                cases token? <;> rfl

/-- Whether an operand starts with the token. -/
def startsOperand : Token → Bool
  | .number _ => true
  | .name _ => true
  | .openParen => true
  | _ => false

/-- **No expression has an operand right behind a number.** -/
theorem toPostfix_number_operand (us vs : List Token) (x : Float) {t : Token}
    (ht : t.startsOperand = true) :
    ∃ fault, toPostfix (us ++ .number x :: t :: vs) = .error fault := by
  rw [toPostfix, OperatorStack.run_append]
  cases OperatorStack.start.run _ us with
  | error fault => exact ⟨fault, rfl⟩
  | ok s =>
      -- The number is refused after a value, and else the operand is.
      refine ⟨.malformed, ?_⟩
      cases hvalue : s.afterValue with
      | true => simp [OperatorStack.run, OperatorStack.step, OperatorStack.pushValue, hvalue, bind,
          Except.bind]
      | false =>
          cases t with
          | number y =>
              simp [OperatorStack.run, OperatorStack.step, OperatorStack.pushValue, hvalue, bind,
                Except.bind]
          | name word => simp [OperatorStack.run, OperatorStack.step, OperatorStack.pushValue,
              OperatorStack.pushFunction, hvalue, bind, Except.bind]
          | openParen => simp [OperatorStack.run, OperatorStack.step, OperatorStack.pushValue,
              OperatorStack.openParen, hvalue, bind, Except.bind]
          | operator op => cases ht
          | closeParen => cases ht
          | comma => cases ht

/-- No expression has a number or a name right behind another one. -/
theorem toPostfix_atom_atom (us vs : List Token) {a b : Token} (ha : a.isAtom = true)
    (hb : b.isAtom = true) : ∃ fault, toPostfix (us ++ a :: b :: vs) = .error fault := by
  cases a with
  | number x => exact toPostfix_number_operand us vs x (by cases b <;> first | rfl | cases hb)
  | name word =>
      rw [toPostfix, OperatorStack.run_append]
      cases OperatorStack.start.run _ us with
      | error fault => exact ⟨fault, rfl⟩
      | ok s =>
          -- Before a number or another name it is no call, so it ends a value.
          refine ⟨.malformed, ?_⟩
          cases hvalue : s.afterValue <;> cases b with
          | number x =>
              simp [OperatorStack.run, OperatorStack.step, OperatorStack.pushValue, hvalue, bind,
                Except.bind]
          | name other => simp [OperatorStack.run, OperatorStack.step, OperatorStack.pushValue,
              OperatorStack.pushFunction, hvalue, bind, Except.bind]
          | _ => cases hb
  | _ => cases ha

/-- **Of two neighbouring tokens of an expression one is no number and no name.** -/
theorem isChain_of_toPostfix {ts : List Token} {items : List Item} (h : toPostfix ts = .ok items) :
    ts.IsChain fun a b => a.isAtom = true → b.isAtom = false := by
  rw [List.isChain_iff_forall_rel_of_append_cons_cons]
  rintro a b us vs rfl ha
  rw [← Bool.not_eq_true]
  intro hb
  obtain ⟨fault, hfault⟩ := toPostfix_atom_atom us vs ha hb
  rw [hfault] at h
  cases h

/-- **The names of an expression stand alone in its text.** -/
theorem alone_of_toPostfix {text : Text} {ts : List Token} {items : List Item}
    (htokens : tokenize text = .ok ts) (hitems : toPostfix ts = .ok items) {name : String}
    (hmem : .name name ∈ ts) :
    ∃ before after, text = before ++ name.toList ++ after ∧ Alone name.toList before after := by
  rw [← map_snd_locate []] at htokens
  cases hlocated : locate [] text with
  | error fault =>
      rw [hlocated] at htokens
      cases htokens
  | ok located =>
      rw [hlocated] at htokens
      cases htokens
      obtain ⟨⟨place, token⟩, hplaced, rfl⟩ := List.mem_map.1 hmem
      obtain ⟨u, c, rest, hplace, htext, hscan⟩ := of_mem_locate hlocated hplaced
      obtain ⟨hstarts, rfl⟩ := (finds hscan).word_eq
      refine ⟨u, rest.dropWhile isWordChar, ?_, ?_, ?_, head?_dropWhile_any isWordChar rest⟩
      · rw [htext, String.toList_ofList, List.append_assoc, List.cons_append,
          List.takeWhile_append_dropWhile]
      · rw [String.toList_ofList, isWord, hstarts, Bool.true_and, List.all_takeWhile]
      · rw [List.nil_append] at hplace
        subst hplace
        have hready : Ready [] [] text := fun _ h => by cases h
        refine (name_of_locate hready hlocated hplaced).resolve_right ?_
        rintro ⟨us, x, vs, hsplit⟩
        obtain ⟨fault, hfault⟩ := toPostfix_number_operand us vs x
          (t := .name (String.ofList (c :: rest.takeWhile isWordChar))) rfl
        rw [List.nil_append] at hsplit
        rw [hsplit, hfault] at hitems
        cases hitems

/-- A step reads a character that starts words, other than the letter of an exponent, as part of a
name. -/
theorem Finds.name_of_mem {c x : Char} {t u rest : Text} {token? : Option Token}
    (h : Finds c t token? u rest) (hx : x ∈ u) (hstarts : startsWord x = true)
    (hletter : x ≠ 'e' ∧ x ≠ 'E') : ∃ name, token? = some (.name name) ∧ x ∈ name.toList := by
  have hgoes := goesOn_of_isWordChar (isWordChar_of_startsWord hstarts)
  cases h with
  | blank hblank =>
      rw [List.mem_singleton.1 hx, goesOn_of_isBlank hblank] at hgoes
      cases hgoes
  | symbol hblank hsymbol =>
      rw [List.mem_singleton.1 hx, goesOn_of_ofSymbol? hsymbol] at hgoes
      cases hgoes
  | word hword => exact ⟨_, rfl, by rwa [String.toList_ofList]⟩
  | number hnumber hmantissa =>
      have hnone := isMantissaChar_of_startsWord hstarts
      rcases List.mem_append.1 hx with hrun | hexponent
      · rw [of_mem_takeWhile hrun] at hnone
        cases hnone
      · rcases mem_splitExponent hexponent with h | h
        · rw [isMantissaChar, h, Bool.true_or] at hnone
          cases hnone
        · simp only [List.mem_cons, List.not_mem_nil, or_false] at h
          rcases h with rfl | rfl | rfl | rfl
          · exact absurd rfl hletter.1
          · exact absurd rfl hletter.2
          · cases hstarts
          · cases hstarts

/-- A character that starts words and is not the letter of an exponent is in a name, wherever it is
in a text that can be read. -/
theorem exists_name_of_mem {t : Text} {ts : List Token} (h : tokenize t = .ok ts) {x : Char}
    (hx : x ∈ t) (hstarts : startsWord x = true) (hletter : x ≠ 'e' ∧ x ≠ 'E') :
    ∃ name, .name name ∈ ts ∧ x ∈ name.toList := by
  induction t using scan_induction generalizing ts with
  | nil => cases hx
  | step c t ih =>
      obtain ⟨token?, us, hscan, hrest, rfl⟩ := tokenize_cons_eq_ok h
      rw [← (scans c t).append.2] at hx
      rcases List.mem_append.1 hx with hread | hlater
      · obtain ⟨name, rfl, hmem⟩ := (finds hscan).name_of_mem hread hstarts hletter
        exact ⟨name, List.mem_append_left us (List.mem_singleton.2 rfl), hmem⟩
      · obtain ⟨name, hname, hmem⟩ := ih hrest hlater
        exact ⟨name, List.mem_append_right _ hname, hmem⟩

end Token

end DeskCalc
