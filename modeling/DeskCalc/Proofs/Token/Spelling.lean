import DeskCalc.Proofs.Canonical.Spelling
import DeskCalc.Proofs.Token.LetterCase
import DeskCalc.Proofs.Token.Words

/-!
# Tokens of a text with its words spelled

The last pass of the canonical notation finds words with its own scanner, asks of each what stands
in front of it, and writes it in another case. The tokenizer finds names with another scanner, and
it does not look at case. In a text that can be read both cut alike, each lexeme being what one step
of the tokenizer reads, so the pass does to the names of the tokens what it does to the words of the
text, and leaves every other token as it is.

* `scan_of_lower_eq`: a step reads texts that differ in case alone alike.
* `respelled`: what becomes of a token, with the text in front of it.
* `scan_spell`: one step of the text with its words spelled.
* `tokenize_spell`: all steps, behind any text.
* `tokenize_spellWords`: the words of a text are its names, also when they are spelled.
-/

namespace DeskCalc

open Text Canonical

namespace Token

/-! ## Steps up to case -/

/-- **Texts that differ in case alone are read alike by one step**: it finds the same token up to
the case of its name, and leaves texts that differ in case alone. -/
theorem scan_of_lower_eq {c c' : Char} {t t' : Text} (h : lower (c' :: t') = lower (c :: t))
    {token? : Option Token} (hscan : (scan c t).1 = .ok token?) :
    (∃ token?', (scan c' t').1 = .ok token?' ∧
      token?'.map (rename lowerName) = token?.map (rename lowerName)) ∧
    lower (scan c' t').2 = lower (scan c t).2 := by
  obtain ⟨hhead, htail⟩ := List.cons.inj h
  change lower t' = lower t at htail
  obtain ⟨hfound, hrest⟩ := scan_lower c t
  obtain ⟨hfound', hrest'⟩ := scan_lower c' t'
  rw [hhead, htail] at hfound' hrest'
  rw [hfound, hscan] at hfound'
  obtain ⟨token?', hread, hsame⟩ := Option.map_eq_some_iff.1 hfound'.symm
  exact ⟨⟨token?', eq_ok_of_toOption hread, hsame⟩, hrest'.symm.trans hrest⟩

/-- The name of a step is what the step reads. -/
theorem Finds.toList_name {c : Char} {t u rest : Text} {name : String}
    (h : Finds c t (some (.name name)) u rest) : name.toList = u := by
  cases h with
  | symbol hblank hsymbol => cases isSymbol hsymbol
  | word hword => exact String.toList_ofList

/-! ## The text with its words spelled -/

/-- The name in its canonical spelling. -/
def spelledName (name : String) : String :=
  String.ofList (spelling name.toList)

/-- The token behind the text `before` when the words are spelled: its name is in canonical
spelling, unless it is glued to that text. -/
def respelled (before : Text) (token : Token) : Token :=
  if before.getLast?.any glues then token else token.rename spelledName

/-- **One step of the text with its words spelled** reads the lexeme that the step reads of the text
itself, and finds its token respelled. -/
theorem scan_spell {before t : Text} {c : Char} {token? : Option Token}
    (hscan : (scan c t).1 = .ok token?) (hdigits : ∀ x ∈ c :: t, isDecimalDigit x = x.isDigit) :
    ∃ d v, spell before.getLast? (lexemes (c :: t)) = d :: v ∧
      (scan d v).1 = .ok (token?.map (respelled before)) ∧
      (scan d v).2 = spell (before ++ scanned c t).getLast? (lexemes (scan c t).2) := by
  obtain ⟨l, hlexemes, htext, hword⟩ := (finds hscan).lexemes_eq hdigits
  obtain ⟨hne, happend⟩ := (scans c t).append
  have hlast : (before ++ scanned c t).getLast? = l.text.getLast? := by
    obtain ⟨u, x, hx⟩ := List.eq_nil_or_concat (scanned c t) |>.resolve_left hne
    rw [htext, hx, List.concat_eq_append, ← List.append_assoc, List.getLast?_concat,
      List.getLast?_concat]
  have hspelled : spell before.getLast? (lexemes (c :: t)) =
      (respellOne before.getLast? l).text ++
        spell (before ++ scanned c t).getLast? (lexemes (scan c t).2) := by
    rw [hlexemes, hlast]
    cases l <;> rfl
  have hcase := lower_spell before.getLast? (c :: t)
  have hrestcase := lower_spell (before ++ scanned c t).getLast? (scan c t).2
  generalize spell (before ++ scanned c t).getLast? (lexemes (scan c t).2) = rest
    at hspelled hrestcase ⊢
  cases hwhole : spell before.getLast? (lexemes (c :: t)) with
  | nil =>
      rw [hwhole] at hcase
      cases hcase
  | cons d v =>
      rw [hwhole] at hcase hspelled
      obtain ⟨⟨token?', hscan', hsame⟩, hleft⟩ := scan_of_lower_eq hcase hscan
      -- What the step leaves is as long as the rest, so it is the rest.
      have hlength : (scan d v).2.length = rest.length :=
        length_eq_of_lower_eq (hleft.trans hrestcase.symm)
      obtain ⟨hread, hrest⟩ := List.append_inj' ((scans d v).append.2.trans hspelled) hlength
      refine ⟨d, v, rfl, ?_, hrest⟩
      rw [hscan']
      refine congrArg Except.ok ?_
      cases token? with
      | none => exact Option.map_eq_none_iff.1 hsame
      | some token =>
          obtain ⟨token', rfl, htoken⟩ := Option.map_eq_some_iff.1 hsame
          refine congrArg some ?_
          cases token with
          | name name =>
              cases token' with
              | name name' =>
                  have hname := (finds hscan).toList_name
                  have hname' := (finds hscan').toList_name
                  have hl : l = .word name.toList := by
                    cases l <;> cases hword
                    rfl
                  rw [hread, hl] at hname'
                  rw [respelled, ← String.ofList_toList (s := name'), hname']
                  cases hglued : before.getLast?.any glues <;>
                    simp [respellOne, Lexeme.text, rename, spelledName, hglued]
              | _ => cases htoken
          | _ =>
              cases token' <;> cases htoken
              simp [respelled, rename]

/-- **Behind any text the tokens of a text with its words spelled** are its tokens respelled. -/
theorem tokenize_spell {before t : Text} {located : List (Text × Token)}
    (h : locate before t = .ok located) :
    tokenize (spell before.getLast? (lexemes t)) =
      .ok (located.map fun placed => respelled placed.1 placed.2) := by
  fun_induction locate before t generalizing located with
  | case1 before =>
      cases h
      rw [lexemes, spell, tokenize]
      rfl
  | case2 before c t ih =>
      obtain ⟨token?, hscan, hlater⟩ := bind_eq_ok.1 h
      obtain ⟨later, hlocated, heq⟩ := bind_eq_ok.1 hlater
      cases heq
      have htokens : tokenize (c :: t) = .ok (token?.toList ++ later.map Prod.snd) := by
        rw [tokenize_cons, hscan, ← map_snd_locate (before ++ scanned c t), hlocated]
        rfl
      obtain ⟨d, v, hspelled, hfound, hrest⟩ :=
        scan_spell hscan fun x => isDigit_of_tokenize htokens
      rw [hspelled, tokenize_cons, hfound, hrest, ih hlocated]
      cases token? <;> rfl

/-- **The words of a text are its names, and they stay so when they are spelled.** The words that
the last pass finds in a text that can be read are the names among its tokens, in the same order.
With its words spelled the text is read as the same tokens, each name that is not glued to what
stands in front of it in its canonical spelling. -/
theorem tokenize_spellWords {t : Text} {ts : List Token} (h : tokenize t = .ok ts) :
    words t = ts.filterMap word? ∧
    ∃ located, locate [] t = .ok located ∧ located.map Prod.snd = ts ∧
      tokenize (spellWords t) = .ok (located.map fun placed => respelled placed.1 placed.2) := by
  refine ⟨words_of_tokenize h, ?_⟩
  rw [← map_snd_locate []] at h
  cases hlocated : locate [] t with
  | error fault =>
      rw [hlocated] at h
      cases h
  | ok located =>
      rw [hlocated] at h
      cases h
      exact ⟨located, rfl, rfl, tokenize_spell hlocated⟩

/-- The name behind a numeral is glued to it and keeps its case. The exponent is no word, and the
name behind the operator is spelled. -/
theorem tokenize_spellWords_glued :
    tokenize "2Pi*1E1-Pi".toList = .ok [.number 2, .name "Pi", .operator .mul, .number 10,
      .operator .sub, .name "Pi"] ∧
    words "2Pi*1E1-Pi".toList = ["Pi".toList, "Pi".toList] ∧
    tokenize (spellWords "2Pi*1E1-Pi".toList) =
      .ok [.number 2, .name "Pi", .operator .mul, .number 10, .operator .sub, .name "PI"] := by
  have hread : tokenize "2Pi*1E1-Pi".toList =
      .ok [.number 2, .name "Pi", .operator .mul, .number 10, .operator .sub, .name "Pi"] :=
    eq_ok_of_toOption (by decide +kernel)
  obtain ⟨hwords, located, hlocated, -, hspelled⟩ := tokenize_spellWords hread
  refine ⟨hread, hwords.trans (by decide +kernel), hspelled.trans ?_⟩
  have hplaces : locate [] "2Pi*1E1-Pi".toList = .ok [([], .number 2), ("2".toList, .name "Pi"),
      ("2Pi".toList, .operator .mul), ("2Pi*".toList, .number 10),
      ("2Pi*1E1".toList, .operator .sub), ("2Pi*1E1-".toList, .name "Pi")] :=
    eq_ok_of_toOption (by decide +kernel)
  rw [hlocated] at hplaces
  cases hplaces
  exact congrArg Except.ok (by decide +kernel)

end Token

end DeskCalc
