import DeskCalc.Proofs.Answer.Typed
import DeskCalc.Proofs.Grammar.Agreement
import DeskCalc.Proofs.Session.Run

/-!
# Inserting the last answer

The last answer is appended to what is being typed, behind a times sign if that ends in a value. A
complete expression ends in a value, and so does the text that it is typed as, for no pass changes
that. The one exception is the glyph of pi, behind which no times sign is put.

* `ending_of_tokenize`: a text ends in a value if its last token ends one, as that of an expression
  does.
* `Complete`, `Complete.ending_eq`: what is typed as a complete expression ends in a value.
* `Complete.append`: a times sign and the answer behind it.
* `insertAnswer_complete`: inserting the answer multiplies by it.
* `insertAnswer_pi`: behind the glyph of pi it does not.
-/

namespace DeskCalc

open Text Token Canonical

/-! ## The last token -/

/-- What goes on with a number or a word ends a value. -/
theorem isValueEnd_of_goesOn {c : Char} (h : goesOn c = true) : isValueEnd c = true := by
  rcases goesOn_iff.1 h with halphanum | rfl | rfl
  · rw [isValueEnd, halphanum, Bool.true_or]
  · rfl
  · rfl

theorem ending_of_goesOn {t : Text} {c : Char} (h : goesOn c = true) :
    ending (t ++ [c]) = some true := by
  have hblank : isBlank c = false := by
    rw [← Bool.not_eq_true]
    intro hblank
    rw [goesOn_of_isBlank hblank] at h
    cases h
  rw [ending_concat hblank, isValueEnd_of_goesOn h]

/-- A text of such characters ends in a value. -/
theorem ending_of_all {t : Text} (hne : t ≠ []) (h : ∀ c ∈ t, goesOn c = true) :
    ending t = some true := by
  rcases List.eq_nil_or_concat t with rfl | ⟨u, c, rfl⟩
  · exact absurd rfl hne
  · rw [List.concat_eq_append] at h ⊢
    exact ending_of_goesOn (h c (by simp))

namespace Token

/-- What a step reads ends as the token that it finds. -/
theorem Finds.ending_eq {c : Char} {t u rest : Text} {token? : Option Token}
    (h : Finds c t token? u rest) :
    ending u = token?.map endsValue := by
  cases h with
  | blank hblank =>
      rw [ending, lastSolid, hblank]
      rfl
  | symbol hblank hsymbol =>
      rw [← List.nil_append [c], ending_concat hblank]
      cases isSymbol hsymbol with
      | operator op => cases op <;> rfl
      | openParen => rfl
      | closeParen => rfl
      | comma => rfl
  | word hword =>
      exact ending_of_all (List.cons_ne_nil c _) fun x hx =>
        goesOn_of_isWordChar (of_mem_run (isWordChar_of_startsWord hword) hx)
  | number hnumber hmantissa =>
      obtain ⟨v, d, hends, hd⟩ := number_ends t hnumber
      rw [hends, ending_of_goesOn (goesOn_of_isMantissaChar hd)]
      rfl

/-- **A text ends as its last token does.** -/
theorem ending_of_tokenize {t : Text} {ts : List Token} (h : tokenize t = .ok ts) :
    ending t = ts.getLast?.map endsValue := by
  induction t using scan_induction generalizing ts with
  | nil =>
      rw [tokenize] at h
      cases h
      rfl
  | step c t ih =>
      obtain ⟨token?, us, hscan, hrest, rfl⟩ := tokenize_cons_eq_ok h
      rw [← (scans c t).append.2, ending_append, ih hrest, (finds hscan).ending_eq,
        List.getLast?_append, Option.map_or]
      cases token? <;> rfl

end Token

/-- With a times sign and a factor behind it the last product of a sum goes on. -/
theorem Grammar.Derives.times {ts us : List Token} {a b : Expr} (ha : Derives .sum ts a)
    (hb : Derives .signed us b) : ∃ e, Derives .sum (ts ++ .operator .mul :: us) e := by
  cases ha with
  | sum hproduct => exact ⟨_, .sum (.mul hproduct hb)⟩
  | add hsum hproduct =>
      rw [List.append_assoc, List.cons_append]
      exact ⟨_, .add hsum (.mul hproduct hb)⟩
  | sub hsum hproduct =>
      rw [List.append_assoc, List.cons_append]
      exact ⟨_, .sub hsum (.mul hproduct hb)⟩

namespace Answer

/-! ## The text of the answer -/

section
variable {answer : Option Float} (hfinite : ∀ v, answer = some v → v.isFinite = true)
include hfinite

theorem ending_literal : ending (literal answer) = some true := by
  obtain ⟨parts, hplain | hparens⟩ := literal_cases hfinite
  · obtain ⟨whole, fraction, htext, hne, -⟩ := Decimal.exists_digits parts
    rw [hplain]
    refine ending_of_all ?_ fun c hc => goesOn_of_isMantissaChar (isMantissaChar_of_mem_text hc)
    rw [htext]
    exact List.append_ne_nil_of_left_ne_nil hne _
  · rw [hparens]
    exact ending_concat rfl

/-- It has no percent signs and no stars. -/
theorem ne_of_mem_literal {c : Char} (h : c ∈ literal answer) : c ≠ '%' ∧ c ≠ '*' := by
  constructor
  · rintro rfl
    rcases mem_literal hfinite h with h | h <;> revert h <;> decide
  · rintro rfl
    rcases mem_literal hfinite h with h | h <;> revert h <;> decide

theorem words_literal : words (literal answer) = [] :=
  words_eq_nil fun _ hc => not_startsWord_of_mem_literal hfinite hc

/-- The text that stands for the answer is in normal form. -/
theorem normal_literal : Normal (literal answer) where
  glyphFree := glyphFree_of_isAdmitted fun _ hc => isAdmitted_of_mem_literal hfinite hc
  percentFree := percentFree_of_ne fun _ hc => (ne_of_mem_literal hfinite hc).1
  starFree := starFree_of_ne fun _ hc => (ne_of_mem_literal hfinite hc).2
  spelled := spellWords_eq_self fun w hw => by
    rw [words_literal hfinite] at hw
    cases hw

theorem tokenize_literal : tokenize (literal answer) = .ok (tokens (answer.getD 0)) := by
  have happend := tokenize_literal_append hfinite (t := []) rfl
  rw [List.append_nil, tokenize] at happend
  rw [happend]
  exact congrArg Except.ok (List.append_nil _)

/-- The text of the answer is typed for its tokens, as in a text in which the answer was inserted.
-/
theorem typed_literal : Typed answer (literal answer) (tokens (answer.getD 0)) := by
  refine .of_tokenize (normal_literal hfinite).canonical_eq_self (tokenize_literal hfinite) ?_ ?_
  · intro name hname
    rw [tokens] at hname
    split at hname <;> simp at hname
  · rintro c hc rfl
    cases not_startsWord_of_mem_literal hfinite hc

/-- Substitution keeps how a text ends. -/
theorem ending_substitute (t : Text) : ending (substitute (literal answer) t) = ending t := by
  fun_induction substitute (literal answer) t with
  | case1 => rfl
  | case2 c t hc run =>
      rename_i ih
      have happend : c :: t = run ++ t.dropWhile isWordChar := by
        rw [List.cons_append, List.takeWhile_append_dropWhile]
      have hrun : ending run = some true :=
        ending_of_all (List.cons_ne_nil c _) fun x hx => goesOn_of_isWordChar (of_mem_run hc hx)
      rw [happend, ending_append, ending_append, ih, hrun]
      split
      · rw [ending_literal hfinite]
      · rw [hrun]
  | case3 c t hc ih => rw [ending_cons, ih, ← ending_cons]

end

/-- The tree of the tokens that stand for a value. -/
def tree (v : Float) : Expr :=
  if v < 0 then .negate (.number v.abs) else .number v.abs

theorem derives_tree (v : Float) : Grammar.Derives .atom (tokens v) (tree v) := by
  rw [tokens, tree]
  split
  · exact .paren ((Grammar.Derives.minus ((Grammar.Derives.number v.abs).loosen (by decide))).loosen
      (by decide))
  · exact .number v.abs

/-! ## Complete expressions -/

/-- What is typed is a complete expression of the given tokens: it is admitted, and can be read and
ordered with the last answer in it. -/
structure Complete (answer : Option Float) (raw : Text) (ts : List Token) : Prop where
  characters : admitCharacters (canonical raw) = .ok ()
  numbers : admitNumbers (canonical raw) = .ok ()
  tokens : tokenize (substitute (literal answer) (canonical raw)) = .ok ts
  ordered : ∃ items, toPostfix ts = .ok items

namespace Complete

variable {answer : Option Float} {raw : Text} {ts : List Token}

/-- **A complete expression ends in a value**, also as it is typed, unless it ends in the glyph of
pi. -/
theorem ending_eq (h : Complete answer raw ts) (hfinite : ∀ v, answer = some v → v.isFinite = true)
    (hpi : lastSolid raw ≠ some 'π') : ending raw = some true := by
  obtain ⟨items, hitems⟩ := h.ordered
  obtain ⟨e, he, -⟩ := Grammar.derives_of_toPostfix hitems
  rw [← ending_canonical hpi, ← ending_substitute hfinite, ending_of_tokenize h.tokens,
    he.endsValue]

/-- Behind a value a times sign and the answer are brought to canonical notation by themselves. -/
theorem canonical_append (hfinite : ∀ v, answer = some v → v.isFinite = true)
    (hpi : lastSolid raw ≠ some 'π') (hending : ending raw = some true) :
    canonical (raw ++ '*' :: literal answer) = canonical raw ++ '*' :: literal answer := by
  have hnormal := normal_literal hfinite
  have hliteral : expandPercents (replaceGlyphs (literal answer)) = literal answer := by
    rw [replaceGlyphs_eq_self hnormal.glyphFree, expandPercents_eq_self hnormal.percentFree]
  rw [canonical_stop (by decide) (by decide) stops_star, hnormal.canonical_eq_self]
  · intro _ hlast
    obtain ⟨u, hu⟩ := List.getLast?_eq_some_iff.1 hlast
    have hsame := ending_expandPercents (replaceGlyphs raw)
    rw [ending_replaceGlyphs hpi, hending, hu, ending_concat rfl] at hsame
    cases hsame
  · intro _ hhead
    rw [hliteral] at hhead
    exact (ne_of_mem_literal hfinite (List.mem_of_head? hhead)).2 rfl

/-- **A times sign and the answer make a complete expression of one that ends in a value.** -/
theorem append (h : Complete answer raw ts) (hfinite : ∀ v, answer = some v → v.isFinite = true)
    (hpi : lastSolid raw ≠ some 'π') :
    Complete answer (raw ++ '*' :: literal answer)
      (ts ++ .operator .mul :: Answer.tokens (answer.getD 0)) := by
  have hcanonical := canonical_append hfinite hpi (h.ending_eq hfinite hpi)
  have htyped : Typed answer raw ts := ⟨h.characters, h.numbers, h.tokens⟩
  have hjoined := htyped.join (typed_literal hfinite) rfl stops_star
    (by rw [hcanonical, (normal_literal hfinite).canonical_eq_self])
  refine ⟨hjoined.characters, hjoined.numbers, hjoined.tokens, ?_⟩
  obtain ⟨items, hitems⟩ := h.ordered
  obtain ⟨e, he, -⟩ := Grammar.derives_of_toPostfix hitems
  obtain ⟨f, hf⟩ := he.times ((derives_tree (answer.getD 0)).loosen (by decide))
  exact ⟨_, Grammar.toPostfix_of_derives hf⟩

end Complete

end Answer

namespace Session

open Answer

/-- **Inserting the last answer multiplies by it.** In every state of every run with a last answer,
a complete expression stays complete when the answer is inserted, and has a times sign and the
tokens of the answer behind its own, unless it is typed with the glyph of pi at its end. -/
theorem insertAnswer_complete (settings : Settings) (requests : List Request) {v : Float}
    (hanswer : ((Session.new settings).run requests).answer = some v) {buffer : Text}
    {ts : List Token} (hbuffer : Complete (some v) buffer ts)
    (hpi : (trimEnd buffer).getLast? ≠ some 'π') :
    ∃ us, tokenize (literal (some v)) = .ok us ∧
      Complete (some v) (((Session.new settings).run requests).insertAnswer buffer)
        (ts ++ .operator .mul :: us) := by
  have hfinite : ∀ w, some v = some w → w.isFinite = true := by
    rintro w ⟨⟩
    exact ((sound_new settings).run requests v hanswer).isFinite
  rw [getLast?_trimEnd] at hpi
  have hinserted : ((Session.new settings).run requests).insertAnswer buffer =
      buffer ++ '*' :: literal (some v) := by
    have hvalue := (endsInValue_iff buffer).2 (hbuffer.ending_eq hfinite hpi)
    rw [insertAnswer, hanswer]
    simp only [Answer.insert, hvalue, Option.isSome_some, if_true]
    exact List.append_assoc buffer ['*'] _
  rw [hinserted]
  exact ⟨_, tokenize_literal hfinite, hbuffer.append hfinite hpi⟩

/-- Behind `2%` and a blank the answer 7 is a factor of its own. -/
theorem insertAnswer_complete_percentage :
    ((Session.new .standard).run [.setAnswer 7]).insertAnswer "2% ".toList = "2% *7".toList ∧
      Complete (some 7) "2% *7".toList
        [.openParen, .number 2, .operator .div, .number 100, .closeParen, .operator .mul,
          .number 7] := by
  have hbuffer : Complete (some 7) "2% ".toList
      [.openParen, .number 2, .operator .div, .number 100, .closeParen] := {
    characters := eq_ok_of_toOption (by decide +kernel)
    numbers := eq_ok_of_toOption (by decide +kernel)
    tokens := eq_ok_of_toOption (by decide +kernel)
    ordered := ⟨[.number 2, .number 100, .action (.apply .div)], rfl⟩ }
  have hinserted : ((Session.new .standard).run [.setAnswer 7]).insertAnswer "2% ".toList =
      "2% *7".toList := by decide +kernel
  obtain ⟨us, hus, hcomplete⟩ := insertAnswer_complete .standard [.setAnswer 7] (v := 7)
    (by decide +kernel) hbuffer (by decide)
  have hseven : tokenize (literal (some 7)) = .ok [.number 7] :=
    eq_ok_of_toOption (by decide +kernel)
  rw [hseven] at hus
  cases hus
  rw [hinserted] at hcomplete
  exact ⟨hinserted, hcomplete⟩

/-- **Behind the glyph of pi the answer is inserted without a times sign.** What is typed as `π` is
complete. With the answer 7 in it the word `PI7` is read, which is not admitted. -/
theorem insertAnswer_pi :
    ((Session.new .standard).run [.setAnswer 7]).answer = some 7 ∧
      Complete (some 7) ['π'] [.name "PI"] ∧
      ((Session.new .standard).run [.setAnswer 7]).insertAnswer ['π'] = ['π', '7'] ∧
      ∀ ts, ¬ Complete (some 7) ['π', '7'] ts := by
  refine ⟨by decide +kernel, ?_, by decide +kernel, fun ts h => ?_⟩
  · exact {
      characters := eq_ok_of_toOption (by decide +kernel)
      numbers := eq_ok_of_toOption (by decide +kernel)
      tokens := eq_ok_of_toOption (by decide +kernel)
      ordered := ⟨[.constant "PI"], rfl⟩ }
  · have hword : ['P', 'I', '7'] ∈ words (canonical ['π', '7']) := by decide +kernel
    have hadmitted := (admitCharacters_eq_ok.1 h.characters).2 _ hword
    exact absurd hadmitted (by decide +kernel)

end Session

end DeskCalc
