import DeskCalc.Proofs.Canonical.Appending
import DeskCalc.Proofs.Canonical.Readable
import DeskCalc.Proofs.Grammar.Agreement
import DeskCalc.Proofs.Grammar.Replacement

/-!
# Percent signs behind numbers

The second pass looks for numerals with a percent sign in raw text, before any token is read. It
knows neither words nor where a number starts, so it might take the end of a word, or of another
numeral, for the start of one. In a text that is an expression of known names it does not: every
percent sign behind a number divides this number by 100 and nothing else, whatever the number stands
among, and however many of the numbers have one.

* `Token.hundredth`, `Expr.hundredth`: a number divided by 100, if it is chosen.
* `withPercents`: a text with percent signs behind the chosen numbers.
* `expandPercents_detached`, `expandPercents_percent`: the second pass over what a step reads.
* `IsPiece`, `isPiece_of_scan`: a number or a name of an expression is read by itself.
* `tokenize_withPercents`: the tokens behind the second pass.
* `percent_divides`: percent signs divide the numbers they follow.
-/

namespace DeskCalc

open Text Token

/-! ## Numbers divided by 100 -/

/-- The tokens for a number: it is divided by 100 in parentheses if its rank is chosen. -/
def Token.hundredth (chosen : Nat → Bool) (n : Nat) (x : Float) : List Token :=
  if chosen n then [.openParen, .number x, .operator .div, .number 100, .closeParen]
  else [.number x]

/-- The tree for a number: it is divided by 100 if its rank is chosen. -/
def Expr.hundredth (chosen : Nat → Bool) (n : Nat) (x : Float) : Expr :=
  if chosen n then .apply .div (.number x) (.number 100) else .number x

theorem Grammar.derives_hundredth (chosen : Nat → Bool) (n : Nat) (x : Float) :
    Derives .atom (Token.hundredth chosen n x) (Expr.hundredth chosen n x) := by
  rw [Token.hundredth, Expr.hundredth]
  split
  · have hquotient :=
      Derives.div ((Derives.number x).loosen (by decide)) ((Derives.number 100).loosen (by decide))
    exact .paren (.sum hquotient)
  · exact .number x

/-! ## Pieces of a text -/

namespace Token

/-- A step that starts with a character of a number or a word finds one. -/
theorem Finds.isAtom_of_goesOn {c : Char} {t u rest : Text} {token? : Option Token}
    (h : Finds c t token? u rest) (hgoes : goesOn c = true) :
    ∃ a, token? = some a ∧ a.isAtom = true := by
  cases h with
  | blank hblank =>
      rw [goesOn_of_isBlank hblank] at hgoes
      cases hgoes
  | symbol hblank hsymbol =>
      rw [goesOn_of_ofSymbol? hsymbol] at hgoes
      cases hgoes
  | word hword => exact ⟨_, rfl, rfl⟩
  | number hnumber hmantissa => exact ⟨_, rfl, rfl⟩

/-- A text whose first token is no number and no name is detached. -/
theorem detached_of_tokenize {t : Text} {ts : List Token} (h : tokenize t = .ok ts)
    (hfirst : ∀ a ∈ ts.head?, a.isAtom = false) : Detached t := by
  cases t with
  | nil => exact fun c hc => by cases hc
  | cons c t =>
      rintro c ⟨rfl⟩
      refine stops_of_isAdmitted (isAdmitted_of_tokenize h List.mem_cons_self).1 ?_ rfl
      rw [← Bool.not_eq_true]
      intro hgoes
      obtain ⟨token?, us, hscan, -, rfl⟩ := tokenize_cons_eq_ok h
      obtain ⟨a, rfl, ha⟩ := (finds hscan).isAtom_of_goesOn hgoes
      rw [hfirst a rfl] at ha
      cases ha

/-- A step that finds no number and no name reads one character, which stops every scanner, and does
not look at what comes after it. -/
theorem Finds.single {c : Char} {t u rest : Text} {token? : Option Token}
    (h : Finds c t token? u rest) (hnone : ∀ a ∈ token?, a.isAtom = false) :
    u = [c] ∧ Stops c [] ∧ c ≠ '%' ∧
      ∀ v, tokenize (c :: v) = (tokenize v).map (token?.toList ++ ·) := by
  have hgoes : goesOn c = false := by
    rw [← Bool.not_eq_true]
    intro hgoes
    obtain ⟨a, rfl, ha⟩ := h.isAtom_of_goesOn hgoes
    rw [hnone a rfl] at ha
    cases ha
  cases h with
  | blank hblank =>
      refine ⟨rfl, stops_of_isAdmitted (isAdmitted_iff.2 (.inr (.inl hblank))) hgoes rfl, ?_,
        fun v => ?_⟩
      · rintro rfl
        cases hblank
      · rw [tokenize_blank hblank]
        cases tokenize v <;> rfl
  | symbol hblank hsymbol =>
      refine ⟨rfl, stops_of_isAdmitted (isAdmitted_iff.2 (.inr (.inr (.inl ⟨_, hsymbol⟩))))
        hgoes rfl, ?_,
        fun v => tokenize_symbol hblank hsymbol v⟩
      rintro rfl
      cases hsymbol
  | word hword => cases hnone _ rfl
  | number hnumber hmantissa => cases hnone _ rfl

end Token

/-- Known names do not end as a mantissa with the letter of an exponent. -/
theorem expectsExponent_of_isAdmittedWord {w : Text} (h : isAdmittedWord w = true) :
    expectsExponent w = false := by
  rw [isAdmittedWord, Bool.or_eq_true, beq_iff_eq] at h
  rcases h with rfl | hcontains
  · rfl
  · have hentry :=
      Vocabulary.of_contains (p := fun name => !expectsExponent name.toList) (by decide +kernel)
      hcontains
    rwa [String.toList_ofList, Bool.not_eq_true'] at hentry

namespace Canonical

theorem stops_percent (t : Text) : Stops '%' t :=
  ⟨by decide, by decide, by decide, fun h => by simp at h⟩

/-! ## The second pass -/

/-- A character that stops every scanner is copied. -/
theorem expandPercents_cons {c : Char} (hc : Stops c []) (hne : c ≠ '%') (t : Text) :
    expandPercents (c :: t) = c :: expandPercents t := by
  have happend := expandPercents_parts (parts_of_expectsExponent (t := []) rfl hc t) hne
  rwa [expandPercents, List.nil_append, List.nil_append] at happend

/-- Detached texts stay so. -/
theorem detached_expandPercents {t : Text} (ht : Detached t) (hhead : t.head? ≠ some '%') :
    Detached (expandPercents t) := by
  cases t with
  | nil =>
      rw [expandPercents]
      exact ht
  | cons c t =>
      rw [expandPercents_cons (ht c rfl) fun h => hhead (congrArg some h)]
      exact ht

section
variable {u : Text} (hexponent : expectsExponent u = false)
include hexponent

/-- A text without percent signs in front of a detached one is copied. -/
theorem expandPercents_detached (hnone : '%' ∉ u) {t : Text} (ht : Detached t)
    (hhead : t.head? ≠ some '%') : expandPercents (u ++ t) = u ++ expandPercents t := by
  have hself : expandPercents u = u :=
    expandPercents_eq_self (percentFree_of_ne fun c hc hpercent =>
    hnone (hpercent ▸ hc))
  rcases ht.cases hexponent with rfl | ⟨c, v, rfl, hparts⟩
  · rw [List.append_nil, hself, expandPercents, List.append_nil]
  · have hne : c ≠ '%' := fun h => hhead (congrArg some h)
    rw [expandPercents_parts (hparts v) hne, hself, expandPercents_cons (ht c rfl) hne]

/-- **A numeral with a percent sign behind it** is divided by 100 from its first character on. -/
theorem expandPercents_percent (hne : u ≠ []) (hsplit : splitNumeral u = (u, [])) (t : Text) :
    expandPercents (u ++ '%' :: t) = '(' :: u ++ hundredth ++ expandPercents t := by
  have hwhole := splitNumeral_detached (u := '%' :: t) hexponent fun c hc => by
    cases hc
    exact stops_percent []
  rw [hsplit] at hwhole
  cases u with
  | nil => exact absurd rfl hne
  | cons c u =>
      rw [List.cons_append] at hwhole ⊢
      rw [expandPercents]
      simp only [hwhole, List.isEmpty_cons, Bool.false_eq_true, if_false, List.nil_append,
        List.head?_cons, if_true, List.tail_cons]

end

/-! ## Texts with percent signs -/

/-- The text with a percent sign right behind each number whose rank is chosen. The ranks start at
`n`. -/
def withPercents (chosen : Nat → Bool) (n : Nat) : Text → Text
  | [] => []
  | c :: t =>
    match (scan c t).1 with
    | .ok (some (.number _)) =>
      scanned c t ++ (if chosen n then ['%'] else []) ++ withPercents chosen (n + 1) (scan c t).2
    | _ => scanned c t ++ withPercents chosen n (scan c t).2
termination_by t => t.length
decreasing_by all_goals exact length_scan_lt c t

theorem withPercents_number (chosen : Nat → Bool) (n : Nat) {c : Char} {t : Text} {x : Float}
    (hscan : (scan c t).1 = .ok (some (.number x))) :
    withPercents chosen n (c :: t) =
      scanned c t ++ (if chosen n then ['%'] else []) ++
        withPercents chosen (n + 1) (scan c t).2 := by
  rw [withPercents, hscan]

theorem withPercents_other (chosen : Nat → Bool) (n : Nat) {c : Char} {t : Text}
    {token? : Option Token}
    (hscan : (scan c t).1 = .ok token?) (hother : ∀ a ∈ token?, a.isNumber = false) :
    withPercents chosen n (c :: t) = scanned c t ++ withPercents chosen n (scan c t).2 := by
  rw [withPercents, hscan]
  split
  · rename_i x heq
    cases heq
    cases hother _ rfl
  · rfl

/-- It starts as the text does. -/
theorem head?_withPercents (chosen : Nat → Bool) (n : Nat) (t : Text) :
    (withPercents chosen n t).head? = t.head? := by
  cases t with
  | nil => rw [withPercents]
  | cons c t =>
      obtain ⟨hne, happend⟩ := (scans c t).append
      obtain ⟨d, u, hread⟩ := List.exists_cons_of_ne_nil hne
      rw [hread] at happend
      rw [withPercents, hread, (List.cons.inj happend).1]
      split <;> rfl

/-- So it is detached where the text is, and has no percent sign in front. -/
theorem detached_withPercents (chosen : Nat → Bool) (n : Nat) {t : Text} {ts : List Token}
    (h : tokenize t = .ok ts) (hdetached : Detached t) :
    Detached (withPercents chosen n t) ∧ (withPercents chosen n t).head? ≠ some '%' := by
  rw [Detached, head?_withPercents]
  refine ⟨hdetached, fun hpercent => ?_⟩
  exact (isAdmitted_of_tokenize h (List.mem_of_head? hpercent)).2 rfl

/-! ## Numbers and names -/

/-- The text is read as the token, and the second pass takes it in one piece: as it is, or as one
numeral. -/
structure IsPiece (a : Token) (u : Text) : Prop where
  noExponent : expectsExponent u = false
  noPercent : '%' ∉ u
  tokens : tokenize u = .ok [a]
  numeral : a.isNumber = true → splitNumeral u = (u, [])

/-- The name is one of the vocabulary or the word for the last answer, in any case. -/
def IsKnown (name : String) : Prop :=
  ∃ w, isAdmittedWord w = true ∧ lower w = lower name.toList

/-- A number, or a known name, does not expect an exponent. -/
theorem expectsExponent_of_finds {c : Char} {t u rest : Text} {a : Token}
    (h : Finds c t (some a) u rest)
    (ha : a.isAtom = true) (hname : ∀ name, a = .name name → IsKnown name) :
    expectsExponent u = false := by
  cases h with
  | symbol hblank hsymbol =>
      cases isSymbol hsymbol <;> cases ha
  | word hword =>
      obtain ⟨w, hw, hlower⟩ := hname _ rfl
      rw [String.toList_ofList] at hlower
      rw [← expectsExponent_lower, ← hlower, expectsExponent_lower]
      exact expectsExponent_of_isAdmittedWord hw
  | number hnumber hmantissa =>
      obtain ⟨v, d, hends, hd⟩ := number_ends t hnumber
      rw [hends]
      refine expectsExponent_concat ⟨?_, ?_⟩ v <;> rintro rfl <;> cases hd

/-- **A number or a known name is a piece** where what comes after it is detached. -/
theorem isPiece_of_scan {c : Char} {t : Text} {a : Token} {us : List Token}
    (hscan : (scan c t).1 = .ok (some a)) (hrest : tokenize (scan c t).2 = .ok us)
    (hdetached : Detached (scan c t).2) (ha : a.isAtom = true)
    (hname : ∀ name, a = .name name → IsKnown name) : IsPiece a (scanned c t) := by
  have happend := (scans c t).append.2
  have htokens : tokenize (c :: t) = .ok (a :: us) := by
    rw [tokenize_cons, hscan, hrest]
    rfl
  have hexponent := expectsExponent_of_finds (finds hscan) ha hname
  refine ⟨hexponent, fun hmem => ?_, ?_, fun hnumber => ?_⟩
  · rw [← happend] at htokens
    exact (isAdmitted_of_tokenize htokens (List.mem_append_left _ hmem)).2 rfl
  -- Of the tokens of both parts those of the second are known, and so is the text behind the
  -- numeral.
  · rw [← happend, tokenize_detached hexponent hdetached, hrest] at htokens
    obtain ⟨vs, hvs, heq⟩ := bind_eq_ok.1 htokens
    have hsame : vs ++ us = [a] ++ us := Except.ok.inj heq
    rw [hvs, List.append_cancel_right hsame]
  · cases a with
    | number x =>
        have hwhole := (finds hscan).splitNumeral_eq fun y => isDigit_of_tokenize htokens
        rw [← happend, splitNumeral_detached hexponent hdetached] at hwhole
        obtain ⟨hfirst, hsecond⟩ := Prod.mk.inj hwhole
        exact Prod.ext hfirst (List.append_left_eq_self.1 hsecond)
    | _ => cases hnumber

namespace IsPiece

variable {u t : Text}

/-- A piece in front of a detached text stays a token. -/
theorem tokenize_append {a : Token} (h : IsPiece a u) (ht : Detached t)
    (hhead : t.head? ≠ some '%') :
    tokenize (expandPercents (u ++ t)) = (tokenize (expandPercents t)).map (a :: ·) := by
  rw [expandPercents_detached h.noExponent h.noPercent ht hhead,
    tokenize_detached h.noExponent (detached_expandPercents ht hhead), h.tokens]
  cases tokenize (expandPercents t) <;> rfl

/-- **A number in front of a percent sign is divided by 100.** -/
theorem tokenize_percent {x : Float} (h : IsPiece (.number x) u) :
    tokenize (expandPercents (u ++ '%' :: t)) = (tokenize (expandPercents t)).map
      ([.openParen, .number x, .operator .div, .number 100, .closeParen] ++ ·) := by
  have hne : u ≠ [] := by
    rintro rfl
    have htokens := h.tokens
    rw [tokenize] at htokens
    cases htokens
  have hslash : ofSymbol? '/' = some (.operator .div) := rfl
  have hclose : ofSymbol? ')' = some .closeParen := rfl
  have hhundred : tokenize ['1', '0', '0'] = .ok [.number 100] :=
    eq_ok_of_toOption (by decide +kernel)
  have hexpanded : expandPercents (u ++ '%' :: t) =
      '(' :: (u ++ '/' :: (['1', '0', '0'] ++ ')' :: expandPercents t)) := by
    rw [expandPercents_percent h.noExponent hne (h.numeral rfl)]
    simp [hundredth]
  rw [hexpanded, tokenize_symbol rfl rfl, tokenize_stop (stops_of_ofSymbol? hslash (by decide) _),
    h.tokens, tokenize_symbol rfl hslash, tokenize_stop (stops_of_ofSymbol? hclose (by decide) _),
    hhundred, tokenize_symbol rfl hclose]
  cases tokenize (expandPercents t) <;> rfl

end IsPiece

/-! ## Expressions -/

/-- **The tokens behind the second pass** of a text with percent signs are its tokens with the
chosen numbers divided by 100, if no number or name is right behind another one and the names are
known. -/
theorem tokenize_withPercents (chosen : Nat → Bool) {t : Text} {ts : List Token}
    (h : tokenize t = .ok ts) (hchain : ts.IsChain fun a b => a.isAtom = true → b.isAtom = false)
    (hnames : ∀ name, .name name ∈ ts → IsKnown name) (n : Nat) :
    tokenize (expandPercents (withPercents chosen n t)) =
      .ok (Token.replaceNumbers (Token.hundredth chosen) n ts) := by
  induction t using scan_induction generalizing ts n with
  | nil =>
      rw [tokenize] at h
      cases h
      rw [withPercents, expandPercents, tokenize]
      rfl
  | step c t ih =>
      obtain ⟨token?, us, hscan, hrest, rfl⟩ := tokenize_cons_eq_ok h
      have hlater : ∀ m, tokenize (expandPercents (withPercents chosen m (scan c t).2)) =
          .ok (Token.replaceNumbers (Token.hundredth chosen) m us) :=
        ih hrest hchain.right_of_append fun name hname =>
          hnames name (List.mem_append_right _ hname)
      by_cases hplain : ∀ a ∈ token?, a.isAtom = false
      · obtain ⟨hread, hstops, hne, hsingle⟩ := (finds hscan).single hplain
        have hother : ∀ a ∈ token?, a.isNumber = false := by
          intro a ha
          have hnone := hplain a ha
          cases a <;> first | rfl | cases hnone
        rw [withPercents_other chosen n hscan hother, hread, List.singleton_append,
          expandPercents_cons hstops hne, hsingle, hlater]
        cases token? with
        | none => rfl
        | some a => exact congrArg Except.ok (Token.replaceNumbers_cons _ n (hother a rfl) us).symm
      · obtain ⟨a, htoken, ha⟩ : ∃ a, token? = some a ∧ a.isAtom = true := by
          simpa using hplain
        subst htoken
        -- What comes after a number or a name is no other one, and so detached.
        obtain ⟨hnext, -⟩ := List.isChain_cons.1 hchain
        have hdetached := detached_of_tokenize hrest fun b hb => hnext b hb ha
        have hpiece := isPiece_of_scan hscan hrest hdetached ha fun name hname =>
          hnames name (hname ▸ List.mem_cons_self)
        have hkept : ∀ m,
            tokenize (expandPercents (scanned c t ++ withPercents chosen m (scan c t).2)) =
              .ok (a :: Token.replaceNumbers (Token.hundredth chosen) m us) := by
          intro m
          obtain ⟨hafter, hhead⟩ := detached_withPercents chosen m hrest hdetached
          rw [hpiece.tokenize_append hafter hhead, hlater]
          rfl
        cases a with
        | number x =>
            rw [withPercents_number chosen n hscan, List.append_assoc]
            show _ = Except.ok (Token.hundredth chosen n x ++ _)
            cases hchosen : chosen n with
            | false =>
                rw [if_neg Bool.false_ne_true, List.nil_append, hkept, Token.hundredth, hchosen]
                rfl
            | true =>
                rw [if_pos rfl, List.singleton_append, hpiece.tokenize_percent, hlater,
                  Token.hundredth, hchosen]
                rfl
        | name name =>
            rw [withPercents_other chosen n hscan (by simp [isNumber]), hkept]
            rfl
        | _ => cases ha

/-- **Percent signs divide the numbers they follow.** In an expression of known names let any of the
numbers have a percent sign behind them. Then the text is read with each of them divided by 100 in
parentheses, and it is an expression, whose tree is that of the text without percent signs, but for
the divisions in place of the numbers. -/
theorem percent_divides (chosen : Nat → Bool) {t : Text} {ts : List Token} {items : List Item}
    (htokens : tokenize t = .ok ts) (hitems : toPostfix ts = .ok items)
    (hnames : ∀ name, .name name ∈ ts → IsKnown name) :
    tokenize (expandPercents (withPercents chosen 0 t)) =
      .ok (Token.replaceNumbers (Token.hundredth chosen) 0 ts) ∧
    ∃ e items', toPostfix (Token.replaceNumbers (Token.hundredth chosen) 0 ts) = .ok items' ∧
      (∀ limit, e.height ≤ limit → Expr.ofPostfix limit items = .ok e) ∧
      ∀ limit, (e.replaceNumbers (Expr.hundredth chosen) 0).height ≤ limit →
        Expr.ofPostfix limit items' = .ok (e.replaceNumbers (Expr.hundredth chosen) 0) := by
  obtain ⟨e, he, rfl⟩ := Grammar.derives_of_toPostfix hitems
  have hreplaced := he.replaceNumbers (Grammar.derives_hundredth chosen) 0
  have hrebuilt : ∀ (f : Expr) limit, f.height ≤ limit → Expr.ofPostfix limit f.toItems = .ok f :=
    fun f _ hlimit => Expr.ofPostfix_toItems fun node hnode =>
      (Expr.height_le_of_mem_operations f node hnode).trans hlimit
  exact ⟨tokenize_withPercents chosen htokens (isChain_of_toPostfix hitems) hnames 0, e, _,
    Grammar.toPostfix_of_derives hreplaced, hrebuilt e, hrebuilt _⟩

/-- With percent signs behind the argument of a call and behind a power, whose exponent is part of
the number. -/
theorem percent_divides_power :
    withPercents (· != 0) 0 "2+log10(5)^1e2".toList = "2+log10(5%)^1e2%".toList ∧
      tokenize (expandPercents "2+log10(5%)^1e2%".toList) =
        .ok [.number 2, .operator .add, .name "log10", .openParen, .openParen, .number 5,
          .operator .div, .number 100, .closeParen, .closeParen, .operator .pow, .openParen,
          .number 100, .operator .div, .number 100, .closeParen] ∧
      Expr.ofPostfix 5 [.number 2, .number 5, .number 100, .action (.apply .div), .call "log10" 1,
          .number 100, .number 100, .action (.apply .div), .action (.apply .pow),
          .action (.apply .add)] =
        .ok (.apply .add (.number 2)
          (.apply .pow (.call "log10" [.apply .div (.number 5) (.number 100)])
            (.apply .div (.number 100) (.number 100)))) := by
  have hread : tokenize "2+log10(5)^1e2".toList =
      .ok [.number 2, .operator .add, .name "log10", .openParen,
      .number 5, .closeParen, .operator .pow, .number 100] := eq_ok_of_toOption (by decide +kernel)
  have hitems : toPostfix [.number 2, .operator .add, .name "log10", .openParen, .number 5,
      .closeParen,
      .operator .pow, .number 100] = .ok [.number 2, .number 5, .call "log10" 1, .number 100,
        .action (.apply .pow), .action (.apply .add)] := rfl
  have hmarked : withPercents (· != 0) 0 "2+log10(5)^1e2".toList =
      "2+log10(5%)^1e2%".toList := by decide +kernel
  obtain ⟨htokens, e, items', hitems', htree, hdivided⟩ := percent_divides (· != 0) hread hitems (by
    intro name hname
    simp only [List.mem_cons, Token.name.injEq, List.not_mem_nil, reduceCtorEq, false_or,
      or_false] at hname
    subst hname
    exact ⟨"log10".toList, by decide +kernel, rfl⟩)
  have he : e = .apply .add (.number 2) (.apply .pow (.call "log10" [.number 5]) (.number 100)) :=
    Expr.toItems_injective (Expr.toItems_of_ofPostfix (htree _ (Nat.le_refl _)))
  subst he
  rw [hmarked] at htokens
  cases hitems'
  exact ⟨hmarked, htokens, hdivided 5 (by decide)⟩

end Canonical

end DeskCalc
