import DeskCalc.Proofs.Answer.Typed
import DeskCalc.Proofs.Canonical.Marks
import DeskCalc.Proofs.Session.Replay

/-!
# Points and percent signs of a success

What is typed with two points in a row, or with a percent sign that follows no number, is never
evaluated. Two points may be hidden from admission, when the second pass puts a parenthesis between
them, but no expression has a parenthesis right behind a number. A percent sign that is left over is
admitted and starts no token. The answer that is written into the text in between takes neither
away.

* `number_of_point`: a text that ends in a point ends in a number.
* `toPostfix_point_paren`: a point in front of a parenthesis.
* `Session.evaluate_marks`: the points and percent signs of a success.
-/

namespace DeskCalc

open Text Token Canonical

namespace Token

/-- Only in a number is a point read last. -/
theorem Finds.number_of_point {c : Char} {t u rest : Text} {token? : Option Token}
    (h : Finds c t token? u rest) (hlast : u.getLast? = some '.') :
    ∃ x, token? = some (.number x) := by
  have hmem := List.mem_of_getLast? hlast
  cases h with
  | blank hblank =>
      rw [← List.mem_singleton.1 hmem] at hblank
      cases hblank
  | symbol hblank hsymbol =>
      rw [← List.mem_singleton.1 hmem] at hsymbol
      cases hsymbol
  | word hword => cases of_mem_run (isWordChar_of_startsWord hword) hmem
  | number hnumber hmantissa => exact ⟨_, rfl⟩

/-- **A text that ends in a point ends in a number**, if it can be read. -/
theorem number_of_point {t : Text} {ts : List Token} (h : tokenize t = .ok ts)
    (hlast : t.getLast? = some '.') : ∃ us x, ts = us ++ [.number x] := by
  induction t using scan_induction generalizing ts with
  | nil => cases hlast
  | step c t ih =>
      obtain ⟨token?, us, hscan, hrest, rfl⟩ := tokenize_cons_eq_ok h
      rw [← (scans c t).append.2, List.getLast?_append] at hlast
      cases hlater : (scan c t).2.getLast? with
      | some d =>
          rw [hlater] at hlast
          obtain ⟨vs, x, rfl⟩ := ih hrest (hlater.trans hlast)
          exact ⟨token?.toList ++ vs, x, (List.append_assoc _ vs _).symm⟩
      | none =>
          rw [hlater] at hlast
          obtain ⟨x, rfl⟩ := (finds hscan).number_of_point hlast
          rw [List.getLast?_eq_none_iff.1 hlater, tokenize] at hrest
          cases hrest
          exact ⟨[], x, rfl⟩

/-- **No expression has a point right in front of a parenthesis.** -/
theorem toPostfix_point_paren {t : Text} {ts : List Token} (htokens : tokenize t = .ok ts)
    (hpair : ['.', '('] <:+: t) : ∃ fault, toPostfix ts = .error fault := by
  obtain ⟨a, b, rfl⟩ := hpair
  have hsymbol : ofSymbol? '(' = some .openParen := rfl
  have hstops := stops_of_ofSymbol? hsymbol (by decide) b
  have hsplit : a ++ ['.', '('] ++ b = (a ++ ['.']) ++ '(' :: b := by simp
  rw [hsplit, tokenize_stop hstops, tokenize_symbol rfl hsymbol] at htokens
  obtain ⟨us, hus, hrest⟩ := bind_eq_ok.1 htokens
  obtain ⟨vs, hvs, hreturn⟩ := bind_eq_ok.1 hrest
  obtain ⟨ws, x, rfl⟩ := number_of_point hus List.getLast?_concat
  cases hb : tokenize b with
  | error fault =>
      rw [hb] at hvs
      cases hvs
  | ok later =>
      rw [hb] at hvs
      cases hvs
      cases hreturn
      rw [List.append_assoc]
      exact toPostfix_number_operand ws later x rfl

end Token

namespace Answer

theorem substitute_append {answer w : Text} (hw : ∀ c ∈ w, isWordChar c = false) (t : Text) :
    substitute answer (w ++ t) = w ++ substitute answer t := by
  induction w with
  | nil => rfl
  | cons c w ih =>
      obtain ⟨hc, hrest⟩ := List.forall_mem_cons.1 hw
      rw [List.cons_append, substitute, if_neg (by rw [hc]; exact Bool.false_ne_true), ih hrest,
        List.cons_append]

/-- The answer is written in place of words, and all else is kept. -/
theorem infix_substitute {answer w t : Text} (hw : ∀ c ∈ w, isWordChar c = false) (h : w <:+: t) :
    w <:+: substitute answer t := by
  obtain ⟨a, b, rfl⟩ := h
  cases w with
  | nil => exact List.nil_infix
  | cons c w =>
      obtain ⟨hc, hrest⟩ := List.forall_mem_cons.1 hw
      rw [List.append_assoc, List.cons_append, substitute_stop hc, substitute_append hrest]
      exact ⟨substitute answer a, substitute answer b, by simp⟩

end Answer

namespace Session

/-- **A success has no two points in a row, and its percent signs follow numbers.** Every percent
sign stands right behind an ASCII digit, or behind a point that stands right behind one. -/
theorem evaluate_marks (s : Session) {raw : Text} {outcome : Outcome}
    (h : (s.evaluate raw).1 = .ok outcome) :
    ¬ ['.', '.'] <:+: raw ∧
    ∀ before after, raw = before ++ '%' :: after →
      ∃ u d, d.isDigit = true ∧ (before = u ++ [d] ∨ before = u ++ [d, '.']) := by
  obtain ⟨text, c, htext, hc, -, -, -⟩ := compute_eq_ok (evaluate_eq_ok.1 h)
  obtain ⟨-, rfl, -, hcharacters, hpoints⟩ := admittedText_eq_ok.1 htext
  obtain ⟨htokens, hitems, -, -⟩ := calculate_eq_ok.1 hc
  constructor
  · intro htwo
    rcases points_canonical htwo with htouch | hparen
    · rw [points_iff, hpoints] at htouch
      cases htouch
    · have hkept : ['.', '('] <:+: Answer.substitute (Answer.literal s.answer) (canonical raw) :=
        Answer.infix_substitute (List.forall_mem_cons.2 ⟨rfl, List.forall_mem_singleton.2 rfl⟩)
          hparen
      obtain ⟨fault, hfault⟩ := toPostfix_point_paren htokens hkept
      rw [hfault] at hitems
      cases hitems
  · intro before after hraw
    have hnone : '%' ∉ canonical raw := by
      intro hmem
      have hkept : ['%'] <:+: Answer.substitute (Answer.literal s.answer) (canonical raw) :=
        Answer.infix_substitute (List.forall_mem_singleton.2 rfl) (infix_of_mem hmem)
      exact (isAdmitted_of_tokenize htokens (hkept.subset (List.mem_singleton_self '%'))).2 rfl
    obtain ⟨u, d, hd, hmem, hends⟩ := percent_canonical hnone hraw
    have hchar : goesOn d = true ∨ isBlank d = true ∨ ∃ token, ofSymbol? d = some token := by
      have hadmitted := (admitCharacters_eq_ok.1 hcharacters).1 d hmem
      rcases isAdmitted_iff.1 hadmitted with hgoes | hblank | hsymbol | rfl
      · exact .inl hgoes
      · exact .inr (.inl hblank)
      · exact .inr (.inr hsymbol)
      · cases hd
    rw [isDecimalDigit_eq_isDigit hchar] at hd
    exact ⟨u, d, hd, hends⟩

/-- `1.%` is evaluated, and its percent sign stands behind a point that a digit stands in front of.
-/
theorem evaluate_marks_point :
    (∃ outcome, ((Session.new .standard).evaluate "1.%+2%".toList).1 = .ok outcome ∧
      outcome.value = 0.03) ∧
    ∃ u d, d.isDigit = true ∧ ("1.".toList = u ++ [d] ∨ "1.".toList = u ++ [d, '.']) := by
  have hsuccess : ((Session.new .standard).evaluate "1.%+2%".toList).1 = .ok {
      value := 0.03
      trace := {
        canonical := "(1./100)+(2/100)".toList
        tokens := "( 1 / 100 ) + ( 2 / 100 )".toList
        items := "1 100 / 2 100 / +".toList
        tree := "((1 / 100) + (2 / 100))".toList } } := eq_ok_of_toOption (by decide +kernel)
  exact ⟨⟨_, hsuccess, rfl⟩, (evaluate_marks _ hsuccess).2 "1.".toList "+2%".toList (by decide)⟩

end Session

end DeskCalc
