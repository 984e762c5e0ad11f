import DeskCalc.Proofs.Answer.Words
import DeskCalc.Proofs.Canonical.Readable
import DeskCalc.Proofs.Expr.Printing
import DeskCalc.Proofs.Grammar.Agreement
import DeskCalc.Proofs.Session.Run
import DeskCalc.Proofs.Session.Stages
import DeskCalc.Proofs.Token.RoundTrip

/-!
# A trace can be replayed

What a success shows can be typed again. The canonical text gives the same outcome from the same
state. The texts of the tokens and of the tree are expressions without the word for the last answer,
whose names have meanings, so they give the same value whatever the last answer is.

* `admittedText_eq_ok`, `compute_of_calculate`: how an evaluation succeeds.
* `compute_canonical`: the canonical text stands for what was typed.
* `compute_of_items`: an expression with the same items has the same value, in any state.
* `evaluate_replays`: the texts of a trace evaluate as what they are the trace of.
-/

namespace DeskCalc

open Text Token Binary64

/-! ## Success -/

theorem admittedText_eq_ok {settings : Settings} {raw text : Text} :
    admittedText settings raw = .ok text ↔
      raw.trim.isEmpty = false ∧ text = canonical raw ∧ text.length ≤ settings.maxLength ∧
        admitCharacters text = .ok () ∧ hasTwoPoints text = false := by
  rw [admittedText]
  constructor
  · intro h
    split at h
    · cases h
    · rename_i hblank
      dsimp only at h
      split at h
      · cases h
      · rename_i hlength
        obtain ⟨⟨⟩, hcharacters, hrest⟩ := bind_eq_ok.1 h
        obtain ⟨⟨⟩, hnumbers, hreturn⟩ := bind_eq_ok.1 hrest
        cases hreturn
        exact ⟨by simpa using hblank, rfl, by omega, hcharacters, admitNumbers_eq_ok.1 hnumbers⟩
  · rintro ⟨hblank, rfl, hlength, hcharacters, hpoints⟩
    rw [if_neg (by rw [hblank]; exact Bool.false_ne_true)]
    simp only [Nat.not_lt.2 hlength, if_false, hcharacters, admitNumbers_eq_ok.2 hpoints, bind,
      Except.bind]
    rfl

/-- A calculation with a finite value is a success. -/
theorem compute_of_calculate {settings : Settings} {answer : Option Float} {raw text : Text}
    {c : Calculation} (htext : admittedText settings raw = .ok text)
    (hc : calculate settings.maxHeight (Answer.substitute (Answer.literal answer) text) = .ok c)
    (hfinite : c.value.isFinite = true) :
    compute settings answer raw = .ok {
      value := roundTo settings.decimals c.value
      trace := {
        canonical := text
        tokens := Token.listText c.tokens
        items := Item.listText c.items
        tree := c.tree.text } } := by
  rw [compute, htext]
  dsimp only [bind, Except.bind]
  rw [hc]
  exact if_pos hfinite

/-! ## Blank texts -/

theorem isBlank_of_trim_isEmpty {t : Text} (h : t.trim.isEmpty = true) :
    ∀ c ∈ t, isBlank c = true := by
  rw [trim, trimEnd, List.isEmpty_iff, List.reverse_eq_nil_iff] at h
  have hend := of_dropWhile_eq_nil h
  have hhead := head?_dropWhile_any isBlank t
  cases hrest : t.dropWhile isBlank with
  | nil => exact of_dropWhile_eq_nil hrest
  | cons c rest =>
      rw [hrest] at hend hhead
      have hc : isBlank c = false := hhead
      rw [hend c (by simp)] at hc
      cases hc

theorem tokenize_of_blank {t : Text} (h : ∀ c ∈ t, isBlank c = true) : tokenize t = .ok [] := by
  induction t with
  | nil => simp [tokenize]
  | cons c t ih =>
      rw [tokenize_blank (h c List.mem_cons_self)]
      exact ih fun x hx => h x (List.mem_cons_of_mem c hx)

/-- An expression is not blank. -/
theorem trim_isEmpty_of_toPostfix {t : Text} {ts : List Token} {items : List Item}
    (htokens : tokenize t = .ok ts) (hitems : toPostfix ts = .ok items) :
    t.trim.isEmpty = false := by
  rw [← Bool.not_eq_true]
  intro hempty
  rw [tokenize_of_blank (isBlank_of_trim_isEmpty hempty)] at htokens
  cases htokens
  cases hitems

/-! ## The canonical text -/

/-- **The canonical text stands for what was typed**, where that is an expression. -/
theorem compute_canonical {settings : Settings} {answer : Option Float} {raw : Text}
    {outcome : Outcome} (h : compute settings answer raw = .ok outcome) :
    compute settings answer outcome.trace.canonical = .ok outcome := by
  obtain ⟨text, c, htext, hc, hfinite, hvalue, htrace⟩ := compute_eq_ok h
  obtain ⟨-, rfl, hadmitted⟩ := admittedText_eq_ok.1 htext
  obtain ⟨htokens, hitems, -, -⟩ := calculate_eq_ok.1 hc
  have hcanonical : outcome.trace.canonical = canonical raw := by rw [htrace]
  have hnot_blank : (canonical raw).trim.isEmpty = false := by
    rw [← Bool.not_eq_true]
    intro hempty
    have hblank := isBlank_of_trim_isEmpty hempty
    have hsame : Answer.substitute (Answer.literal answer) (canonical raw) = canonical raw := by
      refine Answer.substitute_eq_self fun x hx => ?_
      rintro rfl
      cases hblank _ hx
    rw [hsame] at htokens
    rw [trim_isEmpty_of_toPostfix htokens hitems] at hempty
    cases hempty
  have hagain : admittedText settings (canonical raw) = .ok (canonical raw) :=
    admittedText_eq_ok.2 ⟨hnot_blank, (canonical_canonical raw).symm, hadmitted⟩
  rw [hcanonical, compute_of_calculate hagain hc hfinite, ← hvalue, ← htrace]

/-! ## Expressions without the last answer -/

/-- **An expression with the same items has the same value**, whatever the last answer is. -/
theorem compute_of_items {settings : Settings} {t : Text} {ts : List Token} {c : Calculation}
    (htokens : tokenize t = .ok ts) (hitems : toPostfix ts = .ok c.items)
    (htree : Expr.ofPostfix settings.maxHeight c.items = .ok c.tree)
    (hvalue : c.tree.eval = .ok c.value) (hfinite : c.value.isFinite = true)
    (hlength : t.length ≤ settings.maxLength) (answer : Option Float) :
    compute settings answer t = .ok {
      value := roundTo settings.decimals c.value
      trace := {
        canonical := t
        tokens := Token.listText ts
        items := Item.listText c.items
        tree := c.tree.text } } := by
  have hnames : ∀ name, .name name ∈ ts → Vocabulary.contains name = true := by
    intro name hname
    have hlooked := c.tree.looked_eval
    rw [hvalue, ← (Grammar.derives_of_ofPostfix hitems htree).filter_isAtom] at hlooked
    exact hlooked name (List.mem_filter.2 ⟨hname, rfl⟩)
  have hnormal := normal_of_toPostfix htokens hnames hitems
  have htext : admittedText settings t = .ok t :=
    admittedText_eq_ok.2 ⟨trim_isEmpty_of_toPostfix htokens hitems, hnormal.canonical_eq_self.symm,
      hlength, admitCharacters_of_tokenize htokens hnames, hasTwoPoints_of_tokenize htokens⟩
  have hsource : Answer.substitute (Answer.literal answer) t = t := by
    refine Answer.substitute_eq_self fun x hx => ?_
    rintro rfl
    obtain ⟨name, hname, hletter⟩ := exists_name_of_mem htokens hx rfl (by decide)
    exact Vocabulary.not_mem_of_contains (hnames name hname) hletter
  have hcalculate : calculate settings.maxHeight (Answer.substitute (Answer.literal answer) t) =
      .ok { c with tokens := ts } := by
    rw [hsource]
    exact calculate_eq_ok.2 ⟨htokens, hitems, htree, hvalue⟩
  exact compute_of_calculate htext hcalculate hfinite

namespace Session

theorem evaluate_eq_ok {s : Session} {raw : Text} {outcome : Outcome} :
    (s.evaluate raw).1 = .ok outcome ↔ compute s.settings s.answer raw = .ok outcome := by
  rw [evaluate]
  cases compute s.settings s.answer raw <;> exact Iff.rfl

/-- **The trace of a success can be replayed.** The canonical text evaluates as what was typed, from
the same state. If all numbers were finite, the texts of the tokens and of the tree give the same
value, items and tree from any last answer, as long as they are not too long. -/
theorem evaluate_replays (s : Session) (raw : Text) (outcome : Outcome)
    (h : (s.evaluate raw).1 = .ok outcome) :
    s.evaluate outcome.trace.canonical = s.evaluate raw ∧
    ((∀ ts, tokenize (Answer.substitute (Answer.literal s.answer) outcome.trace.canonical) =
      .ok ts → ∀ x, .number x ∈ ts → x.isFinite = true) →
      ∀ t ∈ [outcome.trace.tokens, outcome.trace.tree], t.length ≤ s.settings.maxLength →
        ∀ answer, ∃ replayed, (({ s with answer } : Session).evaluate t).1 = .ok replayed ∧
          replayed.value = outcome.value ∧ replayed.trace.items = outcome.trace.items ∧
          replayed.trace.tree = outcome.trace.tree) := by
  have hcompute := evaluate_eq_ok.1 h
  refine ⟨?_, fun hnumbers t ht hlength answer => ?_⟩
  · rw [evaluate, evaluate, compute_canonical hcompute, hcompute]
  obtain ⟨text, c, htext, hc, hfinite, hvalue, htrace⟩ := compute_eq_ok hcompute
  obtain ⟨htokens, hitems, htree, heval⟩ := calculate_eq_ok.1 hc
  rw [htrace] at hnumbers ht
  have hprintable := printable_of_tokenize htokens (hnumbers _ htokens)
  -- Both texts are expressions with the same items.
  have hreads : ∃ ts, tokenize t = .ok ts ∧ toPostfix ts = .ok c.items := by
    simp only [List.mem_cons, List.not_mem_nil, or_false] at ht
    rcases ht with rfl | rfl
    · exact ⟨c.tokens, tokenize_listText hprintable, hitems⟩
    · refine ⟨c.tree.textTokens, Expr.tokenize_text fun token htoken => ?_, ?_⟩
      · rw [← (Grammar.derives_of_ofPostfix hitems htree).filter_isAtom] at htoken
        exact hprintable token (List.mem_filter.1 htoken).1
      · rw [Expr.toPostfix_textTokens, Expr.toItems_of_ofPostfix htree]
  obtain ⟨ts, hts, hsame⟩ := hreads
  refine ⟨_, evaluate_eq_ok.2 (compute_of_items hts hsame htree heval hfinite hlength answer), ?_⟩
  rw [hvalue, htrace]
  exact ⟨rfl, rfl, rfl⟩

/-- The percentage `50%` and the texts of its trace, from every last answer. -/
theorem evaluate_replays_percentage :
    ∃ outcome, ((Session.new .standard).evaluate "50%".toList).1 = .ok outcome ∧
      outcome.value = 0.5 ∧
      (Session.new .standard).evaluate "(50/100)".toList =
        (Session.new .standard).evaluate "50%".toList ∧
      ∀ t ∈ ["( 50 / 100 )".toList, "(50 / 100)".toList], ∀ answer, ∃ replayed,
        (({ Session.new .standard with answer } : Session).evaluate t).1 = .ok replayed ∧
          replayed.value = 0.5 := by
  have hsuccess : ((Session.new .standard).evaluate "50%".toList).1 = .ok {
      value := 0.5
      trace := {
        canonical := "(50/100)".toList
        tokens := "( 50 / 100 )".toList
        items := "50 100 /".toList
        tree := "(50 / 100)".toList } } := eq_ok_of_toOption (by decide +kernel)
  have htokens : tokenize (Answer.substitute (Answer.literal none) "(50/100)".toList) =
      .ok [.openParen, .number 50, .operator .div, .number 100, .closeParen] :=
    eq_ok_of_toOption (by decide +kernel)
  have hfinite : ∀ x, Token.number x ∈
      [.openParen, .number 50, .operator .div, .number 100, .closeParen] → x.isFinite = true := by
    intro x hx
    have hx : x = 50 ∨ x = 100 := by simpa using hx
    rcases hx with rfl | rfl <;> decide +kernel
  obtain ⟨hcanonical, htexts⟩ := evaluate_replays (Session.new .standard) "50%".toList _ hsuccess
  refine ⟨_, hsuccess, rfl, hcanonical, fun t ht answer => ?_⟩
  have hlength : t.length ≤ Settings.standard.maxLength := by
    simp only [List.mem_cons, List.not_mem_nil, or_false] at ht
    rcases ht with rfl | rfl <;> decide
  have hnumbers : ∀ ts,
      tokenize (Answer.substitute (Answer.literal none) "(50/100)".toList) = .ok ts →
        ∀ x, .number x ∈ ts → x.isFinite = true := by
    intro ts hts
    rw [htokens] at hts
    cases hts
    exact hfinite
  obtain ⟨replayed, hreplayed, hvalue, -⟩ := htexts hnumbers t ht hlength answer
  exact ⟨replayed, hreplayed, hvalue⟩

end Session

end DeskCalc
