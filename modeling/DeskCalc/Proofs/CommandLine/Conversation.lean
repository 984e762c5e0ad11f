import DeskCalc.CommandLine

/-!
# Expressions as arguments and as lines

The same expressions can be given to the program as arguments or as the lines of a conversation.
Both ways they are evaluated one after the other in one session, so every answer is written in the
same block of text; the conversation only puts its prompts between the blocks. What stands in the
way is on the side of the lines, which are cut out of the standard input, trimmed, and looked at for
commands, and on the side of the arguments, which are read as options up to the separator.

* `lines_of_ended`, `lines_of_separated`: the lines of a text that is made of them.
* `IsExpressionLine`, `respond_expression`: a line that is nothing but an expression.
* `converse_expressions`: a conversation of such lines.
* `Options.parseFrom_append`, `Options.parse_arguments`: the arguments before the separator and
  behind it.
* `run_agrees`: the program, for every choice of its options.
-/

namespace DeskCalc

open Text

namespace CommandLine

/-! ## Lines -/

/-- What stands before a line feed is the first line. -/
theorem lines_append {line : Text} (h : '\n' ∉ line) (t : Text) :
    lines (line ++ '\n' :: t) = line :: lines t := by
  induction line with
  | nil => rfl
  | cons c line ih =>
      obtain ⟨hc, hline⟩ := not_or.1 (mt List.mem_cons.2 h)
      rw [List.cons_append, lines, if_neg (Ne.symm hc), ih hline]

/-- The end of the text ends a line as well. -/
theorem lines_self {line : Text} (hne : line ≠ []) (h : '\n' ∉ line) : lines line = [line] := by
  induction line with
  | nil => exact absurd rfl hne
  | cons c line ih =>
      obtain ⟨hc, hline⟩ := not_or.1 (mt List.mem_cons.2 h)
      rw [lines, if_neg (Ne.symm hc)]
      cases line with
      | nil => rfl
      | cons d rest => rw [ih (List.cons_ne_nil d rest) hline]

/-- A text in which every line is ended by a line feed has these lines. -/
theorem lines_of_ended {ls : List Text} (h : ∀ line ∈ ls, '\n' ∉ line) :
    lines (ls.flatMap (· ++ ['\n'])) = ls := by
  induction ls with
  | nil => rfl
  | cons line ls ih =>
      obtain ⟨hline, hrest⟩ := List.forall_mem_cons.1 h
      rw [List.flatMap_cons, List.append_assoc, List.singleton_append, lines_append hline, ih hrest]

/-- A text with line feeds between its lines, which are not empty, has the same lines. -/
theorem lines_of_separated {ls : List Text} (hne : ∀ line ∈ ls, line ≠ [])
    (h : ∀ line ∈ ls, '\n' ∉ line) : lines (['\n'].intercalate ls) = ls := by
  induction ls with
  | nil => rfl
  | cons line ls ih =>
      obtain ⟨hline, hrest⟩ := List.forall_mem_cons.1 h
      obtain ⟨hsome, hothers⟩ := List.forall_mem_cons.1 hne
      cases ls with
      | nil =>
          rw [List.intercalate_singleton]
          exact lines_self hsome hline
      | cons next ls =>
          rw [List.intercalate_cons_cons, List.append_assoc, List.singleton_append,
            lines_append hline, ih hothers hrest]

/-! ## A line that is an expression -/

/-- A line that is nothing but an expression: it is not empty, has no blanks around it, is one line,
and is no command. -/
structure IsExpressionLine (e : Text) : Prop where
  ne_nil : e ≠ []
  trimmed : trim e = e
  one_line : '\n' ∉ e
  no_command : e.head? ≠ some ':'

/-- The commands start with a colon, so a line without one asks to be evaluated. -/
theorem request_expression {e : Text} (h : IsExpressionLine e) : request e = .evaluate e := by
  cases e with
  | nil => exact absurd rfl h.ne_nil
  | cons c e =>
      have hc : c ≠ ':' := fun hc => h.no_command (congrArg some hc)
      have hother : ∀ command : Text, c :: e ≠ ':' :: command := fun command hsame =>
        hc (List.cons.inj hsame).1
      have hprefix : ":ans ".toList.isPrefixOf (c :: e) = false := by
        show ((':' == c) && _) = false
        rw [beq_false_of_ne (Ne.symm hc), Bool.false_and]
      have hquit : ¬ (c :: e = ":quit".toList ∨ c :: e = ":q".toList) :=
        not_or.2 ⟨hother "quit".toList, hother "q".toList⟩
      have hanswer : ¬ c :: e = ":ans".toList := hother "ans".toList
      have hclear : ¬ c :: e = ":effacer".toList := hother "effacer".toList
      rw [request, List.isEmpty_cons, if_neg Bool.false_ne_true, if_neg hquit, if_neg hanswer,
        if_neg hclear, hprefix, if_neg Bool.false_ne_true]

theorem respond_expression {e : Text} (h : IsExpressionLine e) (style : Style) (s : Session) :
    respond style s e = some (block style (s.evaluate e).1, (s.evaluate e).2) := by
  rw [respond, h.trimmed, request_expression h]

/-- **A conversation of expressions** writes a prompt before the block of each and one at the end.
-/
theorem converse_expressions {es : List Text} (h : ∀ e ∈ es, IsExpressionLine e) (style : Style)
    (s : Session) : converse style s es =
      (((evaluateAll s es).map (block style)).map (prompt ++ ·)).flatten ++ prompt := by
  induction es generalizing s with
  | nil => rfl
  | cons e es ih =>
      obtain ⟨he, hrest⟩ := List.forall_mem_cons.1 h
      rw [converse, respond_expression he]
      dsimp only
      rw [ih hrest, evaluateAll, List.map_cons, List.map_cons, List.flatten_cons]
      simp only [List.append_assoc]

end CommandLine

/-! ## Arguments -/

namespace Options

section
variable (o : Options)

theorem parseFrom_separator (es : List Text) :
    o.parseFrom ("--".toList :: es) = some { o with expressions := o.expressions ++ es } := by
  rw [parseFrom.eq_def]
  exact if_pos rfl

theorem parseFrom_decimals {value : Text} (hvalue : looksLikeOption value = false)
    (args : List Text) :
    o.parseFrom ("--decimales".toList :: value :: args) =
      (o.giveDecimals value).bind (·.parseFrom args) := by
  rw [parseFrom.eq_def]
  dsimp only
  rw [if_neg (by decide), if_pos rfl, hvalue]
  rfl

/-- Any other argument says by itself what it is. -/
theorem parseFrom_cons {arg : Text} (hseparator : arg ≠ "--".toList)
    (hdecimals : arg ≠ "--decimales".toList) (args : List Text) :
    o.parseFrom (arg :: args) =
      if looksLikeOption arg then
        match flag? arg, decimalsValue? arg with
        | some flag, _ => (o.give flag).bind (·.parseFrom args)
        | none, some value => (o.giveDecimals value).bind (·.parseFrom args)
        | none, none => none
      else { o with expressions := o.expressions ++ [arg] }.parseFrom args := by
  rw [parseFrom.eq_def]
  dsimp only
  rw [if_neg hseparator, if_neg hdecimals]
  rfl

end

/-- **What is behind the separator is an expression**, and what is before it asks for the same as
without. -/
theorem parseFrom_append {args : List Text} {o o' : Options} (h : o.parseFrom args = some o')
    (hargs : "--".toList ∉ args) (es : List Text) :
    o.parseFrom (args ++ "--".toList :: es) =
      some { o' with expressions := o'.expressions ++ es } := by
  fun_induction parseFrom o args with
  | case1 o =>
      cases h
      exact parseFrom_separator _ es
  | case2 o args => exact absurd List.mem_cons_self hargs
  | case3 o hdash => cases h
  | case4 o value args hoption hdash => cases h
  | case5 o value args hoption hdash ih =>
      obtain ⟨next, hnext, hrest⟩ := Option.bind_eq_some_iff.1 h
      obtain ⟨-, hlater⟩ := not_or.1 (mt List.mem_cons.2 (not_or.1 (mt List.mem_cons.2 hargs)).2)
      rw [List.cons_append, List.cons_append, parseFrom_decimals o (Bool.not_eq_true _ ▸ hoption),
        hnext]
      exact ih next hrest hlater
  | case6 o arg args hdash hdecimals hoption flag hflag ih =>
      obtain ⟨next, hnext, hrest⟩ := Option.bind_eq_some_iff.1 h
      rw [List.cons_append, parseFrom_cons o hdash hdecimals, if_pos hoption]
      simp only [hflag, hnext]
      exact ih next hrest (not_or.1 (mt List.mem_cons.2 hargs)).2
  | case7 o arg args hdash hdecimals hoption value hvalue hflag ih =>
      obtain ⟨next, hnext, hrest⟩ := Option.bind_eq_some_iff.1 h
      rw [List.cons_append, parseFrom_cons o hdash hdecimals, if_pos hoption]
      simp only [hflag, hvalue, hnext]
      exact ih next hrest (not_or.1 (mt List.mem_cons.2 hargs)).2
  | case8 o arg args hdash hdecimals hoption hvalue hflag => cases h
  | case9 o arg args hdash hdecimals hoption ih =>
      rw [List.cons_append, parseFrom_cons o hdash hdecimals, if_neg hoption]
      exact ih h (not_or.1 (mt List.mem_cons.2 hargs)).2

/-- The digits of a number start with a digit, and so they are no option and have no sign. -/
theorem exists_digit_cons (n : Nat) :
    ∃ d digits, Nat.toDigits 10 n = d :: digits ∧ d ≠ '+' ∧ d ≠ '-' := by
  have hdigit : ∀ d ∈ Nat.toDigits 10 n, d.isDigit = true := fun d hd =>
    Nat.isDigit_of_mem_toDigits (by decide) (by decide) hd
  cases hdigits : Nat.toDigits 10 n with
  | nil => exact absurd hdigits Nat.toDigits_ne_nil
  | cons d digits =>
      have hd := hdigit d (by rw [hdigits]; exact List.mem_cons_self)
      refine ⟨d, digits, rfl, ?_, ?_⟩
      · rintro rfl
        cases hd
      · rintro rfl
        cases hd

/-- A number of 32 bits is read from its digits. -/
theorem parseDecimals?_toDigits {n : Nat} (h : n < 2 ^ 32) :
    parseDecimals? (Nat.toDigits 10 n) = some n := by
  have hdigits : (Nat.toDigits 10 n).all Char.isDigit = true :=
    List.all_eq_true.2 fun d hd => Nat.isDigit_of_mem_toDigits (by decide) (by decide) hd
  have hvalue : Nat.ofDigitChars 10 (Nat.toDigits 10 n) 0 = n := Nat.ofDigitChars_ten_toDigits
  obtain ⟨d, digits, htext, hplus, hminus⟩ := exists_digit_cons n
  rw [htext] at hdigits hvalue ⊢
  unfold parseDecimals?
  split
  rename_i negative number hsplit
  split at hsplit
  · rename_i hcons
    exact absurd (List.cons.inj hcons).1 hplus
  · rename_i hcons
    exact absurd (List.cons.inj hcons).1 hminus
  · cases hsplit
    simp [hdigits, hvalue, h]

/-- The arguments that choose the number of decimal places, if one is given, the trace, and the
classes of failures. -/
def arguments (decimals : Option Nat) (trace codes : Bool) : List Text :=
  (match decimals with
    | some n => ["--decimales".toList, Nat.toDigits 10 n]
    | none => []) ++
  (if trace then ["--demarche".toList] else []) ++ (if codes then ["--detail".toList] else [])

/-- What these arguments ask for. -/
def chosen (decimals : Option Nat) (trace codes : Bool) : Options where
  decimals := decimals
  given := (if codes then [.codes] else []) ++ (if trace then [.trace] else []) ++
    (if decimals.isSome then [.decimals] else [])

/-- **Every choice of the options is understood.** -/
theorem parse_arguments {decimals : Option Nat} (h : ∀ n, decimals = some n → n < 2 ^ 32)
    (trace codes : Bool) :
    parse (arguments decimals trace codes) = some (chosen decimals trace codes) := by
  -- Behind the number there is one argument or none for each of the other two.
  have hflags : ∀ n, ∀ trace codes : Bool,
      ({ decimals := n, given := if n.isSome then [.decimals] else [] } : Options).parseFrom
        ((if trace then ["--demarche".toList] else []) ++
          (if codes then ["--detail".toList] else [])) =
          some (chosen n trace codes) := by
    intro n trace codes
    cases n <;> cases trace <;> cases codes <;> rfl
  cases decimals with
  | none => exact hflags none trace codes
  | some n =>
      have hoption : looksLikeOption (Nat.toDigits 10 n) = false := by
        obtain ⟨d, digits, htext, -, hminus⟩ := exists_digit_cons n
        rw [htext, looksLikeOption, List.head?_cons, Bool.and_eq_false_iff]
        left
        simpa using hminus
      have hgiven : giveDecimals {} (Nat.toDigits 10 n) =
          some { decimals := some n, given := [.decimals] } := by
        rw [giveDecimals, parseDecimals?_toDigits (h n rfl)]
        rfl
      show parseFrom {} ("--decimales".toList :: Nat.toDigits 10 n :: _) = _
      rw [parseFrom_decimals {} hoption, hgiven]
      exact hflags (some n) trace codes

theorem separator_not_mem_arguments (decimals : Option Nat) (trace codes : Bool) :
    "--".toList ∉ arguments decimals trace codes := by
  have hflags : "--".toList ∉
      (if trace then ["--demarche".toList] else []) ++
        (if codes then ["--detail".toList] else []) := by
    cases trace <;> cases codes <;> decide
  cases decimals with
  | none => exact hflags
  | some n =>
      obtain ⟨d, digits, htext, -, hminus⟩ := exists_digit_cons n
      intro hmem
      rcases List.mem_cons.1 hmem with hname | hmem
      · cases hname
      · rcases List.mem_cons.1 hmem with hvalue | hmem
        · rw [htext] at hvalue
          exact hminus (List.cons.inj hvalue).1.symm
        · exact hflags hmem

end Options

/-! ## Both ways -/

namespace CommandLine

section
variable {args : List Text} {o : Options} (hargs : Options.parse args = some o)
    (hnone : o.expressions = [])
  {es : List Text}
include hargs hnone

/-- Expressions behind the separator are evaluated in one session, and their blocks are written. -/
theorem run_arguments (hseparator : "--".toList ∉ args) (hes : es ≠ []) (stdin : Text) :
    run (args ++ "--".toList :: es) stdin =
      (if (evaluateAll (Session.new o.settings) es).any failed then 1 else 0,
        ((evaluateAll (Session.new o.settings) es).map (block (style o))).flatten) := by
  have hparse : Options.parse (args ++ "--".toList :: es) = some { o with expressions := es } := by
    rw [Options.parse, Options.parseFrom_append hargs hseparator, hnone]
    rfl
  rw [run, hparse]
  dsimp only
  rw [if_neg (by simpa using hes)]
  rfl

/-- Without expressions the program converses, and says the same to the lines. -/
theorem run_lines (hes : ∀ e ∈ es, IsExpressionLine e) {stdin : Text} (hstdin : lines stdin = es) :
    run args stdin =
      (0, banner ++ (((evaluateAll (Session.new o.settings) es).map (block (style o))).map
        (prompt ++ ·)).flatten ++ prompt) := by
  rw [run, hargs]
  dsimp only
  rw [hnone, List.isEmpty_nil, if_pos rfl, hstdin, converse_expressions hes, List.append_assoc]

end

/-- **Arguments and lines get the same answers.** For every choice of the options, expressions that
are given behind the separator get one block each, and the exit code is 1 if one of them is refused.
The same expressions as the lines of the standard input, with or without a line feed at the end, get
the banner and then the same blocks in the same order, each behind a prompt, with another prompt at
the end, and the exit code is 0. -/
theorem run_agrees (decimals : Option Nat) (hdecimals : ∀ n, decimals = some n → n < 2 ^ 32)
    (trace codes : Bool) {es : List Text} (hes : es ≠ []) (hlines : ∀ e ∈ es, IsExpressionLine e) :
    let options := Options.arguments decimals trace codes
    let results := evaluateAll (Session.new ({ decimals } : Options).settings) es
    let blocks := results.map (block { trace, codes })
    (∀ stdin, run (options ++ "--".toList :: es) stdin =
      (if results.any failed then 1 else 0, blocks.flatten)) ∧
    ∀ stdin ∈ [es.flatMap (· ++ ['\n']), ['\n'].intercalate es],
      run options stdin = (0, banner ++ (blocks.map (prompt ++ ·)).flatten ++ prompt) := by
  intro options results blocks
  have hparse := Options.parse_arguments hdecimals trace codes
  have hstyle : style (Options.chosen decimals trace codes) = { trace, codes } := by
    cases decimals <;> cases trace <;> cases codes <;> rfl
  constructor
  · intro stdin
    have hrun :=
      run_arguments hparse rfl (Options.separator_not_mem_arguments decimals trace codes) hes stdin
    rw [hstyle] at hrun
    exact hrun
  · intro stdin hstdin
    have hone : ∀ e ∈ es, '\n' ∉ e := fun e he => (hlines e he).one_line
    have hcut : lines stdin = es := by
      rcases List.mem_cons.1 hstdin with rfl | hseparated
      · exact lines_of_ended hone
      · rw [List.mem_singleton.1 hseparated]
        exact lines_of_separated (fun e he => (hlines e he).ne_nil) hone
    have hrun := run_lines hparse rfl hlines hcut
    rw [hstyle] at hrun
    exact hrun

/-- A failure between two answers, with two decimal places and the classes of failures. -/
theorem run_agrees_failure :
    run ["--decimales".toList, "2".toList, "--detail".toList, "--".toList,
        "2/3".toList, "1/0".toList, "ans*3".toList] [] =
      (1, "0.67\nErreur (NonFiniteResult)\n2.01\n".toList) ∧
    run ["--decimales".toList, "2".toList, "--detail".toList] "2/3\n1/0\nans*3\n".toList =
      (0, banner ++ "> 0.67\n> Erreur (NonFiniteResult)\n> 2.01\n> ".toList) := by
  have hlines : ∀ e ∈ ["2/3".toList, "1/0".toList, "ans*3".toList], IsExpressionLine e := by
    intro e he
    simp only [List.mem_cons, List.not_mem_nil, or_false] at he
    rcases he with rfl | rfl | rfl
    all_goals exact ⟨by decide, by decide, by decide, by decide⟩
  have hresults : (evaluateAll (Session.new ({ decimals := some 2 } : Options).settings)
      ["2/3".toList, "1/0".toList, "ans*3".toList]).map (block { trace := false, codes := true }) =
        ["0.67\n".toList, "Erreur (NonFiniteResult)\n".toList, "2.01\n".toList] := by
    decide +kernel
  have hfailed : (evaluateAll (Session.new ({ decimals := some 2 } : Options).settings)
      ["2/3".toList, "1/0".toList, "ans*3".toList]).any failed = true := by
    decide +kernel
  obtain ⟨harguments, hconversation⟩ :=
    run_agrees (some 2) (fun n hn => by cases hn; decide) false true (List.cons_ne_nil _ _) hlines
  refine ⟨(harguments []).trans ?_, (hconversation _ List.mem_cons_self).trans ?_⟩
  · rw [hresults, hfailed]
    rfl
  · rw [hresults, List.append_assoc]
    rfl

end CommandLine

end DeskCalc
