import DeskCalc.Proofs.Token.Literal

/-!
# Substitution of text and of value

The last answer is written into a text before anything is read, next to whatever stands there.
Unless it comes to stand next to a point or behind the sign of an exponent, it is read by itself:
the tokens are those of the text, with the tokens of the answer where the word for it stood.

The proof follows the tokenizer. It cuts words where substitution does not, behind a number, so
`substituteAfter` says what substitution does to the rest of a text of which some part has been
read.

* `scan_substituteAfter`: one step reads the same with and without the answer, unless it reads the
  word for it.
* `tokenize_substitute`: all steps.
-/

namespace DeskCalc.Answer

open Text Token Canonical

/-! ## What stands around the word -/

/-- Whether a text ends in a word character. -/
def endsInWord (before : Text) : Bool :=
  before.getLast?.any isWordChar

/-- The texts before and after the word are such that the number in its place is read by itself: no
point touches it, and it does not become the exponent of a number. -/
structure Apart (before after : Text) : Prop where
  no_point_before : before.getLast? ≠ some '.'
  no_point_after : after.head? ≠ some '.'
  no_exponent : ∀ u d e s, before = u ++ [d, e, s] → isMantissaChar d = true → e = 'e' ∨ e = 'E' →
    s = '+' ∨ s = '-' → False

/-- Every occurrence of the word in the text is apart. -/
def AllApart (text : Text) : Prop :=
  ∀ before after, text = before ++ answerWord ++ after → endsInWord before = false →
    after.head?.any isWordChar = false → Apart before after

/-- A text without points and without the letter of an exponent has every word apart. -/
theorem allApart_of_plain {text : Text} (h : ∀ c ∈ text, c ≠ '.' ∧ c ≠ 'e' ∧ c ≠ 'E') :
    AllApart text := by
  rintro before after rfl - -
  have hbefore : ∀ c ∈ before, c ≠ '.' ∧ c ≠ 'e' ∧ c ≠ 'E' := fun c hc =>
    h c (List.mem_append_left after (List.mem_append_left answerWord hc))
  constructor
  · exact fun hlast => (hbefore '.' (List.mem_of_getLast? hlast)).1 rfl
  · exact fun hhead => (h '.' (List.mem_append_right _ (List.mem_of_head? hhead))).1 rfl
  · rintro u d e s rfl - he -
    have hmem := hbefore e (by simp)
    exact he.elim hmem.2.1 hmem.2.2

/-! ## Substitution in the rest of a text -/

/-- What becomes of a text behind the text `before` when the word is replaced in both. -/
def substituteAfter (answer before t : Text) : Text :=
  if endsInWord before then t.takeWhile isWordChar ++ substitute answer (t.dropWhile isWordChar)
  else substitute answer t

variable {answer before t : Text}

@[simp] theorem substituteAfter_nil : substituteAfter answer before [] = [] := by
  rw [substituteAfter]
  split <;> simp [substitute]

/-- The word is not the first thing in the text that is replaced. -/
def Kept (before t : Text) : Prop :=
  endsInWord before = true ∨ t.takeWhile isWordChar ≠ answerWord

@[simp] theorem endsInWord_concat (before : Text) (c : Char) :
    endsInWord (before ++ [c]) = isWordChar c := by
  simp [endsInWord]

/-- What is not replaced stays, character by character. -/
theorem substituteAfter_cons {c : Char} (h : Kept before (c :: t)) :
    substituteAfter answer before (c :: t) = c :: substituteAfter answer (before ++ [c]) t := by
  rw [substituteAfter, substituteAfter, endsInWord_concat]
  by_cases hc : isWordChar c = true
  · rw [if_pos hc, List.takeWhile_cons_of_pos hc, List.dropWhile_cons_of_pos hc]
    by_cases hbefore : endsInWord before = true
    · rw [if_pos hbefore]
      rfl
    · have hrun : c :: t.takeWhile isWordChar ≠ answerWord := by
        have hkept := h.resolve_left hbefore
        rwa [List.takeWhile_cons_of_pos hc] at hkept
      rw [if_neg hbefore, substitute, if_pos hc]
      simp only [if_neg hrun]
      rfl
  · rw [if_neg hc, List.takeWhile_cons_of_neg hc, List.dropWhile_cons_of_neg hc]
    have hcopied : substitute answer (c :: t) = c :: substitute answer t := by
      rw [substitute, if_neg hc]
    rw [List.nil_append, ite_self, hcopied]

theorem kept_of_ne {c : Char} (hc : c ≠ 'A') : Kept before (c :: t) := by
  right
  intro hrun
  by_cases hword : isWordChar c = true
  · rw [List.takeWhile_cons_of_pos hword] at hrun
    exact hc (List.cons.inj hrun).1
  · rw [List.takeWhile_cons_of_neg hword] at hrun
    cases hrun

theorem substituteAfter_append {u : Text} (hu : ∀ c ∈ u, c ≠ 'A') :
    substituteAfter answer before (u ++ t) = u ++ substituteAfter answer (before ++ u) t := by
  induction u generalizing before with
  | nil => rw [List.nil_append, List.nil_append, List.append_nil]
  | cons c u ih =>
      have hrest := @ih (before ++ [c]) fun x hx => hu x (List.mem_cons_of_mem c hx)
      rw [List.cons_append, substituteAfter_cons (kept_of_ne (hu c List.mem_cons_self)), hrest,
        List.append_assoc]
      rfl

theorem head?_substituteAfter (h : Kept before t) :
    (substituteAfter answer before t).head? = t.head? := by
  cases t with
  | nil => rw [substituteAfter_nil]
  | cons c t =>
      rw [substituteAfter_cons h]
      rfl

/-- A run stays a run where the word does not stand right behind it. -/
theorem run_substituteAfter {p : Char → Bool} (hp : p 'A' = false)
    (h : Kept (before ++ t.takeWhile p) (t.dropWhile p)) :
    (substituteAfter answer before t).takeWhile p = t.takeWhile p ∧
      (substituteAfter answer before t).dropWhile p =
        substituteAfter answer (before ++ t.takeWhile p) (t.dropWhile p) := by
  have hrun : ∀ c ∈ t.takeWhile p, p c = true := fun c => of_mem_takeWhile
  have hletter : ∀ c ∈ t.takeWhile p, c ≠ 'A' := by
    rintro c hc rfl
    rw [hrun _ hc] at hp
    cases hp
  have hsplit : substituteAfter answer before t =
      t.takeWhile p ++ substituteAfter answer (before ++ t.takeWhile p) (t.dropWhile p) := by
    rw [← substituteAfter_append hletter, List.takeWhile_append_dropWhile]
  have hstop : (substituteAfter answer (before ++ t.takeWhile p) (t.dropWhile p)).head?.any p =
      false := by
    rw [head?_substituteAfter h]
    exact head?_dropWhile_any p t
  rw [hsplit]
  exact ⟨takeWhile_run hrun hstop, dropWhile_run hrun hstop⟩

/-- A text that no word can go on with stays what substitution makes of it by itself. -/
theorem substituteAfter_of_head (h : t.head?.any isWordChar = false) :
    substituteAfter answer before t = substitute answer t := by
  have htake := @takeWhile_run isWordChar [] t (fun _ h => by cases h) h
  have hdrop := @dropWhile_run isWordChar [] t (fun _ h => by cases h) h
  rw [List.nil_append] at htake hdrop
  rw [substituteAfter, htake, hdrop, List.nil_append, ite_self]

theorem head?_substitute (h : t.head?.any isWordChar = false) :
    (substitute answer t).head? = t.head? := by
  cases t with
  | nil => rw [substitute]
  | cons c t =>
      have hc : ¬ isWordChar c = true := by simpa using h
      rw [substitute, if_neg hc]
      rfl

/-! ## What is kept where the word is apart -/

/-- What cannot stand in front of the word is in front of text that is kept. -/
theorem AllApart.kept (h : AllApart (before ++ t)) (hapart : ∀ after, ¬ Apart before after) :
    Kept before t := by
  by_cases hbefore : endsInWord before = true
  · exact .inl hbefore
  · right
    intro hrun
    refine hapart (t.dropWhile isWordChar) (h before _ ?_ (Bool.not_eq_true _ ▸ hbefore)
      (head?_dropWhile_any isWordChar t))
    rw [← hrun, List.append_assoc, List.takeWhile_append_dropWhile]

theorem AllApart.kept_of_mantissa {u : Text} {d : Char} (h : AllApart (u ++ [d] ++ t))
    (hd : isMantissaChar d = true) : Kept (u ++ [d]) t := by
  rw [isMantissaChar, Bool.or_eq_true, beq_iff_eq] at hd
  rcases hd with hdigit | rfl
  · left
    rw [endsInWord_concat]
    exact isWordChar_of_isDigit hdigit
  · exact h.kept fun after hapart => hapart.no_point_before List.getLast?_concat

theorem Kept.digits (h : Kept before t) :
    Kept (before ++ t.takeWhile Char.isDigit) (t.dropWhile Char.isDigit) := by
  by_cases hnone : t.takeWhile Char.isDigit = []
  · have happend := List.takeWhile_append_dropWhile (p := Char.isDigit) (l := t)
    rw [hnone, List.nil_append] at happend
    rwa [hnone, List.append_nil, happend]
  · left
    obtain ⟨u, d, hu, hd⟩ := takeWhile_ends hnone
    rw [hu, ← List.append_assoc, endsInWord_concat]
    exact isWordChar_of_isDigit hd

theorem splitSign_substituteAfter (h : Kept before t) :
    splitSign (substituteAfter answer before t) =
      ((splitSign t).1, substituteAfter answer (before ++ (splitSign t).1) (splitSign t).2) := by
  cases t with
  | nil => simp [splitSign, substituteAfter_nil]
  | cons c t =>
      rw [substituteAfter_cons h]
      by_cases hplus : c = '+'
      · subst hplus
        rfl
      · by_cases hminus : c = '-'
        · subst hminus
          rfl
        · rw [splitSign_of_ne hplus hminus, splitSign_of_ne hplus hminus, List.append_nil,
            substituteAfter_cons h]

theorem AllApart.kept_of_exponent {u : Text} {d e : Char} (h : AllApart (u ++ [d, e] ++ t))
    (hd : isMantissaChar d = true) (he : e = 'e' ∨ e = 'E') :
    Kept (u ++ [d, e] ++ (splitSign t).1) (splitSign t).2 := by
  have hword : isWordChar e = true := by
    rcases he with rfl | rfl <;> rfl
  -- Right behind a sign the word would become the exponent, which is excluded. Without a sign it
  -- would go on with the letter.
  have hsign : ∀ s t', t = s :: t' → s = '+' ∨ s = '-' → Kept (u ++ [d, e] ++ [s]) t' := by
    rintro s t' rfl hs
    rw [List.append_cons] at h
    refine h.kept fun after hapart => hapart.no_exponent u d e s ?_ hd he hs
    rw [List.append_assoc]
    rfl
  fun_cases splitSign t with
  | case1 t => exact hsign '+' t rfl (.inl rfl)
  | case2 t => exact hsign '-' t rfl (.inr rfl)
  | case3 t hplus hminus =>
      left
      rw [List.append_nil, List.append_cons, endsInWord_concat]
      exact hword

/-- **An exponent part stays** behind a mantissa. -/
theorem splitExponent_substituteAfter {u : Text} {d : Char} (h : AllApart (u ++ [d] ++ t))
    (hd : isMantissaChar d = true) :
    splitExponent Char.isDigit (substituteAfter answer (u ++ [d]) t) =
      ((splitExponent Char.isDigit t).1,
        substituteAfter answer (u ++ [d] ++ (splitExponent Char.isDigit t).1)
          (splitExponent Char.isDigit t).2) := by
  cases t with
  | nil => rw [substituteAfter_nil, splitExponent, List.append_nil, substituteAfter_nil]
  | cons e t =>
      have hkept : Kept (u ++ [d]) (e :: t) := h.kept_of_mantissa hd
      by_cases he : e = 'e' ∨ e = 'E'
      · have hword : isWordChar e = true := by
          rcases he with rfl | rfl <;> rfl
        -- Letter, sign and digits stay one after the other, and a letter that starts no exponent
        -- stays as well.
        have hletter : Kept (u ++ [d] ++ [e]) t := .inl ((endsInWord_concat _ e).trans hword)
        have hexponent : Kept (u ++ [d] ++ [e] ++ (splitSign t).1) (splitSign t).2 := by
          rw [List.append_cons] at h
          rw [List.append_assoc u] at h ⊢
          exact h.kept_of_exponent hd he
        obtain ⟨htake, hdrop⟩ := @run_substituteAfter answer _ _ _ rfl hexponent.digits
        rw [substituteAfter_cons hkept]
        simp only [splitExponent, splitSign_substituteAfter hletter, htake, hdrop]
        split
        · simp only [List.append_assoc, List.cons_append, List.nil_append]
        · rw [List.append_nil, substituteAfter_cons hkept]
      · have hnone : ∀ s : Text, splitExponent Char.isDigit (e :: s) = ([], e :: s) := fun s =>
          splitExponent_of_head (by simpa using he)
        rw [substituteAfter_cons hkept, hnone, hnone, List.append_nil, substituteAfter_cons hkept]

/-- **A number stays.** -/
theorem scanNumber_substituteAfter (h : AllApart (before ++ t))
    (ht : t.head?.any isMantissaChar = true) :
    scanNumber (substituteAfter answer before t) =
      ((scanNumber t).1,
        substituteAfter answer
          (before ++ (t.takeWhile isMantissaChar ++
            (splitExponent Char.isDigit (t.dropWhile isMantissaChar)).1))
          (scanNumber t).2) := by
  have hne : t.takeWhile isMantissaChar ≠ [] := by
    cases t with
    | nil => cases ht
    | cons c t =>
        have hc : isMantissaChar c = true := ht
        rw [List.takeWhile_cons_of_pos hc]
        exact List.cons_ne_nil c _
  obtain ⟨u, d, hu, hd⟩ := takeWhile_ends hne
  have hbefore : before ++ t.takeWhile isMantissaChar = before ++ u ++ [d] := by
    rw [hu, List.append_assoc]
  have hdigits : AllApart (before ++ u ++ [d] ++ t.dropWhile isMantissaChar) := by
    rwa [← hbefore, List.append_assoc, List.takeWhile_append_dropWhile]
  have hrun : Kept (before ++ t.takeWhile isMantissaChar) (t.dropWhile isMantissaChar) := by
    rw [hbefore]
    exact hdigits.kept_of_mantissa hd
  have hexponent := @splitExponent_substituteAfter answer _ _ _ hdigits hd
  rw [← hbefore, List.append_assoc] at hexponent
  obtain ⟨htake, hdrop⟩ := @run_substituteAfter answer _ _ _ rfl hrun
  simp only [scanNumber, htake, hdrop, hexponent]
  split <;> rfl

/-! ## One step -/

/-- **A step reads the same** with and without the answer, unless it reads the word for it. -/
theorem scan_substituteAfter {c : Char} (hkept : Kept before (c :: t))
    (h : AllApart (before ++ c :: t)) :
    scan c (substituteAfter answer (before ++ [c]) t) =
      ((scan c t).1, substituteAfter answer (before ++ scanned c t) (scan c t).2) := by
  have hscans := scans c t
  generalize (scan c t).1 = found at hscans ⊢
  generalize scanned c t = u at hscans ⊢
  generalize (scan c t).2 = rest at hscans ⊢
  cases hscans with
  | blank hblank => rw [scan, if_pos hblank]
  | symbol hblank hsymbol => rw [scan_symbol hblank hsymbol]
  | word hblank hsymbol hword =>
      have hfollows : (t.dropWhile isWordChar).head?.any isWordChar = false :=
        head?_dropWhile_any isWordChar t
      have hsplit : substituteAfter answer (before ++ [c]) t =
          t.takeWhile isWordChar ++ substitute answer (t.dropWhile isWordChar) := by
        rw [substituteAfter, endsInWord_concat, if_pos (isWordChar_of_startsWord hword)]
      have hstop : (substitute answer (t.dropWhile isWordChar)).head?.any isWordChar = false := by
        rwa [head?_substitute hfollows]
      have hrun : ∀ x ∈ t.takeWhile isWordChar, isWordChar x = true := fun x => of_mem_takeWhile
      rw [scan_word hblank hsymbol hword, hsplit, takeWhile_run hrun hstop,
        dropWhile_run hrun hstop, substituteAfter_of_head hfollows]
  | number hblank hsymbol hword hnumber =>
      have hnumber' := @scanNumber_substituteAfter answer _ _ h hnumber
      rw [substituteAfter_cons hkept] at hnumber'
      rw [scan_number hblank hsymbol hword hnumber, hnumber']
  | unexpected hblank hsymbol hword hnumber =>
      rw [scan_unexpected hblank hsymbol hword hnumber]

/-- Where a step starts: a word that goes on there starts there, unless a number ends there in a
digit. -/
def Fresh (before t : Text) : Prop :=
  t.head?.any isWordChar = true → endsInWord before = before.getLast?.any Char.isDigit

theorem fresh_concat {x : Char} (h : isWordChar x = true → x.isDigit = true) :
    Fresh (before ++ [x]) t := by
  intro _
  rw [endsInWord_concat, List.getLast?_concat, Option.any_some, Bool.eq_iff_iff]
  exact ⟨h, isWordChar_of_isDigit⟩

theorem fresh_of_finds {c : Char} {u rest : Text} {token? : Option Token}
    (h : Finds c t token? u rest) : Fresh (before ++ u) rest := by
  cases h with
  | blank hblank =>
      refine fresh_concat fun hc => ?_
      rw [isBlank_of_isWordChar hc] at hblank
      cases hblank
  | symbol hblank hsymbol =>
      refine fresh_concat fun hc => ?_
      rw [ofSymbol?_of_isWordChar hc] at hsymbol
      cases hsymbol
  | word hword =>
      intro hgoes
      rw [head?_dropWhile_any] at hgoes
      cases hgoes
  | number hnumber hmantissa =>
      obtain ⟨u, d, hu, hd⟩ := number_ends t hnumber
      rw [hu, ← List.append_assoc]
      refine fresh_concat fun hc => ?_
      rw [isMantissaChar, Bool.or_eq_true, beq_iff_eq] at hd
      exact hd.resolve_right fun hpoint => absurd hc (hpoint ▸ by decide)

/-- The tokens that stand for a located token when a word for the last answer is replaced. It is not
where it is glued to the end of a number. -/
def expand (answer : Option Float) (located : Text × Token) : List Token :=
  if located.2 = .name (String.ofList answerWord) ∧ located.1.getLast?.any Char.isDigit = false then
    tokens (answer.getD 0)
  else [located.2]

/-- A token that stays stands for itself. -/
theorem expand_of_kept {answer : Option Float} {c : Char} {token : Token}
    (hkept : Kept before (c :: t)) (hfresh : Fresh before (c :: t))
    (h : (scan c t).1 = .ok (some token)) : expand answer (before, token) = [token] := by
  refine if_neg ?_
  rintro ⟨hname, hdigit⟩
  have hname' : token = .name (String.ofList answerWord) := hname
  rw [hname'] at h
  obtain ⟨hstarts, hrun⟩ := (finds h).word_eq
  have hword := isWordChar_of_startsWord hstarts
  rcases hkept with hbefore | hne
  · rw [hfresh hword] at hbefore
    exact absurd hbefore (Bool.eq_false_iff.1 hdigit)
  · rw [List.takeWhile_cons_of_pos hword] at hne
    exact hne (String.ofList_injective hrun).symm

theorem endsInWord_of_digit (h : before.getLast?.any Char.isDigit = true) :
    endsInWord before = true := by
  rw [Option.any_eq_true] at h
  obtain ⟨d, hlast, hd⟩ := h
  rw [endsInWord, hlast]
  exact isWordChar_of_isDigit hd

theorem any_goesOn (hword : t.head?.any isWordChar = false) (hpoint : t.head? ≠ some '.') :
    t.head?.any goesOn = false := by
  cases t with
  | nil => rfl
  | cons c t =>
      have hne : c ≠ '.' := fun h => hpoint (congrArg some h)
      simpa [goesOn, hne] using hword

theorem word_of_not_kept {c : Char} (h : ¬ Kept before (c :: t)) :
    endsInWord before = false ∧ c = 'A' ∧ t.takeWhile isWordChar = ['N', 'S'] := by
  obtain ⟨hbefore, hrun⟩ := not_or.1 h
  refine ⟨Bool.not_eq_true _ ▸ hbefore, ?_⟩
  by_cases hc : isWordChar c = true
  · rw [List.takeWhile_cons_of_pos hc] at hrun
    exact List.cons.inj (Decidable.not_not.1 hrun)
  · rw [List.takeWhile_cons_of_neg hc] at hrun
    cases Decidable.not_not.1 hrun

/-- **A step that reads the word** reads the tokens of the answer in its place. -/
theorem tokenize_replaced {answer : Option Float}
    (hfinite : ∀ v, answer = some v → v.isFinite = true) {c : Char}
    (hreplaced : ¬ Kept before (c :: t)) (h : AllApart (before ++ c :: t)) :
    ∃ token, (scan c t).1 = .ok (some token) ∧
      tokenize (substituteAfter (literal answer) before (c :: t)) =
        (tokenize (substituteAfter (literal answer) (before ++ scanned c t) (scan c t).2)).map
          (expand answer (before, token) ++ ·) := by
  obtain ⟨hbefore, rfl, hrun⟩ := word_of_not_kept hreplaced
  have hscan : scan 'A' t =
      (.ok (some (.name (String.ofList answerWord))), t.dropWhile isWordChar) := by
    rw [scan_word rfl rfl rfl, hrun]
    rfl
  have hfollows : (t.dropWhile isWordChar).head?.any isWordChar = false :=
    head?_dropWhile_any isWordChar t
  have happart : Apart before (t.dropWhile isWordChar) := by
    refine h before _ ?_ hbefore hfollows
    rw [List.append_assoc]
    exact congrArg (before ++ 'A' :: ·) (hrun ▸ List.takeWhile_append_dropWhile.symm)
  have hexpand : expand answer (before, .name (String.ofList answerWord)) =
      tokens (answer.getD 0) := by
    refine if_pos ⟨rfl, ?_⟩
    rw [← Bool.not_eq_true]
    exact fun hdigit => absurd (hbefore ▸ endsInWord_of_digit hdigit) Bool.false_ne_true
  have htext : substituteAfter (literal answer) before ('A' :: t) =
      literal answer ++ substitute (literal answer) (t.dropWhile isWordChar) := by
    rw [substituteAfter, hbefore, if_neg Bool.false_ne_true, substitute, hrun]
    rfl
  have hstop : (substitute (literal answer) (t.dropWhile isWordChar)).head?.any goesOn = false := by
    rw [head?_substitute hfollows]
    exact any_goesOn hfollows happart.no_point_after
  refine ⟨_, congrArg Prod.fst hscan, ?_⟩
  rw [hexpand, htext, tokenize_literal_append hfinite hstop, hscan,
    substituteAfter_of_head hfollows]

/-! ## All steps -/

/-- **The rest of a text is read as before**, with the tokens of the answer where the word stands.
-/
theorem tokenize_substituteAfter {answer : Option Float}
    (hfinite : ∀ v, answer = some v → v.isFinite = true) (before t : Text)
    (h : AllApart (before ++ t)) (hfresh : Fresh before t) :
    tokenize (substituteAfter (literal answer) before t) =
      (locate before t).map (List.flatMap (expand answer)) := by
  fun_induction locate before t with
  | case1 before => rw [substituteAfter_nil, tokenize]; rfl
  | case2 before c t ih =>
      have happend := (scans c t).append.2
      have hrest : ∀ token?, (scan c t).1 = .ok token? → _ := fun token? hscan =>
        ih (by rwa [List.append_assoc, happend]) (fresh_of_finds (finds hscan))
      by_cases hkept : Kept before (c :: t)
      -- The step is the same in both texts, and its token stays.
      · rw [substituteAfter_cons hkept, tokenize_cons, scan_substituteAfter hkept h]
        cases hscan : (scan c t).1 with
        | error fault => rfl
        | ok token? =>
            have hself : (token?.map (before, ·)).toList.flatMap (expand answer) =
                token?.toList := by
              cases token? with
              | none => rfl
              | some token => simp [expand_of_kept hkept hfresh hscan]
            simp only [hrest token? hscan]
            cases locate (before ++ scanned c t) (scan c t).2 with
            | error fault => rfl
            | ok located =>
                show Except.ok _ = Except.ok _
                rw [List.flatMap_append, hself]
      -- The step reads the word, for which the tokens of the answer stand.
      · obtain ⟨token, hscan, hreplaced⟩ := tokenize_replaced hfinite hkept h
        rw [hreplaced, hrest (some token) hscan, hscan]
        cases locate (before ++ scanned c t) (scan c t).2 with
        | error fault => rfl
        | ok located => rfl

/-- **Substitution of the text is substitution of the value.** Where every word for the last answer
is apart, the text with the answer written into it is read as the tokens of the text, each word that
is not glued to a number replaced by the tokens of the value. What cannot be read fails as before.
-/
theorem tokenize_substitute {answer : Option Float}
    (hfinite : ∀ v, answer = some v → v.isFinite = true) {text : Text} (h : AllApart text) :
    tokenize text = (locate [] text).map (List.map Prod.snd) ∧
      tokenize (substitute (literal answer) text) =
        (locate [] text).map (List.flatMap (expand answer)) :=
  ⟨(map_snd_locate [] text).symm,
    tokenize_substituteAfter hfinite [] text h fun _ => rfl⟩

/-- The square of a negative answer is that of the answer in parentheses. -/
theorem tokenize_substitute_square :
    AllApart ['A', 'N', 'S', '^', '2'] ∧
      (tokenize (substitute (literal (some (-2))) ['A', 'N', 'S', '^', '2'])).toOption =
        some [.openParen, .operator .sub, .number 2, .closeParen, .operator .pow, .number 2] := by
  have happart : AllApart ['A', 'N', 'S', '^', '2'] := allApart_of_plain (by simp)
  have hfinite : ∀ v, some (-2 : Float) = some v → v.isFinite = true := by
    rintro v ⟨⟩
    rfl
  refine ⟨happart, ?_⟩
  rw [(tokenize_substitute hfinite happart).2]
  decide +kernel

end DeskCalc.Answer
