import DeskCalc.Proofs.Expr.Names
import DeskCalc.Proofs.Expr.Rebuild
import DeskCalc.Session

/-!
# The stages of a calculation and their faults

A calculation goes through four stages, and each makes faults of its own kind: splitting a text
refuses characters and numbers, ordering the tokens and building the tree refuse their shape, and
evaluation refuses names.

* `calculate_eq_ok`, `Fails`, `fails_of_calculate`: a calculation by its stages.
* `LexicalFault`, `lexicalFault_of_tokenize`: what splitting a text refuses.
* `isShape_of_toPostfix`, `isShape_of_ofPostfix`: what the next two stages refuse.
-/

namespace DeskCalc

open Text Token

/-! ## A calculation by its stages -/

/-- **A calculation succeeds when its four stages do**, and is made of what they give. -/
theorem calculate_eq_ok {maxHeight : Nat} {source : Text} {c : Calculation} :
    calculate maxHeight source = .ok c ↔
      tokenize source = .ok c.tokens ∧ toPostfix c.tokens = .ok c.items ∧
        Expr.ofPostfix maxHeight c.items = .ok c.tree ∧ c.tree.eval = .ok c.value := by
  rw [calculate]
  constructor
  · intro h
    obtain ⟨ts, hts, h⟩ := bind_eq_ok.1 h
    obtain ⟨items, hitems, h⟩ := bind_eq_ok.1 h
    obtain ⟨tree, htree, h⟩ := bind_eq_ok.1 h
    obtain ⟨value, hvalue, h⟩ := bind_eq_ok.1 h
    cases h
    exact ⟨hts, hitems, htree, hvalue⟩
  · rintro ⟨hts, hitems, htree, hvalue⟩
    simp only [hts, hitems, htree, hvalue, bind, Except.bind]
    rfl

/-- The stage at which a calculation fails, and what the stages before it have given. -/
inductive Fails (maxHeight : Nat) (source : Text) (fault : Fault) : Prop
  | tokens : tokenize source = .error fault → Fails maxHeight source fault
  | order {ts} : tokenize source = .ok ts → toPostfix ts = .error fault →
      Fails maxHeight source fault
  | tree {ts items} : tokenize source = .ok ts → toPostfix ts = .ok items →
      Expr.ofPostfix maxHeight items = .error fault → Fails maxHeight source fault
  | value {ts items tree} : tokenize source = .ok ts → toPostfix ts = .ok items →
      Expr.ofPostfix maxHeight items = .ok tree → tree.eval = .error fault →
      Fails maxHeight source fault

theorem fails_of_calculate {maxHeight : Nat} {source : Text} {fault : Fault}
    (h : calculate maxHeight source = .error fault) : Fails maxHeight source fault := by
  rw [calculate] at h
  rcases bind_eq_error.1 h with hts | ⟨ts, hts, h⟩
  · exact .tokens hts
  rcases bind_eq_error.1 h with hitems | ⟨items, hitems, h⟩
  · exact .order hts hitems
  rcases bind_eq_error.1 h with htree | ⟨tree, htree, h⟩
  · exact .tree hts hitems htree
  rcases bind_eq_error.1 h with hvalue | ⟨value, -, h⟩
  · exact .value hts hitems htree hvalue
  · cases h

/-! ## Splitting -/

/-- The faults of splitting a text: a number that is none, and a character of the text that is no
blank, no symbol and no part of a number or a word. -/
inductive LexicalFault (t : Text) : Fault → Prop
  | badNumber (literal : Text) : LexicalFault t (.badNumber literal)
  | unexpected {c : Char} : c ∈ t → isBlank c = false → ofSymbol? c = none → goesOn c = false →
      LexicalFault t (.unexpectedChar c)

theorem LexicalFault.mono {t u : Text} {fault : Fault} (h : LexicalFault t fault)
    (hsub : ∀ c ∈ t, c ∈ u) : LexicalFault u fault := by
  cases h with
  | badNumber literal => exact .badNumber literal
  | unexpected hc hblank hsymbol hgoes => exact .unexpected (hsub _ hc) hblank hsymbol hgoes

theorem goesOn_of_not {c : Char} (hword : startsWord c = false)
    (hnumber : isMantissaChar c = false) : goesOn c = false := by
  rw [startsWord, Bool.or_eq_false_iff] at hword
  rw [isMantissaChar, Bool.or_eq_false_iff] at hnumber
  rw [goesOn, isWordChar, Char.isAlphanum, hword.1, hword.2, hnumber.1, hnumber.2]
  rfl

theorem lexicalFault_of_scan {c : Char} {t : Text} {fault : Fault}
    (h : (scan c t).1 = .error fault) : LexicalFault (c :: t) fault := by
  have hscans := scans c t
  rw [h] at hscans
  generalize scanned c t = u at hscans
  generalize (scan c t).2 = rest at hscans
  generalize hfound : (Except.error fault : Except Fault (Option Token)) = found at hscans
  cases hscans with
  | blank hblank => cases hfound
  | symbol hblank hsymbol => cases hfound
  | word hblank hsymbol hword => cases hfound
  | number hblank hsymbol hword hnumber =>
      simp only [scanNumber] at hfound
      split at hfound
      · cases hfound
      · cases hfound
        exact .badNumber _
  | unexpected hblank hsymbol hword hnumber =>
      cases hfound
      exact .unexpected List.mem_cons_self hblank hsymbol (goesOn_of_not hword hnumber)

theorem lexicalFault_of_tokenize {t : Text} {fault : Fault} (h : tokenize t = .error fault) :
    LexicalFault t fault := by
  induction t using scan_induction with
  | nil =>
      rw [tokenize] at h
      cases h
  | step c t ih =>
      rcases tokenize_cons_eq_error h with hfirst | hrest
      · exact lexicalFault_of_scan hfirst
      · refine (ih hrest).mono fun x hx => ?_
        rw [← (scans c t).append.2]
        exact List.mem_append_right _ hx

/-! ## Ordering and building -/

/-- Whether the fault is that of the shape of an expression: of its parentheses, its commas, the
places of its values and operators, or its height. -/
def Fault.isShape : Fault → Bool
  | .unclosedParen | .unopenedParen | .strayComma | .malformed | .tooDeep _ => true
  | _ => false

namespace OperatorStack

theorem isShape_of_step {s : OperatorStack} {t : Token} {opensNext : Bool} {fault : Fault}
    (h : s.step t opensNext = .error fault) : fault.isShape = true := by
  cases t with
  | number x =>
      simp only [step, pushValue] at h
      repeat' split at h
      all_goals cases h
      rfl
  | name word =>
      simp only [step, pushValue, pushFunction] at h
      repeat' split at h
      all_goals cases h
      all_goals rfl
  | operator op =>
      simp only [step, operator] at h
      repeat' split at h
      all_goals cases h
      rfl
  | openParen =>
      simp only [step, openParen] at h
      repeat' split at h
      all_goals cases h
      rfl
  | closeParen =>
      simp only [step, closeParen] at h
      repeat' split at h
      all_goals cases h
      all_goals rfl
  | comma =>
      simp only [step, comma] at h
      repeat' split at h
      all_goals cases h
      all_goals rfl

theorem isShape_of_run {next : Option Token} {ts : List Token} {s : OperatorStack} {fault : Fault}
    (h : s.run next ts = .error fault) : fault.isShape = true := by
  induction ts generalizing s with
  | nil => cases h
  | cons t ts ih =>
      rw [run] at h
      rcases bind_eq_error.1 h with hstep | ⟨s', -, hrest⟩
      · exact isShape_of_step hstep
      · exact ih hrest

theorem isShape_of_finish {s : OperatorStack} {fault : Fault} (h : s.finish = .error fault) :
    fault.isShape = true := by
  simp only [finish] at h
  repeat' split at h
  all_goals cases h
  all_goals rfl

end OperatorStack

theorem isShape_of_toPostfix {ts : List Token} {fault : Fault} (h : toPostfix ts = .error fault) :
    fault.isShape = true := by
  rw [toPostfix] at h
  rcases bind_eq_error.1 h with hrun | ⟨s, -, hfinish⟩
  · exact OperatorStack.isShape_of_run hrun
  · exact OperatorStack.isShape_of_finish hfinish

namespace Expr

theorem isShape_of_push {limit : Nat} {e : Expr} {height : Nat} {stack : List Measured}
    {fault : Fault} (h : push limit e height stack = .error fault) : fault.isShape = true := by
  rw [push] at h
  split at h
  · cases h
    rfl
  · cases h

theorem isShape_of_stepItem {limit : Nat} {stack : List Measured} {item : Item} {fault : Fault}
    (h : stepItem limit stack item = .error fault) : fault.isShape = true := by
  fun_cases stepItem limit stack item with
  | case1 _ x => cases h
  | case2 _ name => cases h
  | case3 e height below => exact isShape_of_push h
  | case4 _ hstack =>
      simp only [stepItem] at h
      cases h
      rfl
  | case5 op b hb a ha below => exact isShape_of_push h
  | case6 _ op hstack =>
      simp only [stepItem] at h
      cases h
      rfl
  | case7 _ name arity hshort =>
      rw [stepItem, if_pos hshort] at h
      cases h
      rfl
  | case8 _ name arity hshort =>
      rw [stepItem, if_neg hshort] at h
      exact isShape_of_push h

theorem isShape_of_ofPostfix {limit : Nat} {items : List Item} {fault : Fault}
    (h : ofPostfix limit items = .error fault) : fault.isShape = true := by
  have hrun : ∀ {items : List Item} {stack : List Measured},
      runItems limit stack items = .error fault →
      fault.isShape = true := by
    intro items
    induction items with
    | nil => exact fun h => by cases h
    | cons item items ih =>
        intro stack h
        rcases bind_eq_error.1 h with hstep | ⟨stack', -, hrest⟩
        · exact isShape_of_stepItem hstep
        · exact ih hrest
  rw [ofPostfix] at h
  rcases bind_eq_error.1 h with hfault | ⟨stack, -, hnot_one⟩
  · exact hrun hfault
  · split at hnot_one
    · cases hnot_one
    · cases hnot_one
      rfl

end Expr

end DeskCalc
