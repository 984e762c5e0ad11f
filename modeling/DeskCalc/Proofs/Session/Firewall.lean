import DeskCalc.Proofs.Admission.Words
import DeskCalc.Proofs.Answer.Words
import DeskCalc.Proofs.Grammar.Agreement
import DeskCalc.Proofs.Session.Run
import DeskCalc.Proofs.Session.Stages

/-!
# No unknown name passes admission

Admission looks at the words of the canonical text. The names that are looked up come later, out of
another text, into which the last answer has been written, and by another scanner. They are words of
the canonical text all the same: the names of an expression stand alone in its text, a word that
stands alone after the answer was written stood alone before, and such a word is one that admission
has seen.

* `contains_of_toPostfix`: the names of an expression are in the vocabulary.
* `percent_of_tokenize`: the one character that is admitted and starts no token.
* `admitted_resolves`: what can go wrong behind admission.
-/

namespace DeskCalc

open Text Token Canonical

section
variable {answer : Option Float} (hfinite : ∀ v, answer = some v → v.isFinite = true) {text : Text}
  (hadmitted : admitCharacters text = .ok ())
include hfinite hadmitted

/-- **The names of an expression are in the vocabulary**, if its text comes from an admitted one. -/
theorem contains_of_toPostfix {ts : List Token} {items : List Item}
    (htokens : tokenize (Answer.substitute (Answer.literal answer) text) = .ok ts)
    (hitems : toPostfix ts = .ok items) {name : String} (hname : .name name ∈ ts) :
    Vocabulary.contains name = true := by
  obtain ⟨before, after, hsplit, halone⟩ := alone_of_toPostfix htokens hitems hname
  rw [List.append_assoc] at hsplit
  have hthere : Answer.HasAlone none name.toList
      (Answer.substitute (Answer.literal answer) text) := by
    refine ⟨before, after, hsplit, ?_, halone.after⟩
    rw [Option.or_none]
    exact halone.before
  obtain ⟨hne, b, a, htext, hb, ha⟩ := Answer.hasAlone_of_substitute halone.isWord
    (fun c => Answer.not_startsWord_of_mem_literal hfinite) hthere
  rw [Option.or_none] at hb
  have hword := isAdmittedWord_of_alone hadmitted htext ⟨halone.isWord, hb, ha⟩
  rw [isAdmittedWord, Bool.or_eq_true, beq_iff_eq, String.ofList_toList] at hword
  exact hword.resolve_left hne

/-- The names of a tree are in the vocabulary, if it comes from an admitted text. -/
theorem contains_of_ofPostfix {ts : List Token} {items : List Item} {tree : Expr} {maxHeight : Nat}
    (htokens : tokenize (Answer.substitute (Answer.literal answer) text) = .ok ts)
    (hitems : toPostfix ts = .ok items) (htree : Expr.ofPostfix maxHeight items = .ok tree)
    {name : String} (hname : .name name ∈ tree.atoms) : Vocabulary.contains name = true := by
  rw [← (Grammar.derives_of_ofPostfix hitems htree).filter_isAtom] at hname
  exact contains_of_toPostfix hfinite hadmitted htokens hitems (List.mem_filter.1 hname).1

/-- **Only a percent sign is admitted and starts no token.** -/
theorem percent_of_tokenize {c : Char}
    (h : tokenize (Answer.substitute (Answer.literal answer) text) = .error (.unexpectedChar c)) :
    c = '%' := by
  have hfault := lexicalFault_of_tokenize h
  cases hfault with
  | unexpected hc hblank hsymbol hgoes =>
      have hcharacter : isAdmitted c = true := by
        rcases Answer.mem_substitute hc with htext | hliteral
        · exact (admitCharacters_eq_ok.1 hadmitted).1 c htext
        · exact Answer.isAdmitted_of_mem_literal hfinite hliteral
      rcases isAdmitted_iff.1 hcharacter with hgoes' | hblank' | ⟨token, hsymbol'⟩ | hpercent
      · rw [hgoes] at hgoes'
        cases hgoes'
      · rw [hblank] at hblank'
        cases hblank'
      · rw [hsymbol] at hsymbol'
        cases hsymbol'
      · exact hpercent

/-- A calculation on an admitted text meets no unknown name, and no character but a percent sign
that it does not expect. -/
theorem resolves_of_calculate {maxHeight : Nat} {fault : Fault}
    (h : calculate maxHeight (Answer.substitute (Answer.literal answer) text) = .error fault) :
    (∀ name, fault ≠ .unknownName name) ∧ ∀ c, fault = .unexpectedChar c → c = '%' := by
  have hshape : fault.isShape = true →
      (∀ name, fault ≠ .unknownName name) ∧ ∀ c, fault = .unexpectedChar c → c = '%' := by
    intro hfault
    constructor
    · rintro name rfl
      cases hfault
    · rintro c rfl
      cases hfault
  cases fails_of_calculate h with
  | tokens htokens =>
      constructor
      · rintro name rfl
        cases lexicalFault_of_tokenize htokens
      · rintro c rfl
        exact percent_of_tokenize hfinite hadmitted htokens
  | order htokens hitems => exact hshape (isShape_of_toPostfix hitems)
  | tree htokens hitems htree => exact hshape (Expr.isShape_of_ofPostfix htree)
  | @value ts items tree htokens hitems htree hvalue =>
      have hlooked := tree.looked_eval
      rw [hvalue] at hlooked
      obtain ⟨name, hname, hfault⟩ := hlooked
      have hcontains := contains_of_ofPostfix hfinite hadmitted htokens hitems htree hname
      cases hfault with
      | unknown hunknown =>
          rw [hcontains] at hunknown
          cases hunknown
      | _ => exact ⟨fun _ h => (by cases h), fun _ h => (by cases h)⟩

/-- A text in which the word for the last answer is left is no expression. -/
theorem refused_of_answerWord
    (hword : answerWord <:+: Answer.substitute (Answer.literal answer) text) :
    ∃ fault, (tokenize (Answer.substitute (Answer.literal answer) text) >>= toPostfix) =
      .error fault := by
  cases htokens : tokenize (Answer.substitute (Answer.literal answer) text) with
  | error fault => exact ⟨fault, rfl⟩
  | ok ts =>
      cases hitems : toPostfix ts with
      | error fault => exact ⟨fault, hitems⟩
      | ok items =>
          have hmem : 'A' ∈ Answer.substitute (Answer.literal answer) text :=
            hword.mem List.mem_cons_self
          obtain ⟨name, hname, hletter⟩ := exists_name_of_mem htokens hmem rfl (by decide)
          have hcontains := contains_of_toPostfix hfinite hadmitted htokens hitems hname
          exact absurd hletter (Vocabulary.not_mem_of_contains hcontains)

end

namespace Session

/-- **What is admitted resolves.** In every state of every run, an admitted text cannot fail for a
name that is unknown, nor for a character other than a percent sign. Only names of the vocabulary
are looked up, and a text in which the word for the last answer is left is refused before a tree is
built. -/
theorem admitted_resolves (settings : Settings) (requests : List Request) (raw : Text)
    (hadmitted : admitCharacters (canonical raw) = .ok ()) :
    let source := Answer.substitute (Answer.literal ((Session.new settings).run requests).answer)
      (canonical raw)
    (∀ fault, calculate settings.maxHeight source = .error fault →
      (∀ name, fault ≠ .unknownName name) ∧ ∀ c, fault = .unexpectedChar c → c = '%') ∧
    (∀ ts items tree, tokenize source = .ok ts → toPostfix ts = .ok items →
      Expr.ofPostfix settings.maxHeight items = .ok tree →
        ∀ name, .name name ∈ tree.atoms → Vocabulary.contains name = true) ∧
    (answerWord <:+: source → ∃ fault, (tokenize source >>= toPostfix) = .error fault) := by
  intro source
  have hfinite : ∀ v, ((Session.new settings).run requests).answer = some v → v.isFinite = true :=
    fun v hv => ((sound_new settings).run requests v hv).isFinite
  refine ⟨?_, ?_, refused_of_answerWord hfinite hadmitted⟩
  · exact fun fault hfault => resolves_of_calculate hfinite hadmitted hfault
  · intro ts items tree htokens hitems htree name hname
    exact contains_of_ofPostfix hfinite hadmitted htokens hitems htree hname

/-- Of the words of `ans*3ANS` the first is replaced and the second is not, for which it is refused.
-/
theorem admitted_resolves_glued_answer :
    admitCharacters (canonical "ans*3ANS".toList) = .ok () ∧
      ∃ fault, (tokenize "0*3ANS".toList >>= toPostfix) = .error fault := by
  have hadmitted : admitCharacters (canonical "ans*3ANS".toList) = .ok () :=
    eq_ok_of_toOption (by decide +kernel)
  have hsource : Answer.substitute (Answer.literal none) (canonical "ans*3ANS".toList) =
      "0*3ANS".toList := by decide +kernel
  have hrefused := (admitted_resolves .standard [] "ans*3ANS".toList hadmitted).2.2
  rw [← hsource]
  exact ⟨hadmitted, hrefused ⟨"0*3".toList, [], hsource.symm⟩⟩

end Session

end DeskCalc
