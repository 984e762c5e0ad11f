import DeskCalc.Expr.Eval
import DeskCalc.Proofs.Expr.Atoms

/-!
# Evaluation and names

The evaluation of a tree looks up its names and applies what they stand for, and that is all that
can go wrong: a value is found whenever every name has a meaning and is used as the meaning asks.

* `Vocabulary.of_contains`: what is true of every name.
* `NameFault`: what can be wrong with a name.
* `Looked`: how a result depends on the names that were looked up for it.
* `looked_eval`: the evaluation of a tree looks up the names of the tree.
-/

namespace DeskCalc

/-- What is true of all entries is true of every name of the vocabulary. -/
theorem Vocabulary.of_contains {p : String → Bool}
    (hentries : (entries.all fun entry => p entry.1) = true) {name : String}
    (h : contains name = true) : p name = true := by
  rw [contains, meaning?, List.lookup_isSome_iff] at h
  obtain ⟨entry, hentry, heq⟩ := h
  rw [beq_iff_eq.1 heq]
  exact List.all_eq_true.1 hentries entry hentry

/-- The vocabulary contains the names of functions. -/
theorem Vocabulary.contains_of_isFunction {name : String} (h : isFunction name = true) :
    contains name = true := by
  rw [isFunction] at h
  rw [contains]
  cases hmeaning : meaning? name with
  | none =>
      rw [hmeaning] at h
      cases h
  | some meaning => rfl

/-- No name of the vocabulary has the first letter of the word for the last answer. -/
theorem Vocabulary.not_mem_of_contains {name : String} (h : contains name = true) :
    'A' ∉ name.toList := by
  have hnone := of_contains (p := fun name => !name.toList.contains 'A') (by decide) h
  rw [Bool.not_eq_true', ← Bool.not_eq_true, List.contains_iff_mem] at hnone
  exact hnone

namespace Expr

/-- The faults that a name makes: nothing has it, or what has it is used otherwise. -/
inductive NameFault (name : String) : Fault → Prop
  | unknown : Vocabulary.contains name = false → NameFault name (.unknownName name)
  | arity (expected got : Nat) : NameFault name (.wrongArity name expected got)
  | notFunction : NameFault name (.notFunction name)
  | notValue : NameFault name (.notValue name)

/-- The result comes from looking up the names among the tokens: with a value all of them have a
meaning, and a fault is that of one of them. -/
def Looked {α : Type} (ts : List Token) : Except Fault α → Prop
  | .ok _ => ∀ name, .name name ∈ ts → Vocabulary.contains name = true
  | .error fault => ∃ name, .name name ∈ ts ∧ NameFault name fault

/-! ## One name -/

theorem looked_ok {α : Type} {name : String} {meaning : Meaning} (x : α)
    (h : Vocabulary.meaning? name = some meaning) : Looked [.name name] (.ok x) := by
  intro other hother
  cases List.mem_singleton.1 hother
  rw [Vocabulary.contains, h]
  rfl

theorem looked_error {α : Type} {name : String} {fault : Fault} (h : NameFault name fault) :
    Looked [.name name] (.error fault : Except Fault α) :=
  ⟨name, List.mem_singleton.2 rfl, h⟩

theorem looked_unknown {α : Type} {name : String} (h : Vocabulary.meaning? name = none) :
    Looked [.name name] (.error (.unknownName name) : Except Fault α) := by
  refine looked_error (.unknown ?_)
  rw [Vocabulary.contains, h]
  rfl

theorem looked_constantValue (name : String) :
    Looked [.name name] (Vocabulary.constantValue name) := by
  fun_cases Vocabulary.constantValue name with
  | case1 x hmeaning => exact looked_ok x hmeaning
  | case2 meaning hmeaning _ => exact looked_error .notValue
  | case3 hmeaning => exact looked_unknown hmeaning

theorem looked_call (name : String) (args : List Float) :
    Looked [.name name] (Vocabulary.call name args) := by
  fun_cases Vocabulary.call name args with
  | case1 x f hmeaning => exact looked_ok _ hmeaning
  | case2 f hmeaning _ => exact looked_error (.arity 1 args.length)
  | case3 x y f hmeaning => exact looked_ok _ hmeaning
  | case4 f hmeaning _ => exact looked_error (.arity 2 args.length)
  | case5 _ f hmeaning => exact looked_ok _ hmeaning
  | case6 x hmeaning => exact looked_error .notFunction
  | case7 _ hmeaning => exact looked_unknown hmeaning

/-! ## Trees -/

theorem Looked.bind {α β : Type} {ts us : List Token} {r : Except Fault α} {f : α → Except Fault β}
    (hr : Looked ts r) (hf : ∀ x, Looked us (f x)) : Looked (ts ++ us) (r >>= f) := by
  cases r with
  | error fault =>
      obtain ⟨name, hname, hfault⟩ := hr
      exact ⟨name, List.mem_append_left us hname, hfault⟩
  | ok x =>
      have hx := hf x
      show Looked (ts ++ us) (f x)
      cases hvalue : f x with
      | error fault =>
          rw [hvalue] at hx
          obtain ⟨name, hname, hfault⟩ := hx
          exact ⟨name, List.mem_append_right ts hname, hfault⟩
      | ok y =>
          rw [hvalue] at hx
          intro name hname
          exact (List.mem_append.1 hname).elim (hr name) (hx name)

theorem Looked.of_mem_iff {α : Type} {ts us : List Token} {r : Except Fault α}
    (h : ∀ t, t ∈ ts ↔ t ∈ us) (hr : Looked ts r) : Looked us r := by
  cases r with
  | error fault =>
      obtain ⟨name, hname, hfault⟩ := hr
      exact ⟨name, (h _).1 hname, hfault⟩
  | ok x => exact fun name hname => hr name ((h _).2 hname)

/-- The rest of a computation that looks nothing up. -/
theorem Looked.map {α β : Type} {ts : List Token} {r : Except Fault α} (hr : Looked ts r)
    (f : α → β) : Looked ts (r >>= fun x => .ok (f x)) := by
  cases r <;> exact hr

mutual

/-- **The evaluation of a tree looks up the names of the tree**, and fails for no other reason. -/
theorem looked_eval : ∀ e : Expr, Looked e.atoms e.eval
  | .number x => fun name hname => by cases List.mem_singleton.1 hname
  | .constant name => looked_constantValue name
  | .negate e => (looked_eval e).map (- ·)
  | .apply op a b => by
      rw [atoms, eval]
      exact (looked_eval a).bind fun x => (looked_eval b).map (op.apply x)
  | .call name args => by
      rw [atoms, eval]
      have hcall := (looked_evalList args).bind fun xs => looked_call name xs
      exact hcall.of_mem_iff fun t => by simp [or_comm]

theorem looked_evalList : ∀ es : List Expr, Looked (listAtoms es) (evalList es)
  | [] => fun name hname => nomatch hname
  | e :: es => by
      rw [listAtoms, evalList]
      exact (looked_eval e).bind fun x => (looked_evalList es).map (x :: ·)

end

end Expr

end DeskCalc
