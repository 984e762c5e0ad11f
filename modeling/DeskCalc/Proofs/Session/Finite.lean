import DeskCalc.Proofs.Expr.Finite
import DeskCalc.Proofs.Session.Replay

/-!
# Successes and values that are not finite

An evaluation succeeds if the value of its tree is finite. The values inside the tree are finite
too, but for those at places that are hidden: an overflowing literal and a quotient by zero are
refused wherever nothing above them hides them. As a divisor both are hidden, and the quotient is
zero.

* `Session.Calculates`, `Session.evaluate_of_calculates`: an expression that resolves fails only for
  its value.
* `Session.evaluate_nodes_finite`: the values in the tree of a success, and what is refused for a
  value inside.
* `Session.evaluate_infinite_divisor`: what is hidden by a quotient.
-/

namespace DeskCalc

open Token Binary64

namespace Expr

/-- The numbers of a tree are nodes of it. -/
theorem number_mem_nodes {x : Float} {e : Expr} (h : .number x ∈ e.atoms) :
    .number x ∈ e.nodes := by
  induction e using children_induction with
  | step e ih =>
      rw [nodes_eq]
      cases e with
      | number y =>
          cases List.mem_singleton.1 h
          exact List.mem_cons_self
      | constant name => cases List.mem_singleton.1 h
      | negate e =>
          refine List.mem_cons_of_mem _ (List.mem_flatMap.2 ⟨e, List.mem_singleton_self e, ?_⟩)
          exact ih e (List.mem_singleton_self e) h
      | apply op a b =>
          have ha : a ∈ (apply op a b).children := List.mem_cons_self
          have hb : b ∈ (apply op a b).children :=
            List.mem_cons_of_mem a (List.mem_singleton_self b)
          rcases List.mem_append.1 h with hleft | hright
          · exact List.mem_cons_of_mem _ (List.mem_flatMap.2 ⟨a, ha, ih a ha hleft⟩)
          · exact List.mem_cons_of_mem _ (List.mem_flatMap.2 ⟨b, hb, ih b hb hright⟩)
      | call name args =>
          rw [atoms, listAtoms_eq_flatMap] at h
          rcases List.mem_cons.1 h with hname | hargs
          · cases hname
          · obtain ⟨arg, harg, hmem⟩ := List.mem_flatMap.1 hargs
            exact List.mem_cons_of_mem _ (List.mem_flatMap.2 ⟨arg, harg, ih arg harg hmem⟩)

theorem not_isFinite_number {x : Float} (h : x.isFinite = false) : ¬ (number x).IsFinite := by
  rintro ⟨v, hv, hfinite⟩
  cases hv
  rw [h] at hfinite
  cases hfinite

/-- A quotient by zero has no finite value. -/
theorem not_isFinite_div {a b : Expr} {z : Float} (hb : b.eval = .ok z) (hz : (z == 0) = true) :
    ¬ (apply .div a b).IsFinite := by
  rintro ⟨v, heval, hv⟩
  rw [eval] at heval
  obtain ⟨x, -, hrest⟩ := bind_eq_ok.1 heval
  obtain ⟨y, hy, hreturn⟩ := bind_eq_ok.1 hrest
  rw [hb] at hy
  cases hy
  cases hreturn
  obtain ⟨-, -, hnonzero⟩ := isFinite_div hv
  rw [hz] at hnonzero
  cases hnonzero

end Expr

namespace Session

/-- What is typed is admitted, its names resolve, and it is within the limits: it is calculated. -/
def Calculates (s : Session) (raw : Text) (c : Calculation) : Prop :=
  ∃ text, admittedText s.settings raw = .ok text ∧
    calculate s.settings.maxHeight (Answer.substitute (Answer.literal s.answer) text) = .ok c

/-- **What is calculated succeeds if its value is finite**, and is refused for its value otherwise.
-/
theorem evaluate_of_calculates {s : Session} {raw : Text} {c : Calculation}
    (h : s.Calculates raw c) : (c.tree.IsFinite ∧ ∃ outcome, (s.evaluate raw).1 = .ok outcome) ∨
      (¬ c.tree.IsFinite ∧ s.evaluate raw = (.error .nonFiniteResult, s)) := by
  obtain ⟨text, htext, hc⟩ := h
  have heval := (calculate_eq_ok.1 hc).2.2.2
  cases hfinite : c.value.isFinite with
  | true =>
      refine .inl ⟨⟨c.value, heval, hfinite⟩, ?_⟩
      rw [evaluate_of_compute (compute_of_calculate htext hc hfinite)]
      exact ⟨_, rfl⟩
  | false =>
      refine .inr ⟨?_, ?_⟩
      · rintro ⟨v, hv, hvfinite⟩
        rw [heval] at hv
        cases hv
        rw [hfinite] at hvfinite
        cases hvfinite
      · rw [evaluate, compute, htext]
        dsimp only [bind, Except.bind]
        rw [hc]
        simp only [hfinite, Bool.false_eq_true, if_false]
        rfl

/-- Every number among the tokens stands at a place of the tree. -/
theorem exists_place_of_number {s : Session} {raw : Text} {c : Calculation}
    (hc : s.Calculates raw c)
    {x : Float} (hx : .number x ∈ c.tokens) :
    ∃ place, c.tree.subtree? place = some (.number x) := by
  obtain ⟨text, -, hcalculate⟩ := hc
  obtain ⟨-, hitems, htree, -⟩ := calculate_eq_ok.1 hcalculate
  have hatom : .number x ∈ c.tree.atoms := by
    rw [← (Grammar.derives_of_ofPostfix hitems htree).filter_isAtom]
    exact List.mem_filter.2 ⟨hx, rfl⟩
  exact Expr.mem_nodes_iff.1 (Expr.number_mem_nodes hatom)

/-- **A success has finite values at all places of its tree** that are not hidden by a node above
them. An expression that resolves is refused for any value that is not finite and not hidden: for a
literal that overflows, and for a quotient by zero. -/
theorem evaluate_nodes_finite (s : Session) (raw : Text) :
    (∀ outcome, (s.evaluate raw).1 = .ok outcome →
      ∃ c, s.Calculates raw c ∧ outcome.trace.tree = c.tree.text ∧
        ∀ place node, c.tree.subtree? place = some node → node.IsFinite ∨ c.tree.Hidden place) ∧
    ∀ c, s.Calculates raw c →
      (∃ place node, c.tree.subtree? place = some node ∧ ¬ c.tree.Hidden place ∧ ¬ node.IsFinite) ∨
        (∃ x, .number x ∈ c.tokens ∧ x.isFinite = false ∧
          ∀ place, c.tree.subtree? place = some (.number x) → ¬ c.tree.Hidden place) ∨
        (∃ place a b z, c.tree.subtree? place = some (.apply .div a b) ∧ ¬ c.tree.Hidden place ∧
          b.eval = .ok z ∧ (z == 0) = true) →
      s.evaluate raw = (.error .nonFiniteResult, s) := by
  constructor
  · intro outcome houtcome
    obtain ⟨found, hcompute, heq⟩ | ⟨refusal, heq⟩ := s.evaluate_cases raw
    · rw [heq] at houtcome
      cases houtcome
      obtain ⟨text, c, htext, hc, hfinite, -, htrace⟩ := compute_eq_ok hcompute
      have hroot : c.tree.IsFinite := ⟨c.value, (calculate_eq_ok.1 hc).2.2.2, hfinite⟩
      exact ⟨c, ⟨text, htext, hc⟩, by rw [htrace], fun place node => hroot.subtree⟩
    · rw [heq] at houtcome
      cases houtcome
  · intro c hc hspoiled
    have hnode : ∃ place node, c.tree.subtree? place = some node ∧ ¬ c.tree.Hidden place ∧
        ¬ node.IsFinite := by
      rcases hspoiled with hnode | ⟨x, hx, hoverflow, hvisible⟩ | ⟨place, a, b, z, hplace, hvisible,
        hb, hz⟩
      · exact hnode
      · obtain ⟨place, hplace⟩ := exists_place_of_number hc hx
        exact ⟨place, _, hplace, hvisible place hplace, Expr.not_isFinite_number hoverflow⟩
      · exact ⟨place, _, hplace, hvisible, Expr.not_isFinite_div hb hz⟩
    obtain ⟨place, node, hplace, hvisible, hinfinite⟩ := hnode
    rcases evaluate_of_calculates hc with ⟨hroot, -⟩ | ⟨-, hrefused⟩
    · obtain hfinite | hhidden := hroot.subtree hplace
      · exact absurd hfinite hinfinite
      · exact absurd hhidden hvisible
    · exact hrefused

/-- An overflowing literal under a square root, a quotient by zero in a product and the sine of such
a quotient are refused, and in a success minus infinity is hidden by a greatest value. -/
theorem evaluate_nodes_finite_overflow :
    let s := Session.new .standard
    s.evaluate "7-sqrt(1e400)".toList = (.error .nonFiniteResult, s) ∧
    s.evaluate "7*(1/0)".toList = (.error .nonFiniteResult, s) ∧
    s.evaluate "sin(1/0)".toList = (.error .nonFiniteResult, s) ∧
    ∃ c, s.Calculates "max(2,-1/0)".toList c ∧
      ∀ place node, c.tree.subtree? place = some node → node.IsFinite ∨ c.tree.Hidden place := by
  intro s
  have hroot : s.Calculates "7-sqrt(1e400)".toList {
      tokens := [.number 7, .operator .sub, .name "sqrt", .openParen, .number (infinity false),
        .closeParen]
      items := [.number 7, .number (infinity false), .call "sqrt" 1, .action (.apply .sub)]
      tree := .apply .sub (.number 7) (.call "sqrt" [.number (infinity false)])
      value := infinity true } := by
    refine ⟨"7-sqrt(1e400)".toList, eq_ok_of_toOption (by decide +kernel),
      calculate_eq_ok.2 ⟨?_, rfl, rfl, ?_⟩⟩
    · exact eq_ok_of_toOption (by decide +kernel)
    · exact eq_ok_of_toOption (by decide +kernel)
  have hquotient : s.Calculates "7*(1/0)".toList {
      tokens := [.number 7, .operator .mul, .openParen, .number 1, .operator .div, .number 0,
        .closeParen]
      items := [.number 7, .number 1, .number 0, .action (.apply .div), .action (.apply .mul)]
      tree := .apply .mul (.number 7) (.apply .div (.number 1) (.number 0))
      value := infinity false } := by
    refine ⟨"7*(1/0)".toList, eq_ok_of_toOption (by decide +kernel),
      calculate_eq_ok.2 ⟨?_, rfl, rfl, ?_⟩⟩
    · exact eq_ok_of_toOption (by decide +kernel)
    · exact eq_ok_of_toOption (by decide +kernel)
  have hsine : s.Calculates "sin(1/0)".toList {
      tokens := [.name "sin", .openParen, .number 1, .operator .div, .number 0, .closeParen]
      items := [.number 1, .number 0, .action (.apply .div), .call "sin" 1]
      tree := .call "sin" [.apply .div (.number 1) (.number 0)]
      value := nan } := by
    refine ⟨"sin(1/0)".toList, eq_ok_of_toOption (by decide +kernel),
      calculate_eq_ok.2 ⟨?_, rfl, rfl, ?_⟩⟩
    · exact eq_ok_of_toOption (by decide +kernel)
    · exact eq_ok_of_toOption (by decide +kernel)
  refine ⟨?_, ?_, ?_, ?_⟩
  · refine (evaluate_nodes_finite s _).2 _ hroot
      (.inr (.inl ⟨infinity false, by decide +kernel, by decide +kernel, fun place _ hhidden =>
        ?_⟩))
    obtain ⟨outer, houter, i, habsorbs⟩ := hhidden.exists_absorbs
    simp only [Expr.nodes, Expr.listNodes, List.cons_append, List.nil_append, List.append_nil,
      List.mem_cons, List.not_mem_nil, or_false] at houter
    rcases houter with rfl | rfl | rfl | rfl
    · cases habsorbs with
      | operation _ _ _ _ _ hhides => cases hhides
    · cases habsorbs
    · cases habsorbs with
      | call _ _ _ _ _ hhides => exact Vocabulary.not_hides (by decide) _ _ hhides
    · cases habsorbs
  · refine (evaluate_nodes_finite s _).2 _ hquotient
      (.inr (.inr ⟨[1], .number 1, .number 0, 0, rfl, fun hhidden => ?_, rfl, by decide +kernel⟩))
    rcases Expr.hidden_cons.1 hhidden with habsorbs | ⟨child, -, hbelow⟩
    · cases habsorbs with
      | operation _ _ _ _ _ hhides => cases hhides
    · exact Expr.not_hidden_nil child hbelow
  · refine (evaluate_nodes_finite s _).2 _ hsine
      (.inr (.inr ⟨[0], .number 1, .number 0, 0, rfl, fun hhidden => ?_, rfl, by decide +kernel⟩))
    rcases Expr.hidden_cons.1 hhidden with habsorbs | ⟨child, -, hbelow⟩
    · cases habsorbs with
      | call _ _ _ _ _ hhides => exact Vocabulary.not_hides (by decide) _ _ hhides
    · exact Expr.not_hidden_nil child hbelow
  · have hsuccess : (s.evaluate "max(2,-1/0)".toList).1 = .ok {
        value := 2
        trace := {
          canonical := "max(2,-1/0)".toList
          tokens := "max ( 2 , - 1 / 0 )".toList
          items := "2 1 neg 0 / max/2".toList
          tree := "max(2, ((-1) / 0))".toList } } := eq_ok_of_toOption (by decide +kernel)
    obtain ⟨c, hc, -, hplaces⟩ := (evaluate_nodes_finite s _).1 _ hsuccess
    exact ⟨c, hc, hplaces⟩

/-- **As a divisor a value that is not finite is hidden.** One over the quotient of one by zero, and
one over a literal that overflows, have the value zero, though not all values in the tree are
finite. -/
theorem evaluate_infinite_divisor :
    let s := Session.new .standard
    (s.evaluateValue "1/(1/0)".toList).1 = .ok 0 ∧ (s.evaluateValue "1/1e400".toList).1 = .ok 0 ∧
    ∃ c, s.Calculates "1/(1/0)".toList c ∧ ∃ node ∈ c.tree.nodes, ¬ node.IsFinite := by
  intro s
  refine ⟨eq_ok_of_toOption (by decide +kernel), eq_ok_of_toOption (by decide +kernel), {
    tokens := [.number 1, .operator .div, .openParen, .number 1, .operator .div, .number 0,
      .closeParen]
    items := [.number 1, .number 1, .number 0, .action (.apply .div), .action (.apply .div)]
    tree := .apply .div (.number 1) (.apply .div (.number 1) (.number 0))
    value := 0 }, ?_, .apply .div (.number 1) (.number 0), ?_, ?_⟩
  · refine ⟨"1/(1/0)".toList, eq_ok_of_toOption (by decide +kernel),
      calculate_eq_ok.2 ⟨?_, rfl, rfl, ?_⟩⟩
    · exact eq_ok_of_toOption (by decide +kernel)
    · exact eq_ok_of_toOption (by decide +kernel)
  · simp [Expr.nodes]
  · exact Expr.not_isFinite_div (z := 0) rfl (by decide +kernel)

end Session

end DeskCalc
