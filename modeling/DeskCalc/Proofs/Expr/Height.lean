import DeskCalc.Proofs.Expr.Rebuild

/-!
# The limit of height

A tree is built with its height kept beside it, and an operation or a call that is higher than the
limit is refused at once. The height that is kept is the height of the tree, so what comes out is
within the limit in every operation; and a tighter limit does nothing to a run but stop it. Together
the two say what is built from which items: the postfix notation of a tree gives that tree or is too
deep, and nothing else gives a tree.

* `Tightened`, `runItems_tightened`: a computation under tighter limits beside the same under wider
  ones.
* `Fits`, `fits_stepItem`, `fits_runItems`: trees on the stack are within the limit, with their
  height beside them.
* `ofPostfix_inverts_toItems`: building a tree is the inverse of listing it.
-/

namespace DeskCalc

/-! ## Computations under limits -/

section
variable {ε α β : Type} {fault : ε}

/-- Under tighter limits a computation gives what it gives under wider ones, or it is refused with
the fault that the limits make. -/
def Tightened (fault : ε) (tight wide : Except ε α) : Prop :=
  tight = wide ∨ tight = .error fault

theorem Tightened.refl (r : Except ε α) : Tightened fault r r :=
  .inl rfl

/-- Computations in a row are refused when one of them is. -/
theorem Tightened.bind {tight wide : Except ε α} {f g : α → Except ε β}
    (h : Tightened fault tight wide) (hrest : ∀ x, Tightened fault (f x) (g x)) :
    Tightened fault (tight >>= f) (wide >>= g) := by
  rcases h with rfl | rfl
  · cases tight with
    | error found => exact .inl rfl
    | ok x => exact hrest x
  · exact .inr rfl

end

/-! ## The limit of height -/

namespace Expr

section
variable {tight wide : Nat} (h : tight ≤ wide)
include h

theorem push_tightened (e : Expr) (height : Nat) (stack : List Measured) :
    Tightened (.tooDeep tight) (push tight e height stack) (push wide e height stack) := by
  by_cases hdeep : tight < height
  · right
    exact if_pos hdeep
  · left
    have hwide : ¬ wide < height := by omega
    rw [push, push, if_neg hdeep, if_neg hwide]

/-- An item that builds nothing is the same under every limit, and one that does puts a tree on the
stack. -/
theorem stepItem_tightened (stack : List Measured) (item : Item) :
    Tightened (.tooDeep tight) (stepItem tight stack item) (stepItem wide stack item) := by
  fun_cases stepItem tight stack item with
  | case1 _ x => exact .refl _
  | case2 _ name => exact .refl _
  | case3 e height below => exact push_tightened h _ _ _
  | case4 _ hstack =>
      simp only [stepItem]
      exact .refl _
  | case5 op b hb a ha below => exact push_tightened h _ _ _
  | case6 _ op hstack =>
      simp only [stepItem]
      exact .refl _
  | case7 _ name arity hshort =>
      rw [stepItem, if_pos hshort]
      exact .refl _
  | case8 _ name arity hshort args =>
      rw [stepItem, if_neg hshort]
      exact push_tightened h _ _ _

/-- **A run under a tighter limit** is the same run, or it is stopped by the limit. -/
theorem runItems_tightened (items : List Item) (stack : List Measured) :
    Tightened (.tooDeep tight) (runItems tight stack items) (runItems wide stack items) := by
  induction items generalizing stack with
  | nil => exact .refl _
  | cons item items ih =>
      rw [runItems, runItems]
      exact (stepItem_tightened h stack item).bind fun next => ih next

theorem ofPostfix_tightened (items : List Item) :
    Tightened (.tooDeep tight) (ofPostfix tight items) (ofPostfix wide items) := by
  rw [ofPostfix, ofPostfix]
  exact (runItems_tightened h items []).bind fun stack => .refl _

end

/-! ## What is built is within the limit -/

/-- The height beside a tree is its own, and no operation or call in it is higher than the limit. -/
structure Fits (limit : Nat) (m : Measured) : Prop where
  height_eq : m.2 = m.1.height
  operations_le : ∀ node ∈ m.1.operations, node.height ≤ limit

variable {limit : Nat}

theorem mem_listOperations {es : List Expr} {node : Expr} :
    node ∈ listOperations es ↔ ∃ e ∈ es, node ∈ e.operations := by
  induction es with
  | nil => simp [listOperations]
  | cons e es ih => simp [listOperations, ih]

/-- The heights beside trees are theirs, so the greatest is that of the highest tree. -/
theorem maxHeight_of_fits {args : List Measured} (h : ∀ m ∈ args, Fits limit m) :
    (args.map Prod.snd).foldl max 0 = maxHeight (args.map Prod.fst) := by
  have hheights : args.map Prod.snd = (args.map Prod.fst).map height := by
    rw [List.map_map]
    exact List.map_congr_left fun m hm => (h m hm).height_eq
  rw [hheights, foldl_max_height, Nat.zero_max]

/-- A tree that is put on the stack is within the limit, if what is below its root is. -/
theorem fits_push {e : Expr} {height : Nat} {stack stack' : List Measured}
    (h : push limit e height stack = .ok stack') (hheight : height = e.height)
    (hinner : ∀ node ∈ e.operations, node = e ∨ node.height ≤ limit)
    (hstack : ∀ m ∈ stack, Fits limit m) : ∀ m ∈ stack', Fits limit m := by
  have hroot : e.height ≤ limit := by
    rw [push] at h
    split at h
    · cases h
    · omega
  rw [eq_cons_of_push h]
  refine List.forall_mem_cons.2 ⟨⟨hheight, fun node hnode => ?_⟩, hstack⟩
  rcases hinner node hnode with rfl | hle
  · exact hroot
  · exact hle

/-- **One item keeps the trees on the stack within the limit**, and their heights beside them. -/
theorem fits_stepItem {stack stack' : List Measured} {item : Item}
    (h : stepItem limit stack item = .ok stack') (hstack : ∀ m ∈ stack, Fits limit m) :
    ∀ m ∈ stack', Fits limit m := by
  have hleaf : ∀ e : Expr, e.height = 1 → e.operations = [] →
      ∀ m ∈ (e, 1) :: stack, Fits limit m := by
    intro e hheight hnone
    refine List.forall_mem_cons.2 ⟨⟨hheight.symm, fun node hnode => ?_⟩, hstack⟩
    rw [hnone] at hnode
    cases hnode
  fun_cases stepItem limit stack item with
  | case1 _ x =>
      cases h
      exact hleaf (.number x) rfl rfl
  | case2 _ name =>
      cases h
      exact hleaf (.constant name) rfl rfl
  | case3 e height below =>
      obtain ⟨he, hbelow⟩ := List.forall_mem_cons.1 hstack
      refine fits_push h (congrArg (· + 1) he.height_eq) (fun node hnode => ?_) hbelow
      exact (List.mem_cons.1 hnode).imp_right (he.operations_le node)
  | case4 _ hnone =>
      simp only [stepItem] at h
      cases h
  | case5 op b hb a ha below =>
      obtain ⟨hright, hrest⟩ := List.forall_mem_cons.1 hstack
      obtain ⟨hleft, hbelow⟩ := List.forall_mem_cons.1 hrest
      have hheight : max ha hb + 1 = (Expr.apply op a b).height := by
        rw [height, ← hleft.height_eq, ← hright.height_eq]
      refine fits_push h hheight (fun node hnode => ?_) hbelow
      refine (List.mem_cons.1 hnode).imp_right fun hinner => ?_
      rcases List.mem_append.1 hinner with hinner | hinner
      · exact hleft.operations_le node hinner
      · exact hright.operations_le node hinner
  | case6 _ op hnone =>
      simp only [stepItem] at h
      cases h
  | case7 _ name arity hshort =>
      rw [stepItem, if_pos hshort] at h
      cases h
  | case8 _ name arity hshort args =>
      rw [stepItem, if_neg hshort] at h
      have hargs : ∀ m ∈ args, Fits limit m := fun m hm =>
        hstack m (List.mem_of_mem_take (List.mem_reverse.1 hm))
      refine fits_push h (congrArg (· + 1) (maxHeight_of_fits hargs)) (fun node hnode => ?_)
        fun m hm => hstack m (List.mem_of_mem_drop hm)
      refine (List.mem_cons.1 hnode).imp_right fun hinner => ?_
      obtain ⟨e, he, hnode⟩ := mem_listOperations.1 hinner
      obtain ⟨m, hm, rfl⟩ := List.mem_map.1 he
      exact (hargs m hm).operations_le node hnode

/-- **A run keeps the trees on the stack within the limit.** -/
theorem fits_runItems {items : List Item} {stack stack' : List Measured}
    (h : runItems limit stack items = .ok stack') (hstack : ∀ m ∈ stack, Fits limit m) :
    ∀ m ∈ stack', Fits limit m := by
  induction items generalizing stack with
  | nil =>
      cases h
      exact hstack
  | cons item items ih =>
      rw [runItems] at h
      cases hstep : stepItem limit stack item with
      | error fault =>
          rw [hstep] at h
          cases h
      | ok next =>
          rw [hstep] at h
          exact ih h (fits_stepItem hstep hstack)

/-- A tree that is built has no operation or call that is higher than the limit. -/
theorem operations_le_of_ofPostfix {items : List Item} {e : Expr}
    (h : ofPostfix limit items = .ok e) : ∀ node ∈ e.operations, node.height ≤ limit := by
  rw [ofPostfix] at h
  cases hrun : runItems limit [] items with
  | error fault =>
      rw [hrun] at h
      cases h
  | ok stack =>
      rw [hrun] at h
      have hfits := fits_runItems hrun fun m hm => by cases hm
      dsimp only [bind, Except.bind] at h
      split at h
      · cases h
        exact (hfits _ List.mem_cons_self).operations_le
      · cases h

/-- **Building a tree is the inverse of listing it.** Items give a tree exactly if they are its
postfix notation and no operation or call in it is higher than the limit, which may be zero. The
postfix notation of a tree with a higher one is refused as too deep, and with nothing else. -/
theorem ofPostfix_inverts_toItems (limit : Nat) (items : List Item) :
    (∀ e : Expr, ofPostfix limit items = .ok e ↔
      items = e.toItems ∧ ∀ node ∈ e.operations, node.height ≤ limit) ∧
    ∀ e : Expr, items = e.toItems → (∃ node ∈ e.operations, limit < node.height) →
      ofPostfix limit items = .error (.tooDeep limit) := by
  have hbuilds : ∀ e : Expr, ofPostfix limit items = .ok e →
      items = e.toItems ∧ ∀ node ∈ e.operations, node.height ≤ limit := fun e h =>
    ⟨(toItems_of_ofPostfix h).symm, operations_le_of_ofPostfix h⟩
  refine ⟨fun e => ⟨hbuilds e, ?_⟩, ?_⟩
  · rintro ⟨rfl, hlimit⟩
    exact ofPostfix_toItems hlimit
  · rintro e rfl ⟨node, hnode, hhigh⟩
    -- Under a limit as wide as the tree is high it is built, and the tighter one can only refuse.
    have hheight := height_le_of_mem_operations e
    have hwide : ofPostfix e.height e.toItems = .ok e := ofPostfix_toItems hheight
    have hle : limit ≤ e.height := Nat.le_of_lt (Nat.lt_of_lt_of_le hhigh (hheight node hnode))
    rcases ofPostfix_tightened hle e.toItems with hsame | hdeep
    · have hlow := (hbuilds e (hsame.trans hwide)).2 node hnode
      omega
    · exact hdeep

/-- The tree of `-min(1,max())` is three high: it is built under the limit three, and too deep for
two. A leaf is built under every limit. -/
theorem ofPostfix_negated_call :
    ofPostfix 3 [.number 1, .call "max" 0, .call "min" 2, .action .negate] =
      .ok (.negate (.call "min" [.number 1, .call "max" []])) ∧
    ofPostfix 2 [.number 1, .call "max" 0, .call "min" 2, .action .negate] = .error (.tooDeep 2) ∧
    ofPostfix 0 [.number 1] = .ok (.number 1) := by
  have hitems : [.number 1, .call "max" 0, .call "min" 2, .action .negate] =
      (Expr.negate (.call "min" [.number 1, .call "max" []])).toItems := rfl
  refine ⟨?_, ?_, ?_⟩
  · exact ((ofPostfix_inverts_toItems 3 _).1 _).2 ⟨hitems, by decide⟩
  · exact (ofPostfix_inverts_toItems 2 _).2 _ hitems ⟨_, List.mem_cons_self, by decide⟩
  · exact ((ofPostfix_inverts_toItems 0 _).1 (.number 1)).2 ⟨rfl, by decide⟩

end Expr

end DeskCalc
