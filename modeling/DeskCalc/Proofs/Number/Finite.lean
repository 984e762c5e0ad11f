import DeskCalc.Proofs.Number.Bits
import DeskCalc.Vocabulary

/-!
# Operations on doubles that are not finite

An infinity and what is no number go through a sum, a difference, a product, a negation, a magnitude
and a square root: the result is not finite either. A quotient is not finite if its dividend is not,
if its divisor is no number, or if its divisor is zero; a finite dividend over an infinity gives
zero. The greatest of some values is finite only if the values are, minus infinities apart, and so
is the least, infinities apart.

* `isFinite_of_pack`: a packed result is finite only if the unpacked one is.
* `isFinite_neg`, `isFinite_abs`, `isFinite_sqrt`, `isFinite_add`, `isFinite_sub`, `isFinite_mul`,
  `isFinite_div`: the operands of a finite result.
* `isFinite_greatest`, `isFinite_least`: the values of which one is the greatest or the least.
-/

namespace DeskCalc.Binary64

open Float.Model UnpackedFloat

/-! ## Unpacked results -/

/-- An infinity and what is no number are packed as they are. -/
theorem isFinite_of_pack {f : UnpackedFloat}
    (h : (Float.ofModel (Float.Model.pack f)).isFinite = true) : f.isFinite = true := by
  cases f with
  | notANumber =>
      have hpacked : (Float.ofModel (Float.Model.pack .notANumber)).isFinite = false := by
        decide +kernel
      rw [hpacked] at h
      cases h
  | infinity s =>
      have hpacked : ∀ s, (Float.ofModel (Float.Model.pack (.infinity s))).isFinite = false := by
        intro s
        cases s <;> decide +kernel
      rw [hpacked] at h
      cases h
  | zero s => rfl
  | finite s m e hm => rfl

section
variable {spec : Float.Model.Format} {f g : UnpackedFloat}

/-- A sum, a difference and a product are finite only if both operands are. -/
theorem isFinite_operands {op : UnpackedFloat → UnpackedFloat → UnpackedFloat}
    (hop : op = UnpackedFloat.add spec ∨ op = UnpackedFloat.sub spec ∨ op = UnpackedFloat.mul spec)
    (h : (op f g).isFinite = true) : f.isFinite = true ∧ g.isFinite = true := by
  cases f with
  | notANumber => rcases hop with rfl | rfl | rfl <;> cases h
  | infinity s =>
      cases g with
      | infinity t =>
          -- Infinities of unlike signs have no sum, and those of like signs no difference.
          rcases hop with rfl | rfl | rfl
          · cases s <;> cases t <;> cases h
          · cases s <;> cases t <;> cases h
          · cases h
      | _ => rcases hop with rfl | rfl | rfl <;> cases h
  | _ =>
      cases g with
      | notANumber => rcases hop with rfl | rfl | rfl <;> cases h
      | infinity t => rcases hop with rfl | rfl | rfl <;> cases h
      | _ => exact ⟨rfl, rfl⟩

/-- A quotient is finite if its dividend is and its divisor is a number other than zero. -/
theorem isFinite_unpacked_div (h : (UnpackedFloat.div spec f g).isFinite = true) :
    f.isFinite = true ∧ (g.isFinite = true ∨ g.isInf = true) ∧ g.beq (.zero .positive) = false := by
  cases f with
  | notANumber => cases h
  | infinity s => cases g <;> cases h
  | zero s =>
      cases g with
      | notANumber => cases h
      | infinity t => exact ⟨rfl, .inr rfl, by cases t <;> rfl⟩
      | zero t => cases h
      | finite t m e hm => exact ⟨rfl, .inl rfl, by cases t <;> rfl⟩
  | finite s m e hm =>
      cases g with
      | notANumber => cases h
      | infinity t => exact ⟨rfl, .inr rfl, by cases t <;> rfl⟩
      | zero t => cases h
      | finite t m e hm => exact ⟨rfl, .inl rfl, by cases t <;> rfl⟩

theorem isFinite_unpacked_sqrt (h : (UnpackedFloat.sqrt spec f).isFinite = true) :
    f.isFinite = true := by
  cases f with
  | notANumber => cases h
  | infinity s => cases s <;> cases h
  | _ => rfl

/-- A negation and a magnitude are of the same kind. -/
theorem isFinite_unpacked_sign (f : UnpackedFloat) :
    f.neg.isFinite = f.isFinite ∧ f.abs.isFinite = f.isFinite := by
  cases f <;> exact ⟨rfl, rfl⟩

theorem isInf_unpacked (h : f.isInf = true) : f.isFinite = false ∧ f.isNaN = false := by
  cases f with
  | infinity s => exact ⟨rfl, rfl⟩
  | _ => cases h

theorem isFinite_unpacked_beq (h : f.beq g = true) (hg : g.isFinite = true) :
    f.isFinite = true := by
  cases f with
  | notANumber => cases h
  | infinity s =>
      cases g with
      | notANumber => cases h
      | infinity t => cases hg
      | _ => cases s <;> cases h
  | _ => rfl

end

/-! ## Doubles -/

section
variable {x y : Float}

theorem isFinite_neg (h : (-x).isFinite = true) : x.isFinite = true := by
  have hpacked : x.toModel.unpack.neg.isFinite = true := isFinite_of_pack h
  rw [(isFinite_unpacked_sign _).1] at hpacked
  exact hpacked

theorem isFinite_abs (h : x.abs.isFinite = true) : x.isFinite = true := by
  have hpacked : x.toModel.unpack.abs.isFinite = true := isFinite_of_pack h
  rw [(isFinite_unpacked_sign _).2] at hpacked
  exact hpacked

theorem isFinite_sqrt (h : x.sqrt.isFinite = true) : x.isFinite = true :=
  isFinite_unpacked_sqrt (isFinite_of_pack h)

theorem isFinite_add (h : (x + y).isFinite = true) : x.isFinite = true ∧ y.isFinite = true :=
  isFinite_operands (.inl rfl) (isFinite_of_pack h)

theorem isFinite_sub (h : (x - y).isFinite = true) : x.isFinite = true ∧ y.isFinite = true :=
  isFinite_operands (.inr (.inl rfl)) (isFinite_of_pack h)

theorem isFinite_mul (h : (x * y).isFinite = true) : x.isFinite = true ∧ y.isFinite = true :=
  isFinite_operands (.inr (.inr rfl)) (isFinite_of_pack h)

end

/-! ## Infinities -/

theorem not_isFinite_nan : nan.isFinite = false := by
  decide +kernel

theorem not_isFinite_infinity (sign : Bool) : (infinity sign).isFinite = false := by
  cases sign <;> decide +kernel

theorem isInf_infinity (sign : Bool) : (infinity sign).isInf = true := by
  cases sign <;> decide +kernel

theorem not_isNaN_infinity (sign : Bool) : (infinity sign).isNaN = false := by
  cases sign <;> decide +kernel

theorem unpack_infinity (sign : Bool) :
    (infinity sign).toModel.unpack = .infinity (signOf sign) := by
  cases sign <;> rfl

/-- What is neither finite nor no number is an infinity. -/
theorem eq_infinity {x : Float} (hfinite : x.isFinite = false) (hnumber : x.isNaN = false) :
    x = infinity (hasSign x) := by
  have hrank : rank x = infinityRank := by
    have hlow := mt (isFinite_iff x).2 (by rw [hfinite]; exact Bool.false_ne_true)
    have hhigh := mt (isNaN_iff x).2 (by rw [hnumber]; exact Bool.false_ne_true)
    omega
  exact ext_rank (hasSign_ofRank (Nat.le_refl _)).symm
    (hrank.trans (rank_ofRank (Nat.le_refl _)).symm)

theorem lt_iff (x y : Float) : x < y ↔ x.toModel.unpack.lt y.toModel.unpack = true :=
  decide_eq_true_iff

/-- Nothing is above infinity. -/
theorem not_infinity_lt (y : Float) : ¬ infinity false < y := by
  rw [lt_iff, unpack_infinity]
  cases y.toModel.unpack with
  | infinity s => cases s <;> decide
  | _ => exact Bool.false_ne_true

/-- Nothing is below minus infinity. -/
theorem not_lt_infinity (x : Float) : ¬ x < infinity true := by
  rw [lt_iff, unpack_infinity]
  cases x.toModel.unpack with
  | infinity s => cases s <;> decide
  | zero s => exact Bool.false_ne_true
  | notANumber => exact Bool.false_ne_true
  | finite s m e hm => cases s <;> exact Bool.false_ne_true

/-- Finite doubles are between the infinities. -/
theorem between_infinities {x : Float} (h : x.isFinite = true) :
    x < infinity false ∧ infinity true < x := by
  have hunpacked : x.toModel.unpack.isFinite = true := h
  rw [lt_iff, lt_iff, unpack_infinity, unpack_infinity]
  cases hx : x.toModel.unpack with
  | notANumber =>
      rw [hx] at hunpacked
      cases hunpacked
  | infinity s =>
      rw [hx] at hunpacked
      cases hunpacked
  | zero s => exact ⟨rfl, rfl⟩
  | finite s m e hm => cases s <;> exact ⟨rfl, rfl⟩

theorem exists_eq_infinity {x : Float} (h : x.isInf = true) : ∃ sign, x = infinity sign := by
  obtain ⟨hfinite, hnumber⟩ := isInf_unpacked h
  exact ⟨hasSign x, eq_infinity hfinite hnumber⟩

theorem not_isInf_of_isFinite {x : Float} (h : x.isFinite = true) : x.isInf = false := by
  rw [← Bool.not_eq_true]
  intro hinf
  have hfinite : x.isFinite = false := (isInf_unpacked hinf).1
  exact Bool.false_ne_true (hfinite.symm.trans h)

/-- **A finite quotient** has a finite dividend, and a divisor that is finite or infinite and not
zero. -/
theorem isFinite_div {x y : Float} (h : (x / y).isFinite = true) :
    x.isFinite = true ∧ (y.isFinite = true ∨ ∃ sign, y = infinity sign) ∧ (y == 0) = false := by
  obtain ⟨hx, hy, hnonzero⟩ := isFinite_unpacked_div (isFinite_of_pack h)
  exact ⟨hx, hy.imp_right exists_eq_infinity, hnonzero⟩

/-- What is equal to a finite double is finite. -/
theorem isFinite_of_beq {x y : Float} (h : (x == y) = true) (hy : y.isFinite = true) :
    x.isFinite = true :=
  isFinite_unpacked_beq (g := y.toModel.unpack) h hy

/-- What has its magnitude below some double is finite, or no number. -/
theorem isFinite_of_abs_lt {x y : Float} (hnumber : x.isNaN = false) (h : x.abs < y) :
    x.isFinite = true := by
  rw [← Bool.not_eq_false]
  intro hx
  have habs : ∀ sign, (infinity sign).abs = infinity false := by
    intro sign
    cases sign <;> rfl
  rw [eq_infinity hx hnumber, habs] at h
  exact not_infinity_lt y h

theorem infinity_lt_infinity : infinity true < infinity false := by
  rw [lt_iff, unpack_infinity, unpack_infinity]
  rfl

theorem lt_infinity {x : Float} (hnumber : x.isNaN = false) (hne : x ≠ infinity false) :
    x < infinity false := by
  cases hfinite : x.isFinite with
  | true => exact (between_infinities hfinite).1
  | false =>
      rw [eq_infinity hfinite hnumber] at hne ⊢
      cases hsign : hasSign x with
      | false => exact absurd (by rw [hsign]) hne
      | true => exact infinity_lt_infinity

theorem infinity_lt {x : Float} (hnumber : x.isNaN = false) (hne : x ≠ infinity true) :
    infinity true < x := by
  cases hfinite : x.isFinite with
  | true => exact (between_infinities hfinite).2
  | false =>
      rw [eq_infinity hfinite hnumber] at hne ⊢
      cases hsign : hasSign x with
      | true => exact absurd (by rw [hsign]) hne
      | false => exact infinity_lt_infinity

/-- What is beyond all other values is chosen as soon as it is among them. -/
theorem ne_of_foldl_ne {before : Float → Float → Prop} [DecidableRel before] {top : Float}
    (htop : ∀ x, ¬ before top x) (hbefore : ∀ x, x.isNaN = false → x ≠ top → before x top)
    {a : Float} {xs : List Float} (ha : a.isNaN = false) (hxs : ∀ x ∈ xs, x.isNaN = false)
    (h : xs.foldl (fun a b => if before a b then b else a) a ≠ top) :
    a ≠ top ∧ ∀ x ∈ xs, x ≠ top := by
  induction xs generalizing a with
  | nil => exact ⟨h, fun x hx => by cases hx⟩
  | cons b xs ih =>
      obtain ⟨hb, hrest⟩ := List.forall_mem_cons.1 hxs
      have hchosen : (if before a b then b else a).isNaN = false := by
        split
        · exact hb
        · exact ha
      obtain ⟨hne, hxs⟩ := ih hchosen hrest h
      have hatop : a ≠ top := by
        rintro rfl
        rw [if_neg (htop b)] at hne
        exact hne rfl
      have hbtop : b ≠ top := by
        rintro rfl
        rw [if_pos (hbefore a ha hatop)] at hne
        exact hne rfl
      exact ⟨hatop, List.forall_mem_cons.2 ⟨hbtop, hxs⟩⟩

/-- The value that is chosen is finite only if the values are, infinities that are never chosen
apart. -/
theorem isFinite_chosen (before : Float → Float → Prop) [DecidableRel before] (sign : Bool)
    (htop : ∀ x, ¬ before (infinity sign) x)
    (hbefore : ∀ x, x.isNaN = false → x ≠ infinity sign → before x (infinity sign))
    {xs : List Float} (h : (if xs.any Float.isNaN then nan
      else xs.foldl (fun a b => if before a b then b else a) (infinity !sign)).isFinite = true) :
    ∀ x ∈ xs, x.isFinite = true ∨ x = infinity !sign := by
  intro x hx
  cases hnan : xs.any Float.isNaN with
  | true =>
      rw [hnan, if_pos rfl, not_isFinite_nan] at h
      cases h
  | false =>
      rw [hnan, if_neg Bool.false_ne_true] at h
      have hnumbers : ∀ y ∈ xs, y.isNaN = false := by
        intro y hy
        rw [← Bool.not_eq_true]
        intro hynan
        rw [List.any_eq_true.2 ⟨y, hy, hynan⟩] at hnan
        cases hnan
      have hchosen : xs.foldl (fun a b => if before a b then b else a) (infinity !sign) ≠
          infinity sign := by
        intro heq
        rw [heq, not_isFinite_infinity] at h
        cases h
      have hne := (ne_of_foldl_ne htop hbefore (not_isNaN_infinity !sign) hnumbers hchosen).2 x hx
      cases hfinite : x.isFinite with
      | true => exact .inl rfl
      | false =>
          have heq := eq_infinity hfinite (hnumbers x hx)
          rw [heq] at hne ⊢
          have hsign : hasSign x = !sign := Bool.eq_not.2 fun hsign => hne (by rw [hsign])
          exact .inr (by rw [hsign])

/-- **A finite greatest value** is that of finite values and of minus infinities. -/
theorem isFinite_greatest {xs : List Float} (h : (Vocabulary.greatest xs).isFinite = true) :
    ∀ x ∈ xs, x.isFinite = true ∨ x = infinity true :=
  isFinite_chosen (fun a b => a < b) false not_infinity_lt (fun _ => lt_infinity) h

/-- **A finite least value** is that of finite values and of infinities. -/
theorem isFinite_least {xs : List Float} (h : (Vocabulary.least xs).isFinite = true) :
    ∀ x ∈ xs, x.isFinite = true ∨ x = infinity false :=
  isFinite_chosen (fun a b => b < a) true not_lt_infinity (fun _ => infinity_lt) h

end DeskCalc.Binary64
